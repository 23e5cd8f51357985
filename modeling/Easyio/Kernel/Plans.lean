import Easyio.Kernel.Ipc

/-!
# What the steps of the calls are made of

A step of a call in `Kernel.Ipc` reads objects and fields of its own thread, and decides on
changes.  Some of them are made to the object, to fields that only the thread itself reads, and
to the place where it goes on (`Change`); they concern no other thread.  At the end comes at
most one `Deed`, which does.

`plan` and `planNext` are the changes and the deed of a first step and of a next one, and
`perform_eq` and `proceed_eq` say that the steps are these.  What holds of every change and
every deed then holds of every step, if the plan keeps to the object of the call
(`plan_fits`, `planNext_fits`).
-/

namespace Easyio.Kernel

open Option Ipc MessageQueue

/-- The objects that threads wait for. -/
inductive Obj where
  | sem (i : ℕ)
  | mutex (i : ℕ)
  | event (i : ℕ)
  | mailbox (i : ℕ)
  | queue (i : ℕ)
  deriving DecidableEq

/-- The object to which a list belongs. -/
def Wait.obj : Wait → Obj
  | .sem i => .sem i
  | .mutex i => .mutex i
  | .event i => .event i
  | .mbRecv i | .mbSend i => .mailbox i
  | .mq i => .queue i

namespace Ipc

/-- The flag of the object that a thread waits for. -/
def flag (s : Ipc) : Wait → Flag
  | .sem i => (s.sem i).flag
  | .mutex i => (s.mutex i).flag
  | .event i => (s.event i).flag
  | .mbRecv i | .mbSend i => (s.mailbox i).flag
  | .mq i => (s.queue i).flag

def Call.obj : Call → Option Obj
  | .semTake i _ | .semTrytake i | .semRelease i => some (.sem i)
  | .mutexTake i _ | .mutexRelease i => some (.mutex i)
  | .eventSend i _ | .eventRecv i _ _ _ => some (.event i)
  | .mbSendWait i _ _ | .mbSend i _ | .mbRecv i _ => some (.mailbox i)
  | .mqSend i _ | .mqUrgent i _ | .mqRecv i _ _ => some (.queue i)
  | .sleep _ | .yield => none

/-- The object of the call in which a thread is. -/
def Pc.obj : Pc → Option Obj
  | .returned _ _ | .sleep => none
  | .semTake i => some (.sem i)
  | .mutexTake i => some (.mutex i)
  | .eventRecv i => some (.event i)
  | .mbSend i _ _ _ | .mbRecv i _ _ => some (.mailbox i)
  | .mqRecv i _ _ _ | .mqFill i _ _ _ | .mqLink i _ _ | .mqCopy i _ _ | .mqFree i _ _ =>
    some (.queue i)

/-- The list in which a call may have to wait. -/
def Call.waits : Call → Option Wait
  | .semTake i _ | .semTrytake i => some (.sem i)
  | .mutexTake i _ => some (.mutex i)
  | .eventRecv i _ _ _ => some (.event i)
  | .mbSendWait i _ _ | .mbSend i _ => some (.mbSend i)
  | .mbRecv i _ => some (.mbRecv i)
  | .mqRecv i _ _ => some (.mq i)
  | .semRelease _ | .mutexRelease _ | .eventSend _ _ | .mqSend _ _ | .mqUrgent _ _ | .sleep _
  | .yield => none

/-- The list in which a thread that goes on may have to wait again. -/
def Pc.waits : Pc → Option Wait
  | .mbSend i _ _ _ => some (.mbSend i)
  | .mbRecv i _ _ => some (.mbRecv i)
  | .mqRecv i _ _ _ => some (.mq i)
  | _ => none

/-! ## Changes and deeds -/

/-- What concerns no other thread. -/
inductive Change where
  | error (err : Err)
  | wants (set : BitVec 32) (option : BitVec 8)
  | sem (i value : ℕ)
  | mutex (i : ℕ) (m : Mutex)
  | event (i : ℕ) (set : BitVec 32)
  | mailbox (i : ℕ) (mb : Mailbox)
  | queue (i : ℕ) (mq : MessageQueue)
  | goto (pc : Pc)

/-- The change, made by the thread `t`. -/
def Change.make (t : ℕ) (s : Ipc) : Change → Ipc
  | .error err => s.setError t err
  | .wants set option => s.wantEvents t set option
  | .sem i value => s.setSem i value
  | .mutex i m => s.setMutex i m
  | .event i set => s.setEvent i set
  | .mailbox i mb => s.setMailbox i mb
  | .queue i mq => s.setQueue i mq
  | .goto pc => s.goto t pc

/-- What concerns other threads. -/
inductive Deed where
  | nothing
  | block (w : Wait) (flag : Flag) (time : ℤ)
  | wake (w : Wait)
  | semRelease (i : ℕ)
  /-- the owner `o` of a mutex is raised and waited for -/
  | mutexWait (i o : ℕ) (time : ℤ)
  /-- a mutex is given up or handed over -/
  | mutexPass (i : ℕ)
  | eventSend (i : ℕ) (set : BitVec 32)
  | sleep (tick : ℕ)
  | yield

/-- The deed, done by the thread `t`. -/
def Deed.run (t : ℕ) (s : Ipc) : Deed → Option Ipc
  | .nothing => some s
  | .block w flag time => s.under (s.sched.block w flag t time)
  | .wake w => s.wakeIfAny w
  | .semRelease i => s.rtSemRelease i
  | .mutexWait i o time => (s.under (s.sched.raise o t)).bind fun s =>
    s.under (s.sched.block (.mutex i) (s.mutex i).flag t time)
  | .mutexPass i => (s.under (s.sched.restore t (s.mutex i).originalPriority)).bind (handOver · i)
  | .eventSend i set => s.sendEnd i (sendLoop (s.sched.waiting (.event i))
      (s.sched, (s.event i).set ||| set, false))
  | .sleep tick => s.under (s.sched.rtThreadSleep t tick)
  | .yield => s.under (s.sched.rtThreadYield t)

/-- A step: changes, and a deed at the end. -/
structure Plan where
  changes : List Change
  deed : Deed

/-- The changes of a plan, made by the thread `t`. -/
def Plan.made (p : Plan) (s : Ipc) (t : ℕ) : Ipc := p.changes.foldl (Change.make t) s

def Plan.run (s : Ipc) (t : ℕ) (p : Plan) : Option Ipc := p.deed.run t (p.made s t)

/-! ## The plans of the calls -/

/-- A call that returns. -/
def answer (changes : List Change) (err : Err) (out : Output) : Option Plan :=
  some ⟨changes ++ [.goto (.returned err out)], .nothing⟩

/-- A call that waits and goes on at `pc`. -/
def await (change : Change) (w : Wait) (flag : Flag) (time : ℤ) (pc : Pc) : Option Plan :=
  some ⟨[change, .goto pc], .block w flag time⟩

section

variable (s : Ipc)

def planSemTake (i : ℕ) (time : ℤ) : Option Plan :=
  if 0 < (s.sem i).value then answer [.sem i ((s.sem i).value - 1)] .eok .none
  else if time = 0 then answer [] .etimeout .none
  else await (.error .eok) (.sem i) (s.sem i).flag time (.semTake i)

def planMutexTake (t i : ℕ) (time : ℤ) : Option Plan :=
  if (s.mutex i).owner = some t then
    answer [.error .eok, .mutex i { s.mutex i with hold := ((s.mutex i).hold + 1) % 2 ^ 8 }] .eok
      .none
  else if 0 < (s.mutex i).value then
    answer [.error .eok, .mutex i ({ s.mutex i with value := (s.mutex i).value - 1 }.acquire t
      (s.sched.thread t).currentPriority)] .eok .none
  else if time = 0 then answer [.error .eok, .error .etimeout] .etimeout .none
  else (s.mutex i).owner.map fun o =>
    ⟨[.error .eok, .goto (.mutexTake i)], .mutexWait i o time⟩

def planMutexRelease (t i : ℕ) : Option Plan :=
  if (s.mutex i).owner ≠ some t then answer [.error .error] .error .none
  else if ((s.mutex i).hold + (2 ^ 8 - 1)) % 2 ^ 8 = 0 then
    some ⟨[.goto (.returned .eok .none)], .mutexPass i⟩
  else answer [.mutex i { s.mutex i with hold := ((s.mutex i).hold + (2 ^ 8 - 1)) % 2 ^ 8 }] .eok
    .none

def planEventRecv (i : ℕ) (set : BitVec 32) (option : BitVec 8) (timeout : ℤ) : Option Plan :=
  if set = 0#32 then answer [] .error .none
  else if !isAnd option && !isOr option then none
  else if eventMet option set (s.event i).set then
    answer [.error .eok, .event i (if isClear option then (s.event i).set &&& ~~~set
      else (s.event i).set)] .eok (.set ((s.event i).set &&& set))
  else if timeout = 0 then answer [.error .eok, .error .etimeout] .etimeout .none
  else some ⟨[.error .eok, .wants set option, .goto (.eventRecv i)],
    .block (.event i) (s.event i).flag timeout⟩

def planMbSend (i value : ℕ) (timeout : ℤ) : Option Plan :=
  if (s.mailbox i).entry = (s.mailbox i).size then
    if timeout = 0 then answer [.error .eok] .efull .none
    else await (.error .eok) (.mbSend i) (s.mailbox i).flag timeout
      (.mbSend i value timeout s.sched.tick)
  else some ⟨[.mailbox i ((s.mailbox i).put value), .goto (.returned .eok .none)],
    .wake (.mbRecv i)⟩

def planMbSendWait (i value : ℕ) (timeout : ℤ) : Option Plan :=
  if (s.mailbox i).entry = (s.mailbox i).size ∧ timeout = 0 then answer [] .efull .none
  else s.planMbSend i value timeout

def planMbRecv (i : ℕ) (timeout : ℤ) : Option Plan :=
  if (s.mailbox i).entry = 0 then
    if timeout = 0 then answer [.error .etimeout] .etimeout .none
    else await (.error .eok) (.mbRecv i) (s.mailbox i).flag timeout (.mbRecv i timeout s.sched.tick)
  else some ⟨[.mailbox i (s.mailbox i).take,
    .goto (.returned .eok (.mail ((s.mailbox i).msgPool (s.mailbox i).outOffset)))],
    .wake (.mbSend i)⟩

def planMqSend (i : ℕ) (buffer : List ℕ) (urgent : Bool) : Option Plan :=
  if buffer = [] then none
  else if (s.queue i).msgSize < buffer.length then answer [] .error .none
  else match (s.queue i).free with
    | none => answer [] .efull .none
    | some msg => some ⟨[.queue i { s.queue i with free := (s.queue i).next msg },
        .goto (.mqFill i msg buffer urgent)], .nothing⟩

def planMqRecv (i size : ℕ) (timeout : ℤ) : Option Plan :=
  if (s.queue i).entry = 0 then
    if timeout = 0 then answer [.error .etimeout] .etimeout .none
    else await (.error .eok) (.mq i) (s.queue i).flag timeout
      (.mqRecv i size timeout s.sched.tick)
  else (s.queue i).head.map fun msg =>
    ⟨[.queue i ((s.queue i).unlink msg), .goto (.mqCopy i msg size)], .nothing⟩

/-- The first step of a call. -/
def plan (t : ℕ) : Call → Option Plan
  | .semTake i time => s.planSemTake i time
  | .semTrytake i => s.planSemTake i 0
  | .semRelease i => some ⟨[.goto (.returned .eok .none)], .semRelease i⟩
  | .mutexTake i time => s.planMutexTake t i time
  | .mutexRelease i => s.planMutexRelease t i
  | .eventSend i set =>
    if set = 0#32 then answer [] .error .none
    else some ⟨[.goto (.returned .eok .none)], .eventSend i set⟩
  | .eventRecv i set option timeout => s.planEventRecv i set option timeout
  | .mbSendWait i value timeout => s.planMbSendWait i value timeout
  | .mbSend i value => s.planMbSendWait i value 0
  | .mbRecv i timeout =>
    if (s.mailbox i).entry = 0 ∧ timeout = 0 then answer [] .etimeout .none
    else s.planMbRecv i timeout
  | .mqSend i buffer => s.planMqSend i buffer false
  | .mqUrgent i buffer => s.planMqSend i buffer true
  | .mqRecv i size timeout =>
    if size = 0 then none
    else if (s.queue i).entry = 0 ∧ timeout = 0 then answer [] .etimeout .none
    else s.planMqRecv i size timeout
  | .sleep tick => some ⟨[.goto .sleep], .sleep tick⟩
  | .yield => some ⟨[.goto (.returned .eok .none)], .yield⟩

/-- A thread that runs again looks at its error number. -/
def ifWoken (t : ℕ) (p : Option Plan) : Option Plan :=
  if (s.sched.thread t).error ≠ .eok then answer [] (s.sched.thread t).error .none else p

/-- The next step of a call. -/
def planNext (t : ℕ) : Pc → Option Plan
  | .returned _ _ => none
  | .sleep => answer (if (s.sched.thread t).error = .etimeout then [.error .eok] else []) .eok .none
  | .semTake _ | .mutexTake _ => answer [] (s.sched.thread t).error .none
  | .eventRecv _ => s.ifWoken t (answer [] .eok (.set (s.sched.thread t).eventSet))
  | .mbSend i value timeout start =>
    s.ifWoken t (s.planMbSend i value (timeLeft timeout start s.sched.tick))
  | .mbRecv i timeout start => s.ifWoken t (s.planMbRecv i (timeLeft timeout start s.sched.tick))
  | .mqRecv i size timeout start =>
    s.ifWoken t (s.planMqRecv i size (timeLeft timeout start s.sched.tick))
  | .mqFill i msg buffer urgent =>
    some ⟨[.queue i ((s.queue i).fill msg buffer urgent), .goto (.mqLink i msg urgent)], .nothing⟩
  | .mqLink i msg urgent => some ⟨[.queue i ((s.queue i).link msg urgent),
      .goto (.returned .eok .none)], .wake (.mq i)⟩
  | .mqCopy i msg size => some ⟨[.goto (.mqFree i msg
      (((s.queue i).data msg).take (min size (s.queue i).msgSize)))], .nothing⟩
  | .mqFree i msg bytes => answer [.queue i ((s.queue i).addFree msg)] .eok (.message bytes)

end

/-! ## The steps are the plans -/

section

variable (s : Ipc) (t i : ℕ)

theorem goto_under (pc : Pc) (sched : Option Sched) :
    (s.goto t pc).under sched = (s.under sched).map (goto · t pc) := by
  cases sched <;> rfl

theorem goto_wakeIfAny (pc : Pc) (w : Wait) :
    (s.goto t pc).wakeIfAny w = (s.wakeIfAny w).map (goto · t pc) := by
  unfold wakeIfAny
  change (if s.sched.waiting w ≠ [] then (s.goto t pc).under (s.sched.wake w) else _) = _
  split
  · exact goto_under ..
  · rfl

theorem goto_handOver (pc : Pc) (i : ℕ) :
    (s.goto t pc).handOver i = (s.handOver i).map (goto · t pc) := by
  cases h : s.sched.waiting (.mutex i) with
  | nil =>
    rw [handOver, handOver, h, show (s.goto t pc).sched.waiting (.mutex i) = [] from h]
    rfl
  | cons u rest =>
    rw [handOver, handOver, h, show (s.goto t pc).sched.waiting (.mutex i) = u :: rest from h]
    exact goto_under (s.setMutex i _) ..

theorem mutexTake_eq (time : ℤ) :
    s.rtMutexTake t i time = (s.planMutexTake t i time).bind (Plan.run s t) := by
  have hpriority : ((s.setError t .eok).sched.thread t).currentPriority =
      (s.sched.thread t).currentPriority := by
    simp [setError, Sched.setError, Sched.modify]
  unfold rtMutexTake mutexTake planMutexTake
  rw [hpriority]
  change (if (s.mutex i).owner = some t then _ else if 0 < (s.mutex i).value then _ else
    if time = 0 then _ else (s.mutex i).owner.bind _) = _
  split
  · rfl
  split
  · rfl
  split
  · rfl
  cases (s.mutex i).owner with
  | none => rfl
  | some o =>
    change _ = (((s.setError t .eok).goto t _).under ((s.setError t .eok).sched.raise o t)).bind _
    change ((s.setError t .eok).under ((s.setError t .eok).sched.raise o t)).bind _ = _
    cases (s.setError t .eok).sched.raise o t <;> rfl

theorem mutexRelease_eq : s.rtMutexRelease t i = (s.planMutexRelease t i).bind (Plan.run s t) := by
  unfold rtMutexRelease planMutexRelease
  split
  · rfl
  split
  · change Option.map _ ((s.under (s.sched.restore t (s.mutex i).originalPriority)).bind _) =
      ((s.goto t _).under (s.sched.restore t (s.mutex i).originalPriority)).bind _
    cases s.sched.restore t (s.mutex i).originalPriority with
    | none => rfl
    | some sched => exact (goto_handOver { s with sched } t _ i).symm
  · rfl

theorem eventRecv_eq (set : BitVec 32) (option : BitVec 8) (timeout : ℤ) :
    s.rtEventRecv t i set option timeout =
      (s.planEventRecv i set option timeout).bind (Plan.run s t) := by
  unfold rtEventRecv eventRecv planEventRecv
  change (if set = 0#32 then _ else if !isAnd option && !isOr option then none else
    if eventMet option set (s.event i).set then _ else _) = _
  split
  · rfl
  split
  · rfl
  split
  · rfl
  split <;> rfl

theorem mbSendLoop_eq (value : ℕ) (timeout : ℤ) :
    s.mbSendLoop t i value timeout = (s.planMbSend i value timeout).bind (Plan.run s t) := by
  unfold mbSendLoop planMbSend
  split
  · split <;> rfl
  · exact (goto_wakeIfAny (s.setMailbox i _) ..).symm

theorem mbSendWait_eq (value : ℕ) (timeout : ℤ) :
    s.rtMbSendWait t i value timeout = (s.planMbSendWait i value timeout).bind (Plan.run s t) := by
  unfold rtMbSendWait planMbSendWait
  split
  · rfl
  · exact mbSendLoop_eq ..

theorem mbRecvLoop_eq (timeout : ℤ) :
    s.mbRecvLoop t i timeout = (s.planMbRecv i timeout).bind (Plan.run s t) := by
  unfold mbRecvLoop planMbRecv
  split
  · split <;> rfl
  · exact (goto_wakeIfAny (s.setMailbox i _) ..).symm

theorem mqSendStart_eq (buffer : List ℕ) (urgent : Bool) :
    s.mqSendStart t i buffer urgent = (s.planMqSend i buffer urgent).bind (Plan.run s t) := by
  unfold mqSendStart planMqSend
  split
  · rfl
  split
  · rfl
  cases (s.queue i).free <;> rfl

theorem mqRecvLoop_eq (size : ℕ) (timeout : ℤ) :
    s.mqRecvLoop t i size timeout = (s.planMqRecv i size timeout).bind (Plan.run s t) := by
  unfold mqRecvLoop planMqRecv
  split
  · split <;> rfl
  · cases (s.queue i).head <;> rfl

theorem perform_eq (c : Call) : s.perform t c = (s.plan t c).bind (Plan.run s t) := by
  have hsem : ∀ i time, s.rtSemTake t i time = (s.planSemTake i time).bind (Plan.run s t) := by
    intro i time
    unfold rtSemTake planSemTake
    split
    · rfl
    split <;> rfl
  cases c with
  | semTake i time => exact hsem i time
  | semTrytake i => exact hsem i 0
  | semRelease i =>
    change (s.rtSemRelease i).map (goto · t _) = (s.goto t _).rtSemRelease i
    unfold rtSemRelease
    change _ = if s.sched.waiting (.sem i) ≠ [] then (s.goto t _).under (s.sched.wake _) else _
    split
    · exact (goto_under ..).symm
    · rfl
  | mutexTake i time => exact mutexTake_eq ..
  | mutexRelease i => exact mutexRelease_eq ..
  | eventSend i set =>
    unfold perform rtEventSend plan
    dsimp only
    split
    · rfl
    · exact (goto_under (s.setEvent i _) ..).symm
  | eventRecv i set option timeout => exact eventRecv_eq ..
  | mbSendWait i value timeout | mbSend i value => exact mbSendWait_eq ..
  | mbRecv i timeout =>
    unfold perform rtMbRecv plan
    dsimp only
    split
    · rfl
    · exact mbRecvLoop_eq ..
  | mqSend i buffer | mqUrgent i buffer => exact mqSendStart_eq ..
  | mqRecv i size timeout =>
    unfold perform rtMqRecv plan
    dsimp only
    split
    · rfl
    split
    · rfl
    · exact mqRecvLoop_eq ..
  | sleep tick => rfl
  | yield => rfl

end

variable {s : Ipc} {t i : ℕ} {time timeout : ℤ}

theorem ifWoken_eq {x : Option Ipc} {p : Option Plan} (hx : x = p.bind (Plan.run s t)) :
    (if (s.sched.thread t).error ≠ .eok then some (s.waitEnd t) else x) =
      (s.ifWoken t p).bind (Plan.run s t) := by
  unfold ifWoken
  split
  · rfl
  · exact hx

theorem proceed_eq (s : Ipc) (t : ℕ) (pc : Pc) :
    s.proceed t pc = (s.planNext t pc).bind (Plan.run s t) := by
  cases pc with
  | returned err out => rfl
  | sleep =>
    unfold proceed planNext Sched.rtThreadSleepEnd
    dsimp only
    split <;> rfl
  | semTake i => rfl
  | mutexTake i => rfl
  | eventRecv i =>
    unfold proceed eventRecvEnd
    rw [apply_ite some]
    exact ifWoken_eq rfl
  | mbSend i value timeout start => exact ifWoken_eq (mbSendLoop_eq ..)
  | mbRecv i timeout start => exact ifWoken_eq (mbRecvLoop_eq ..)
  | mqRecv i size timeout start => exact ifWoken_eq (mqRecvLoop_eq ..)
  | mqFill i msg buffer urgent => rfl
  | mqLink i msg urgent => exact (goto_wakeIfAny (s.setQueue i _) ..).symm
  | mqCopy i msg size => rfl
  | mqFree i msg bytes => rfl

/-! ## What a plan is about -/

/-- The change is one of the thread itself or of the object `o`, whose flag it keeps. -/
def Change.Fits (flag : Wait → Flag) (o : Option Obj) : Change → Prop
  | .error _ | .wants _ _ => True
  | .sem i _ => o = some (.sem i)
  | .mutex i m => o = some (.mutex i) ∧ m.flag = flag (.mutex i)
  | .event i _ => o = some (.event i)
  | .mailbox i mb => o = some (.mailbox i) ∧ mb.flag = flag (.mbRecv i)
  | .queue i mq => o = some (.queue i) ∧ mq.flag = flag (.mq i)
  | .goto pc => pc.obj = none ∨ pc.obj = o

/-- The deed concerns threads that wait for the object `o`; the list `on` is the one in which
the thread itself may have to wait. -/
def Deed.Fits (flag : Wait → Flag) (o : Option Obj) (on : Option Wait) : Deed → Prop
  | .nothing | .sleep _ | .yield => True
  | .block w f _ => o = some w.obj ∧ on = some w ∧ f = flag w ∧ ∀ i, w ≠ .mutex i
  | .wake w => o = some w.obj ∧ ∀ i, w ≠ .mutex i
  | .semRelease i => o = some (.sem i)
  | .mutexWait i _ _ | .mutexPass i => o = some (.mutex i)
  | .eventSend i _ => o = some (.event i)

/-- The plan keeps to the object `o` and the list `on`. -/
structure Plan.Fits (flag : Wait → Flag) (o : Option Obj) (on : Option Wait) (p : Plan) : Prop where
  changes : ∀ c ∈ p.changes, c.Fits flag o
  deed : p.deed.Fits flag o on

variable {c : Call} {pc : Pc} {p : Plan} {o : Option Obj} {on : Option Wait} {s' : Ipc}
  {sched : Option Sched}

theorem Plan.fits_mk {flag : Wait → Flag} {changes : List Change} {deed : Deed} :
    Plan.Fits flag o on ⟨changes, deed⟩ ↔
      (∀ c ∈ changes, c.Fits flag o) ∧ deed.Fits flag o on :=
  ⟨fun h => ⟨h.changes, h.deed⟩, fun h => ⟨h.1, h.2⟩⟩

theorem flag_link (mq : MessageQueue) (msg : ℕ) (urgent : Bool) :
    (mq.link msg urgent).flag = mq.flag := by
  unfold link
  split <;> rfl

theorem plan_fits : ∀ p ∈ s.plan t c, p.Fits s.flag c.obj c.waits := by
  cases c <;> simp only [plan, planSemTake, planMutexTake, planMutexRelease, planEventRecv,
    planMbSend, planMbSendWait, planMbRecv, planMqSend, planMqRecv, answer, await]
  all_goals try split_ifs
  all_goals try split
  all_goals simp [Plan.fits_mk, Change.Fits, Deed.Fits, Call.obj, Call.waits, Pc.obj, Wait.obj,
    flag, Mutex.acquire, Mailbox.put, Mailbox.take, unlink]

theorem planNext_fits : ∀ p ∈ s.planNext t pc, p.Fits s.flag pc.obj pc.waits := by
  cases pc <;> simp only [planNext, ifWoken, planMbSend, planMbRecv, planMqRecv, answer, await]
  all_goals try split_ifs
  all_goals simp [Plan.fits_mk, Change.Fits, Deed.Fits, Pc.waits, Pc.obj, Wait.obj, flag,
    Mailbox.put, Mailbox.take, unlink, fill, flag_link,
    addFree]

theorem perform_cases (hs : s.perform t c = some s') :
    ∃ p : Plan, p.Fits s.flag c.obj c.waits ∧ p.run s t = some s' := by
  rw [perform_eq] at hs
  obtain ⟨p, hp, hs⟩ := bind_eq_some_iff.mp hs
  exact ⟨p, plan_fits p hp, hs⟩

theorem proceed_cases (hs : s.proceed t pc = some s') :
    ∃ p : Plan, p.Fits s.flag pc.obj pc.waits ∧ p.run s t = some s' := by
  rw [proceed_eq] at hs
  obtain ⟨p, hp, hs⟩ := bind_eq_some_iff.mp hs
  exact ⟨p, planNext_fits p hp, hs⟩

/-! ## The flags -/

variable {s' r : Ipc} {d : Deed}

theorem under_eq (hs : s.under sched = some s') :
    sched = some s'.sched ∧ s' = { s with sched := s'.sched } := by
  obtain ⟨r, hr, rfl⟩ := map_eq_some_iff.mp hs
  exact ⟨hr, rfl⟩

theorem flag_under (hs : r.under sched = some s') (hr : r.flag = s.flag) : s'.flag = s.flag := by
  rw [(under_eq hs).2]
  exact hr

/-- Objects of which one is replaced by another with the same flag. -/
theorem flag_update {α : Type} (flag : α → Flag) {objects : ℕ → α} {a : α}
    (ha : flag a = flag (objects i)) (j : ℕ) :
    flag (Function.update objects i a j) = flag (objects j) := by
  rw [Function.apply_update (fun _ => flag), ha, Function.update_eq_self]

theorem flag_make {c : Change} (hc : c.Fits s.flag o) : (c.make t s).flag = s.flag := by
  funext w
  cases c with
  | sem i value => cases w <;> first | rfl | exact flag_update Semaphore.flag (by rfl) _
  | mutex i m => cases w <;> first | rfl | exact flag_update Mutex.flag hc.2 _
  | event i set => cases w <;> first | rfl | exact flag_update EventObject.flag (by rfl) _
  | mailbox i mb => cases w <;> first | rfl | exact flag_update Mailbox.flag hc.2 _
  | queue i mq => cases w <;> first | rfl | exact flag_update MessageQueue.flag hc.2 _
  | _ => rfl

theorem flag_setMutex (r : Ipc) (m : Mutex) (hm : m.flag = (r.mutex i).flag) :
    (r.setMutex i m).flag = r.flag :=
  flag_make (c := .mutex i m) (t := 0) ⟨rfl, hm⟩

theorem flag_run (hs : d.run t s = some s') : s'.flag = s.flag := by
  cases d with
  | nothing => exact some.inj hs ▸ rfl
  | block w flag time | sleep tick | yield => exact flag_under hs rfl
  | wake w =>
    simp only [Deed.run, wakeIfAny] at hs
    split at hs
    · exact flag_under hs rfl
    · exact some.inj hs ▸ rfl
  | semRelease i =>
    simp only [Deed.run, rtSemRelease] at hs
    split at hs
    · exact flag_under hs rfl
    · exact some.inj hs ▸ flag_make (c := .sem i _) (t := 0) rfl
  | mutexWait i o time =>
    obtain ⟨r, hr, hs⟩ := bind_eq_some_iff.mp hs
    exact flag_under hs (flag_under hr rfl)
  | mutexPass i =>
    obtain ⟨r, hr, hs⟩ := bind_eq_some_iff.mp hs
    have hflag : r.flag = s.flag := flag_under hr rfl
    unfold handOver at hs
    split at hs
    · exact some.inj hs ▸ (flag_setMutex r _ (by rfl)).trans hflag
    · exact flag_under hs ((flag_setMutex r _ (by rfl)).trans hflag)
  | eventSend i set => exact flag_under hs (flag_make (c := .event i _) (t := 0) rfl)

theorem flag_made (hp : p.Fits s.flag o on) : (p.made s t).flag = s.flag := by
  refine List.foldlRecOn p.changes (Change.make t) (motive := fun r => r.flag = s.flag) rfl ?_
  intro r hr c hc
  exact (flag_make (hr.symm ▸ hp.changes c hc)).trans hr

theorem flag_plan (hp : p.Fits s.flag o on) (hs : p.run s t = some s') : s'.flag = s.flag :=
  (flag_run hs).trans (flag_made hp)

end Ipc

end Easyio.Kernel
