import Easyio.Kernel.Frames

/-!
# No step looks at the bytes of a message

`bare` takes the bytes of all messages away and leaves the lengths of those that are sent.  A
step of the system commutes with it (`bare_step`), so systems that differ in these bytes only
go the same way.
-/

namespace Easyio.Kernel

open Ipc List

namespace Ipc

/-- Bytes of which only the number is known. -/
def blank (bytes : List ℕ) : List ℕ := bytes.map fun _ => 0

theorem length_blank (bytes : List ℕ) : (blank bytes).length = bytes.length := length_map _

theorem blank_blank (bytes : List ℕ) : blank (blank bytes) = blank bytes := map_map ..

theorem blank_eq_nil {bytes : List ℕ} : blank bytes = [] ↔ bytes = [] := map_eq_nil_iff

def Output.bare : Output → Output
  | .message _ => .message []
  | out => out

def Pc.bare : Pc → Pc
  | .returned err out => .returned err out.bare
  | .mqFill i msg buffer urgent => .mqFill i msg (blank buffer) urgent
  | .mqFree i msg _ => .mqFree i msg []
  | pc => pc

def Call.bare : Call → Call
  | .mqSend i buffer => .mqSend i (blank buffer)
  | .mqUrgent i buffer => .mqUrgent i (blank buffer)
  | c => c

def Event.bare : Event → Event
  | .call t c => .call t c.bare
  | e => e

def MessageQueue.bare (mq : MessageQueue) : MessageQueue := { mq with data := fun _ => [] }

def Change.bare : Change → Change
  | .queue i mq => .queue i mq.bare
  | .goto pc => .goto pc.bare
  | c => c

def Plan.bare (p : Plan) : Plan := { p with changes := p.changes.map Change.bare }

end Ipc

/-- The system without the bytes of the messages. -/
def Ipc.bare (s : Ipc) : Ipc :=
  { s with pc := fun t => (s.pc t).bare, queue := fun i => (s.queue i).bare }

namespace Ipc

variable {s : Ipc} {t : ℕ} {c : Call} {pc : Pc}

section

variable (s : Ipc)

theorem bare_idem : s.bare.bare = s.bare := by
  have hpc : ∀ pc : Pc, pc.bare.bare = pc.bare := by
    intro pc
    cases pc with
    | returned err out => cases out <;> rfl
    | mqFill i msg buffer urgent => simp only [Pc.bare, blank_blank]
    | _ => rfl
  simp only [bare, MessageQueue.bare, hpc]

theorem isReturned_bare (pc : Pc) : pc.bare.isReturned = pc.isReturned := by cases pc <;> rfl

theorem bare_goto (t : ℕ) (pc : Pc) : (s.goto t pc).bare = s.bare.goto t pc.bare := by
  simp only [bare]
  congr 1
  exact Function.comp_update Pc.bare s.pc t pc

theorem bare_setQueue (i : ℕ) (mq : MessageQueue) :
    (s.setQueue i mq).bare = s.bare.setQueue i mq.bare := by
  simp only [bare]
  congr 1
  exact Function.comp_update MessageQueue.bare s.queue i mq

theorem bare_under (sched : Option Sched) : (s.under sched).map bare = s.bare.under sched := by
  cases sched <;> rfl

theorem bare_wakeIfAny (w : Wait) : (s.wakeIfAny w).map bare = s.bare.wakeIfAny w := by
  unfold wakeIfAny
  change _ = if s.sched.waiting w ≠ [] then s.bare.under (s.sched.wake w) else some s.bare
  split
  · exact bare_under ..
  · rfl

theorem bare_handOver (i : ℕ) : (s.handOver i).map bare = s.bare.handOver i := by
  cases h : s.sched.waiting (.mutex i) with
  | nil =>
    rw [handOver, handOver, h, show s.bare.sched.waiting (.mutex i) = [] from h]
    rfl
  | cons u rest =>
    rw [handOver, handOver, h, show s.bare.sched.waiting (.mutex i) = u :: rest from h]
    exact bare_under ..

/-! ## Changes and deeds -/

theorem bare_make (t : ℕ) (s : Ipc) (c : Change) : (c.make t s).bare = c.bare.make t s.bare := by
  cases c with
  | queue i mq => exact bare_setQueue s i mq
  | goto pc => exact bare_goto s t pc
  | _ => rfl

theorem bare_deed (t : ℕ) (s : Ipc) (d : Deed) : (d.run t s).map bare = d.run t s.bare := by
  cases d with
  | wake w => exact bare_wakeIfAny s w
  | semRelease i =>
    simp only [Deed.run, rtSemRelease]
    change _ = if s.sched.waiting (.sem i) ≠ [] then _ else _
    split
    · exact bare_under ..
    · rfl
  | mutexWait i o time =>
    change ((s.under (s.sched.raise o t)).bind _).map bare =
      (s.bare.under (s.sched.raise o t)).bind _
    cases s.sched.raise o t with
    | none => rfl
    | some sched => exact bare_under ..
  | mutexPass i =>
    change ((s.under _).bind _).map bare =
      (s.bare.under (s.sched.restore t (s.mutex i).originalPriority)).bind _
    cases s.sched.restore t (s.mutex i).originalPriority with
    | none => rfl
    | some sched => exact bare_handOver ..
  | nothing => rfl
  | _ => exact bare_under ..

theorem bare_bind (t : ℕ) (p : Option Plan) :
    (p.bind (Plan.run s t)).map bare = (p.map Plan.bare).bind (Plan.run s.bare t) := by
  cases p with
  | none => rfl
  | some p =>
    refine (bare_deed t (p.made s t) p.deed).trans (congrArg (Deed.run t · p.deed) ?_)
    rw [Plan.made, Plan.made, Plan.bare, foldl_map]
    exact (foldl_hom bare fun r c => (bare_make t r c).symm).symm

/-! ## Steps -/

theorem bare_planMqSend (i : ℕ) (buffer : List ℕ) (urgent : Bool) :
    (s.planMqSend i buffer urgent).map Plan.bare =
      (s.bare.planMqSend i (blank buffer) urgent).map Plan.bare := by
  simp only [planMqSend, blank_eq_nil, length_blank]
  by_cases hnil : buffer = []
  · rw [if_pos hnil, if_pos hnil]
  rw [if_neg hnil, if_neg hnil]
  by_cases hsize : (s.queue i).msgSize < buffer.length
  · rw [if_pos hsize, if_pos (show (s.bare.queue i).msgSize < buffer.length from hsize)]
  rw [if_neg hsize, if_neg (show ¬ (s.bare.queue i).msgSize < buffer.length from hsize)]
  cases hfree : (s.queue i).free with
  | none =>
    rw [show (s.bare.queue i).free = none from hfree]
  | some msg =>
    rw [show (s.bare.queue i).free = some msg from hfree]
    simp only [Option.map_some, Plan.bare, map_cons, Change.bare, Pc.bare, blank_blank]
    rfl

theorem bare_planMqRecv (i size : ℕ) (timeout : ℤ) :
    (s.planMqRecv i size timeout).map Plan.bare =
      (s.bare.planMqRecv i size timeout).map Plan.bare := by
  unfold planMqRecv
  change _ = Option.map Plan.bare (if (s.queue i).entry = 0 then _ else
    Option.map _ (s.queue i).head)
  split
  · rfl
  · cases (s.queue i).head <;> rfl

end

theorem bare_plan : (s.plan t c).map Plan.bare = (s.bare.plan t c.bare).map Plan.bare := by
  cases c with
  | mqSend i buffer | mqUrgent i buffer => exact bare_planMqSend ..
  | mqRecv i size timeout =>
    change Option.map Plan.bare (if size = 0 then none else
      if (s.queue i).entry = 0 ∧ timeout = 0 then _ else _) = Option.map Plan.bare (if size = 0
        then none else if (s.queue i).entry = 0 ∧ timeout = 0 then _ else _)
    split
    · rfl
    split
    · rfl
    · exact bare_planMqRecv ..
  | _ => rfl

theorem bare_planNext :
    (s.planNext t pc).map Plan.bare = (s.bare.planNext t pc.bare).map Plan.bare := by
  cases pc with
  | mqRecv i size timeout start =>
    change Option.map Plan.bare (if (s.sched.thread t).error ≠ .eok then _ else _) =
      Option.map Plan.bare (if (s.sched.thread t).error ≠ .eok then _ else _)
    split
    · rfl
    · exact bare_planMqRecv ..
  | mqLink i msg urgent => cases urgent <;> rfl
  | _ => rfl

theorem bare_perform : (s.perform t c).map bare = (s.bare.perform t c.bare).map bare := by
  rw [perform_eq, perform_eq, bare_bind, bare_bind, bare_plan, bare_idem]

theorem bare_proceed : (s.proceed t pc).map bare = (s.bare.proceed t pc.bare).map bare := by
  rw [proceed_eq, proceed_eq, bare_bind, bare_bind, bare_planNext, bare_idem]

theorem map_bare_under (s : Ipc) (sched : Option Sched) :
    (s.under sched).map bare = (s.bare.under sched).map bare := by
  rw [bare_under, bare_under, bare_idem]

/-- No step looks at the bytes of a message. -/
theorem bare_step (s : Ipc) (e : Event) : (s.step e).map bare = (s.bare.step e.bare).map bare := by
  cases e with
  | call t c =>
    change _ = Option.map bare (if (s.sched.thread t).stat = .ready ∧ (s.pc t).bare.isReturned then
      s.bare.perform t c.bare else none)
    rw [isReturned_bare, step]
    split
    · exact bare_perform
    · rfl
  | resume t =>
    change _ = Option.map bare (if (s.sched.thread t).stat = .ready then
      s.bare.proceed t (s.pc t).bare else none)
    rw [step]
    split
    · exact bare_proceed
    · rfl
  | timeout t =>
    change _ = Option.map bare (if (s.sched.thread t).timerActive then
      s.bare.under (s.sched.rtThreadTimeout t) else none)
    rw [step]
    split
    · exact map_bare_under ..
    · rfl
  | tick => exact map_bare_under ..

end Ipc

end Easyio.Kernel
