import Easyio.Kernel.Notes
import Easyio.Kernel.Plans

/-!
# What a step does to the threads

One lemma for each deed of `Kernel.Plans` says what it does to the scheduler (`Stepped`), and
with it what the steps of the calls do: the lists stay in order, the view makes one of the
moves of `Move`, and either nothing changes for the scheduler or the step ends with
`rt_schedule`.

`rt_mutex_take` and `rt_mutex_release` also change priorities.  Their outcomes are
`MutexTaken` and `MutexReleased`.
-/

namespace Easyio.Kernel

open Ipc List Option Sched View

/-- What a step that does not concern mutexes does to the view, where `on` is the list in
which the caller may have to wait. -/
inductive Move (flag : Wait → Flag) (on : Option Wait) (v : View) : View → Prop
  | same : Move flag on v v
  | blocked (w : Wait) (t : ℕ) (hon : on = some w) (hw : ∀ i, w ≠ .mutex i)
      (ht : v.stat t = .ready) : Move flag on v (v.suspend w t (flag w))
  | woken (w : Wait) (t : ℕ) (rest : List ℕ) (hw : ∀ i, w ≠ .mutex i)
      (hlist : v.waiting w = t :: rest) : Move flag on v (v.resume t)
  | sent (i : ℕ) (ts : List ℕ) (hsub : ts.Sublist (v.waiting (.event i))) :
      Move flag on v (ts.foldl resume v)
  | parked (t : ℕ) (ht : v.stat t = .ready) : Move flag on v (v.park t)

namespace Sched

variable {s s' r : Sched} {t priority : ℕ} {flag : Wait → Flag} {on : Option Wait} {time : ℤ}
  {w : Wait}

/-- A change of what only the threads themselves read. -/
structure Still (s s' : Sched) : Prop where
  queued : Queued s'
  view : s'.view = s.view
  lock : s'.schedulerLockNest = s.schedulerLockNest
  current : s'.currentThread = s.currentThread

namespace Still

theorem refl (h : Queued s) : Still s s := ⟨h, rfl, rfl, rfl⟩

theorem trans (h₁ : Still s r) (h₂ : Still r s') : Still s s' :=
  ⟨h₂.queued, h₂.view.trans h₁.view, h₂.lock.trans h₁.lock, h₂.current.trans h₁.current⟩

theorem modify (h : Queued s) (t : ℕ) {f : Thread → Thread} (hf : KeepsFields f) :
    Still s (s.modify t f) :=
  ⟨h.modify_same t hf, s.view_modify t fun thread => ⟨(hf thread).1, (hf thread).2.1⟩, rfl, rfl⟩

theorem setError (h : Queued s) (t : ℕ) (err : Err) : Still s (s.setError t err) :=
  modify h t fun _ => ⟨rfl, rfl, rfl, rfl⟩

theorem ready (h : Still s r) (ht : (s.thread t).stat = .ready) : (r.thread t).stat = .ready :=
  (congrFun (congrArg stat h.view) t).trans ht

end Still

/-- The step ends with `rt_schedule`. -/
def Scheduled (s' : Sched) : Prop := ∃ r, Queued r ∧ r.rtSchedule = some s'

/-- Nothing changes that `rt_schedule` depends on, or it is called. -/
def Settles (s s' : Sched) : Prop :=
  s'.schedulerLockNest = s.schedulerLockNest ∧
    (s'.view = s.view ∧ s'.currentThread = s.currentThread ∨ Scheduled s')

/-- What a step that does not concern mutexes does to the threads. -/
structure Stepped (flag : Wait → Flag) (on : Option Wait) (s s' : Sched) : Prop where
  queued : Queued s'
  move : Move flag on s.view s'.view
  settles : Settles s s'

theorem Settles.of_rtSchedule (hr : Queued r) (hlock : r.schedulerLockNest = s.schedulerLockNest)
    (hs : r.rtSchedule = some s') : Settles s s' :=
  ⟨(effect_rtSchedule hs).kept.lock.trans hlock, .inr ⟨r, hr, hs⟩⟩

theorem block_scheduled (h : Queued s) (ht : (s.thread t).stat = .ready) {flag : Flag}
    (hs : s.block w flag t time = some s') : Scheduled s' := by
  obtain ⟨r, hr, hs⟩ := bind_eq_some_iff.mp hs
  exact ⟨r, (effect_startWait hr).queued ((effect_rtIpcListSuspend h ht w flag).queued h), hs⟩

theorem wake_scheduled (h : Queued s) {rest : List ℕ} (hw : s.waiting w = t :: rest)
    (hs : s.wake w = some s') : Scheduled s' := by
  rw [wake, rtIpcListResume, hw] at hs
  exact ⟨_, h.rtThreadResume t, hs⟩

theorem currentThread_restore (hs : s.restore t priority = some s') :
    s'.currentThread = s.currentThread := by
  unfold restore rtThreadControl at hs
  split at hs
  swap
  · rw [some.inj hs]
  obtain ⟨-, hs⟩ := ite_none_left_eq_some.mp hs
  split at hs
  · exact some.inj hs ▸ rfl
  · exact some.inj hs ▸ rfl

namespace Stepped

theorem of_still (h : Still s s') : Stepped flag on s s' :=
  ⟨h.queued, h.view ▸ .same, h.lock, .inl ⟨h.view, h.current⟩⟩

theorem after (h : Stepped flag on r s') (hstill : Still s r) : Stepped flag on s s' := by
  obtain ⟨hqueued, hmove, hlock, hsettles⟩ := h
  refine ⟨hqueued, hstill.view ▸ hmove, hlock.trans hstill.lock, ?_⟩
  rwa [hstill.view, hstill.current] at hsettles

variable {w : Wait}

variable (h : Queued s)
include h

theorem of_block (ht : (s.thread t).stat = .ready) (hw : ∀ i, w ≠ .mutex i)
    (hs : s.block w (flag w) t time = some s') : Stepped flag (some w) s s' := by
  obtain ⟨hqueued, hview, -, hkept⟩ := effect_block h ht hs
  exact ⟨hqueued h, hview ▸ .blocked w t rfl hw ht, hkept.lock, .inr (block_scheduled h ht hs)⟩

theorem of_wake (hw : ∀ i, w ≠ .mutex i) (hne : s.waiting w ≠ [])
    (hs : s.wake w = some s') : Stepped flag on s s' := by
  obtain ⟨t, rest, hlist⟩ := exists_cons_of_ne_nil hne
  obtain ⟨hqueued, hview, -, hkept⟩ := effect_wake h hlist hs
  exact ⟨hqueued h, hview ▸ .woken w t rest hw hlist, hkept.lock, .inr (wake_scheduled h hlist hs)⟩

theorem of_rtThreadSleep (ht : (s.thread t).stat = .ready) {tick : ℕ}
    (hs : s.rtThreadSleep t tick = some s') : Stepped flag on s s' := by
  obtain ⟨hqueued, hview, -, hkept⟩ := effect_rtThreadSleep h ht hs
  obtain ⟨r, hr, hs⟩ := bind_eq_some_iff.mp hs
  exact ⟨hqueued h, hview ▸ .parked t ht, hkept.lock,
    .inr ⟨r, (h.rtThreadSuspend t).startTimer hr, hs⟩⟩

theorem of_rtThreadYield (hs : s.rtThreadYield t = some s') : Stepped flag on s s' := by
  have heffect := effect_rtThreadYield h hs
  refine ⟨heffect.queued h, heffect.view ▸ .same, ?_⟩
  unfold rtThreadYield at hs
  split at hs
  · rename_i hcond
    exact .of_rtSchedule (h.movedToEnd hcond.1) rfl hs
  · rw [some.inj hs]
    exact ⟨rfl, .inl ⟨rfl, rfl⟩⟩

theorem of_rtTickIncrease (hs : s.rtTickIncrease t = some s') : Stepped flag on s s' := by
  have hticked : Still s s.countTick := ⟨h.countTick, rfl, rfl, rfl⟩
  unfold rtTickIncrease at hs
  split at hs
  · have hrefilled := hticked.trans (.modify hticked.queued t
      (f := fun thread => { thread with remainingTick := thread.initTick })
      fun _ => ⟨rfl, rfl, rfl, rfl⟩)
    exact (of_rtThreadYield hrefilled.queued hs).after hrefilled
  · refine some.inj hs ▸ .of_still (hticked.trans (.modify hticked.queued t ?_))
    exact fun _ => ⟨rfl, rfl, rfl, rfl⟩

end Stepped

end Sched

/-! ## The calls -/

namespace Ipc

variable {s s' r : Ipc} {t i : ℕ} {time timeout : ℤ} {on : Option Wait} {e : Event} {c : Call}

/-- What a step that does not concern mutexes does. -/
structure Plain (on : Option Wait) (s s' : Ipc) : Prop where
  mutex : s'.mutex = s.mutex
  flag : s'.flag = s.flag
  stepped : s.sched.Stepped s.flag on s'.sched

/-- A step that changes only objects other than mutexes, and what only the threads
themselves read. -/
structure Quiet (s s' : Ipc) : Prop extends Still s.sched s'.sched where
  mutex : s'.mutex = s.mutex
  flag : s'.flag = s.flag

namespace Quiet

theorem refl (h : s.sched.Queued) : Quiet s s := ⟨.refl h, rfl, rfl⟩

theorem trans (h₁ : Quiet s r) (h₂ : Quiet r s') : Quiet s s' :=
  ⟨h₁.toStill.trans h₂.toStill, h₂.mutex.trans h₁.mutex, h₂.flag.trans h₁.flag⟩

theorem setError (h : s.sched.Queued) (t : ℕ) (err : Err) : Quiet s (s.setError t err) :=
  ⟨.setError h t err, rfl, rfl⟩

theorem wantEvents (h : s.sched.Queued) (t : ℕ) (set : BitVec 32) (option : BitVec 8) :
    Quiet s (s.wantEvents t set option) := by
  have hstill : s.sched.Still
      (s.sched.modify t ({ · with eventSet := set, eventInfo := option })) :=
    .modify h t fun _ => ⟨rfl, rfl, rfl, rfl⟩
  exact ⟨hstill, rfl, rfl⟩

end Quiet

theorem still_make (h : s.sched.Queued) (c : Change) : s.sched.Still (c.make t s).sched := by
  cases c with
  | error err => exact .setError h t err
  | wants set option => exact (Quiet.wantEvents h t set option).toStill
  | _ => exact .refl h

theorem still_made (h : s.sched.Queued) (p : Plan) : s.sched.Still (p.made s t).sched := by
  refine foldlRecOn p.changes (Change.make t) (motive := fun r => s.sched.Still r.sched)
    (.refl h) ?_
  intro r hr c _
  exact hr.trans (still_make hr.queued c)

namespace Quiet

variable {o : Option Obj}

theorem make (h : s.sched.Queued) {c : Change} (hc : c.Fits s.flag o)
    (ho : ∀ i, o ≠ some (.mutex i)) : Quiet s (c.make t s) := by
  refine ⟨still_make h c, ?_, flag_make hc⟩
  cases c with
  | mutex i m => exact absurd hc.1 (ho i)
  | _ => rfl

theorem made (h : s.sched.Queued) {p : Plan} (hp : p.Fits s.flag o on)
    (ho : ∀ i, o ≠ some (.mutex i)) : Quiet s (p.made s t) := by
  refine foldlRecOn p.changes (Change.make t) (motive := Quiet s) (refl h) ?_
  intro r hr c hc
  exact hr.trans (make hr.queued (hr.flag.symm ▸ hp.changes c hc) ho)

end Quiet

namespace Plain

theorem of_quiet (h : Quiet s s') : Plain on s s' := ⟨h.mutex, h.flag, .of_still h.toStill⟩

theorem after (h : Plain on r s') (hquiet : Quiet s r) : Plain on s s' :=
  ⟨h.mutex.trans hquiet.mutex, h.flag.trans hquiet.flag,
    (hquiet.flag ▸ h.stepped).after hquiet.toStill⟩

theorem of_under {sched : Option Sched} (hs : s.under sched = some s')
    (hsched : ∀ r, sched = some r → s.sched.Stepped s.flag on r) : Plain on s s' := by
  obtain ⟨hr, hs'⟩ := under_eq hs
  exact ⟨by rw [hs'], flag_under hs rfl, hsched _ hr⟩

theorem of_wake (h : s.sched.Queued) {w : Wait} (hw : ∀ i, w ≠ .mutex i)
    (hne : s.sched.waiting w ≠ []) (hs : s.under (s.sched.wake w) = some s') : Plain on s s' :=
  of_under hs fun _ hr => .of_wake h hw hne hr

theorem of_eventSend (h : s.sched.Queued) {set : BitVec 32}
    (hs : s.sendEnd i (sendLoop (s.sched.waiting (.event i))
      (s.sched, (s.event i).set ||| set, false)) = some s') : Plain on s s' := by
  set got := served s.sched.note (s.sched.waiting (.event i)) ((s.event i).set ||| set)
  have hsent := sent_waiting h (.event i) ((s.event i).set ||| set) false
  obtain ⟨hlock, -, hcurrent⟩ := hsent.still
  have hmove : Move s.flag on s.sched.view ((got.map Prod.fst).foldl resume s.sched.view) :=
    .sent i _ (served_sublist ..)
  obtain ⟨hsched, hs'⟩ := under_eq hs
  refine ⟨by rw [hs']; rfl, flag_run (d := .eventSend i set) (t := 0) hs, ?_⟩
  split at hsched
  · refine ⟨hsent.queued.rtSchedule hsched, ?_, .of_rtSchedule hsent.queued hlock hsched⟩
    rwa [(effect_rtSchedule hsched).view, hsent.view]
  · rename_i hneed
    have hnone : got = [] := by
      rwa [hsent.need, Bool.false_or, Bool.not_eq_true', Bool.not_eq_false,
        List.isEmpty_iff] at hneed
    have hview := hsent.view
    rw [show served .. = [] from hnone] at hview
    rw [← some.inj hsched]
    exact ⟨hsent.queued, by rw [hview]; exact .same, hlock, .inl ⟨hview, hcurrent⟩⟩

variable {o : Option Obj}

theorem of_deed (h : s.sched.Queued) (ht : (s.sched.thread t).stat = .ready) {d : Deed}
    (hd : d.Fits s.flag o on) (ho : ∀ i, o ≠ some (.mutex i)) (hs : d.run t s = some s') :
    Plain on s s' := by
  cases d with
  | nothing => exact some.inj hs ▸ .of_quiet (.refl h)
  | block w flag time =>
    obtain ⟨-, rfl, rfl, hw⟩ := hd
    exact of_under hs fun _ hr => .of_block h ht hw hr
  | wake w =>
    simp only [Deed.run, wakeIfAny] at hs
    split at hs
    · rename_i hne
      exact of_wake h hd.2 hne hs
    · exact some.inj hs ▸ .of_quiet (.refl h)
  | semRelease i =>
    simp only [Deed.run, rtSemRelease] at hs
    split at hs
    · rename_i hne
      exact of_wake h (fun _ => Wait.noConfusion) hne hs
    · exact some.inj hs ▸ .of_quiet (.make (c := .sem i _) (t := t) h hd ho)
  | mutexWait i _ time | mutexPass i => exact absurd hd (ho i)
  | eventSend i set => exact of_eventSend h hs
  | sleep tick => exact of_under hs fun _ hr => .of_rtThreadSleep h ht hr
  | yield => exact of_under hs fun _ hr => .of_rtThreadYield h hr

theorem of_plan (h : s.sched.Queued) (ht : (s.sched.thread t).stat = .ready) {p : Plan}
    (hp : p.Fits s.flag o on) (ho : ∀ i, o ≠ some (.mutex i)) (hs : p.run s t = some s') :
    Plain on s s' := by
  have hquiet : Quiet s (p.made s t) := .made h hp ho
  exact (of_deed hquiet.queued (hquiet.toStill.ready ht) (hquiet.flag.symm ▸ hp.deed) ho hs).after
    hquiet

end Plain

/-! ### Mutexes -/

/-- The outcomes of the first step of `rt_mutex_take`. -/
inductive MutexTaken (s : Ipc) (t i : ℕ) (time : ℤ) (s' : Ipc) : Prop
  /-- the owner takes the mutex again -/
  | nested (howner : (s.mutex i).owner = some t) (hstill : s.sched.Still s'.sched)
      (hmutex : s'.mutex = Function.update s.mutex i
        { s.mutex i with hold := ((s.mutex i).hold + 1) % 2 ^ 8 })
  /-- the mutex was free -/
  | acquired (howner : (s.mutex i).owner ≠ some t) (hvalue : 0 < (s.mutex i).value)
      (hstill : s.sched.Still s'.sched)
      (hmutex : s'.mutex = Function.update s.mutex i
        ({ s.mutex i with value := (s.mutex i).value - 1 }.acquire t (s.sched.view.priority t)))
  /-- the caller does not want to wait -/
  | refused (howner : (s.mutex i).owner ≠ some t) (hvalue : (s.mutex i).value = 0)
      (htime : time = 0) (hstill : s.sched.Still s'.sched) (hmutex : s'.mutex = s.mutex)
  /-- the caller waits for the owner `o` -/
  | waited (o : ℕ) (howner : (s.mutex i).owner = some o) (hne : o ≠ t)
      (hvalue : (s.mutex i).value = 0) (htime : time ≠ 0) (hqueued : s'.sched.Queued)
      (hview : s'.sched.view = (s.sched.view.raise o t).suspend (.mutex i) t (s.mutex i).flag)
      (hlock : s'.sched.schedulerLockNest = s.sched.schedulerLockNest)
      (hscheduled : s'.sched.Scheduled) (hmutex : s'.mutex = s.mutex)

/-- The outcomes of `rt_mutex_release`. -/
inductive MutexReleased (s : Ipc) (t i : ℕ) (s' : Ipc) : Prop
  /-- the caller is not the owner -/
  | denied (howner : (s.mutex i).owner ≠ some t) (hstill : s.sched.Still s'.sched)
      (hmutex : s'.mutex = s.mutex)
  /-- the caller keeps the mutex -/
  | nested (howner : (s.mutex i).owner = some t)
      (hhold : ((s.mutex i).hold + (2 ^ 8 - 1)) % 2 ^ 8 ≠ 0) (hsched : s'.sched = s.sched)
      (hmutex : s'.mutex = Function.update s.mutex i
        { s.mutex i with hold := ((s.mutex i).hold + (2 ^ 8 - 1)) % 2 ^ 8 })
  /-- nobody waits, and the mutex is free -/
  | freed (howner : (s.mutex i).owner = some t)
      (hhold : ((s.mutex i).hold + (2 ^ 8 - 1)) % 2 ^ 8 = 0)
      (hempty : s.sched.waiting (.mutex i) = []) (hqueued : s'.sched.Queued)
      (hview : s'.sched.view = s.sched.view.setPriority t (s.mutex i).originalPriority)
      (hlock : s'.sched.schedulerLockNest = s.sched.schedulerLockNest)
      (hcurrent : s'.sched.currentThread = s.sched.currentThread)
      (hmutex : s'.mutex = Function.update s.mutex i (s.mutex i).giveUp)
  /-- the first thread `u` that waits becomes the owner -/
  | handed (u : ℕ) (rest : List ℕ) (howner : (s.mutex i).owner = some t)
      (hhold : ((s.mutex i).hold + (2 ^ 8 - 1)) % 2 ^ 8 = 0)
      (hlist : s.sched.waiting (.mutex i) = u :: rest) (hqueued : s'.sched.Queued)
      (hview : s'.sched.view = (s.sched.view.setPriority t (s.mutex i).originalPriority).resume u)
      (hlock : s'.sched.schedulerLockNest = s.sched.schedulerLockNest)
      (hscheduled : s'.sched.Scheduled)
      (hmutex : s'.mutex = Function.update s.mutex i ({ s.mutex i with hold := 0 }.acquire u
        ((s.sched.view.setPriority t (s.mutex i).originalPriority).priority u)))

theorem mutexTaken (h : s.sched.Queued) (ht : (s.sched.thread t).stat = .ready)
    (hs : s.rtMutexTake t i time = some s') : MutexTaken s t i time s' := by
  have hok : s.sched.Still (s.setError t .eok).sched := .setError h t .eok
  have hpriority : ((s.setError t .eok).sched.thread t).currentPriority = s.sched.view.priority t :=
    congrFun (congrArg priority hok.view) t
  unfold rtMutexTake mutexTake at hs
  split at hs
  · rename_i howner
    exact some.inj hs ▸ .nested howner hok rfl
  rename_i howner
  split at hs
  · rename_i hvalue
    rw [hpriority] at hs
    exact some.inj hs ▸ .acquired howner hvalue hok rfl
  rename_i hvalue
  have hzero : (s.mutex i).value = 0 := Nat.eq_zero_of_not_pos hvalue
  split at hs
  · rename_i htime
    exact some.inj hs ▸ .refused howner hzero htime (hok.trans (.setError hok.queued t _)) rfl
  · rename_i htime
    obtain ⟨o, ho, hs⟩ := bind_eq_some_iff.mp hs
    obtain ⟨r, hr, hs⟩ := bind_eq_some_iff.mp hs
    obtain ⟨hraise, hr'⟩ := under_eq hr
    obtain ⟨hblock, hs'⟩ := under_eq hs
    have hne : o ≠ t := fun he => howner (he ▸ ho)
    obtain ⟨hqueued, hview, -, hkept⟩ := effect_raise hok.queued hraise
    rw [hok.view] at hview
    have hready : (r.sched.thread t).stat = .ready := by
      refine (congrFun (congrArg stat hview) t).trans ?_
      rw [View.raise]
      split <;> exact ht
    have hqueued := hqueued hok.queued
    obtain ⟨hqueued', hview', -, hkept'⟩ := effect_block hqueued hready hblock
    have hscheduled := block_scheduled hqueued hready hblock
    have hmutex : r.mutex = s.mutex := by rw [hr']; rfl
    refine .waited o ho hne hzero htime (hqueued' hqueued) ?_ ?_ hscheduled
      (by rw [hs']; exact hmutex)
    · rw [hview', hview, hmutex]
    · exact hkept'.lock.trans (hkept.lock.trans hok.lock)

theorem mutexReleased (h : s.sched.Queued) (hs : s.rtMutexRelease t i = some s') :
    MutexReleased s t i s' := by
  unfold rtMutexRelease at hs
  split at hs
  · rename_i howner
    exact some.inj hs ▸ .denied howner (.setError h t .error) rfl
  rename_i howner
  have howner := not_not.mp howner
  split at hs
  swap
  · rename_i hhold
    exact some.inj hs ▸ .nested howner hhold rfl rfl
  rename_i hhold
  obtain ⟨r', hr', rfl⟩ := map_eq_some_iff.mp hs
  obtain ⟨r, hr, hhand⟩ := bind_eq_some_iff.mp hr'
  obtain ⟨hrestore, hr⟩ := under_eq hr
  obtain ⟨hqueued, hview, -, hkept⟩ := effect_restore h hrestore
  have hqueued := hqueued h
  have hwaiting : r.sched.waiting = s.sched.waiting := congrArg View.waiting hview
  have hmutex : r.mutex = s.mutex := by rw [hr]
  unfold handOver at hhand
  split at hhand
  · rename_i hempty
    rw [← some.inj hhand]
    refine .freed howner hhold (hwaiting ▸ hempty) hqueued hview hkept.lock
      (currentThread_restore hrestore) ?_
    change Function.update r.mutex i _ = _
    rw [hmutex]
  · rename_i u rest hlist
    obtain ⟨hwake, hr'⟩ := under_eq hhand
    obtain ⟨hqueued', hview', -, hkept'⟩ := effect_wake hqueued hlist hwake
    refine .handed u rest howner hhold (hwaiting ▸ hlist) (hqueued' hqueued) ?_
      (hkept'.lock.trans hkept.lock) (wake_scheduled hqueued hlist hwake) ?_
    · exact hview'.trans (congrArg (resume · u) hview)
    · rw [hr']
      change Function.update r.mutex i _ = _
      rw [hmutex]
      rw [← hview]
      rfl

/-- The timer of a suspended thread runs out. -/
structure TimedOut (s : Ipc) (t : ℕ) (s' : Ipc) : Prop where
  suspended : (s.sched.thread t).stat = .suspend
  queued : s'.sched.Queued
  view : s'.sched.view = s.sched.view.resume t
  lock : s'.sched.schedulerLockNest = s.sched.schedulerLockNest
  scheduled : s'.sched.Scheduled
  objects : s' = { s with sched := s'.sched }

theorem timedOut (h : s.sched.Queued) (hs : s.under (s.sched.rtThreadTimeout t) = some s') :
    TimedOut s t s' := by
  obtain ⟨hsched, hs'⟩ := under_eq hs
  obtain ⟨hqueued, hview, -, hkept⟩ := effect_rtThreadTimeout hsched
  obtain ⟨hsuspend, hsched⟩ := ite_none_right_eq_some.mp hsched
  refine ⟨hsuspend, hqueued h, hview, hkept.lock, ⟨_, h.readied hsuspend ?_, hsched⟩, hs'⟩
  exact fun _ => ⟨rfl, rfl, rfl⟩

/-- The list in which the thread that makes a step may have to wait. -/
def waits (s : Ipc) : Event → Option Wait
  | .call _ c => c.waits
  | .resume t => (s.pc t).waits
  | .timeout _ | .tick => none

theorem Plain.of_proceed (h : s.sched.Queued) (ht : (s.sched.thread t).stat = .ready) {pc : Pc}
    (hs : s.proceed t pc = some s') : Plain pc.waits s s' := by
  by_cases hpc : ∃ i, pc.obj = some (.mutex i)
  · -- a thread that waited for a mutex has been given it or has timed out
    obtain ⟨i, hi⟩ := hpc
    cases pc with
    | mutexTake i => exact some.inj hs ▸ of_quiet ⟨.refl h, rfl, rfl⟩
    | _ => simp [Pc.obj] at hi
  · obtain ⟨p, hp, hs⟩ := proceed_cases hs
    exact of_plan h ht hp (fun i hi => hpc ⟨i, hi⟩) hs

theorem step_cases (h : s.sched.Queued) (hs : s.step e = some s') :
    Plain (s.waits e) s s' ∨ (∃ t, e = .timeout t ∧ TimedOut s t s') ∨
      (∃ t i time, e = .call t (.mutexTake i time) ∧ (s.sched.thread t).stat = .ready ∧
        MutexTaken s t i time s') ∨
      ∃ t i, e = .call t (.mutexRelease i) ∧ (s.sched.thread t).stat = .ready ∧
        MutexReleased s t i s' := by
  cases e with
  | call t c =>
    obtain ⟨hcond, hs⟩ := ite_none_right_eq_some.mp hs
    by_cases htake : ∃ i time, c = .mutexTake i time
    · obtain ⟨i, time, rfl⟩ := htake
      exact .inr (.inr (.inl ⟨t, i, time, rfl, hcond.1, mutexTaken h hcond.1 hs⟩))
    by_cases hrelease : ∃ i, c = .mutexRelease i
    · obtain ⟨i, rfl⟩ := hrelease
      exact .inr (.inr (.inr ⟨t, i, rfl, hcond.1, mutexReleased h hs⟩))
    · obtain ⟨p, hp, hs⟩ := perform_cases hs
      refine .inl (.of_plan h hcond.1 hp (fun i hi => ?_) hs)
      cases c with
      | mutexTake j time => exact htake ⟨j, time, rfl⟩
      | mutexRelease j => exact hrelease ⟨j, rfl⟩
      | _ => simp [Call.obj] at hi
  | resume t =>
    obtain ⟨ht, hs⟩ := ite_none_right_eq_some.mp hs
    exact .inl (.of_proceed h ht hs)
  | timeout t =>
    exact .inr (.inl ⟨t, rfl, timedOut h (ite_none_right_eq_some.mp hs).2⟩)
  | tick =>
    obtain ⟨hsched, hs'⟩ := under_eq hs
    obtain ⟨t, -, hsched⟩ := bind_eq_some_iff.mp hsched
    exact .inl ⟨by rw [hs'], by rw [hs']; rfl, .of_rtTickIncrease h hsched⟩

theorem queued_step (h : s.sched.Queued) (hs : s.step e = some s') : s'.sched.Queued := by
  rcases step_cases h hs with hplain | ⟨t, -, htimeout⟩ | ⟨t, i, time, -, -, htaken⟩ |
    ⟨t, i, -, -, hreleased⟩
  · exact hplain.stepped.queued
  · exact htimeout.queued
  · cases htaken with
    | nested _ hstill _ | acquired _ _ hstill _ | refused _ _ _ hstill _ => exact hstill.queued
    | waited _ _ _ _ _ hqueued _ _ _ _ => exact hqueued
  · cases hreleased with
    | denied _ hstill _ => exact hstill.queued
    | nested _ _ hsched _ => exact hsched ▸ h
    | freed _ _ _ hqueued _ _ _ _ | handed _ _ _ _ _ hqueued _ _ _ _ => exact hqueued

theorem step_of_kernelStep (hs : kernelStep s e = some s') : s.step e = some s' := by
  obtain ⟨-, hs⟩ := ite_none_right_eq_some.mp hs
  exact hs

theorem perform_of_step (hs : s.step (.call t c) = some s') : s.perform t c = some s' := by
  obtain ⟨-, hs⟩ := ite_none_right_eq_some.mp hs
  exact hs

/-! ## The flags -/

theorem flag_perform (hs : s.perform t c = some s') : s'.flag = s.flag := by
  obtain ⟨p, hp, hs⟩ := perform_cases hs
  exact flag_plan hp hs

theorem flag_step (h : s.sched.Queued) (hs : s.step e = some s') : s'.flag = s.flag := by
  rcases step_cases h hs with hplain | ⟨t, -, htimeout⟩ | ⟨t, i, time, rfl, -, -⟩ |
    ⟨t, i, rfl, -, -⟩
  · exact hplain.flag
  · rw [htimeout.objects]
    rfl
  · exact flag_perform (perform_of_step hs)
  · exact flag_perform (perform_of_step hs)

/-! ## A start -/

variable (threads : List (ℕ × ℕ))

/-- The events that start threads, given with their priorities. -/
def starting : List ThreadEvent :=
  threads.flatMap (fun (t, priority) => [.init t priority 10, .startup t]) ++ [.systemStart]

/-- Threads that have just been started. -/
def started : Sched :=
  (Runs.Partial.run threadStep boot (starting threads)).getD boot

theorem queued_started : (started threads).Queued := by
  have hguard : ∀ s, ∀ e ∈ starting threads, ThreadGuard s e := by
    intro s e he
    rcases mem_append.mp he with he | he
    · obtain ⟨⟨t, priority⟩, -, he⟩ := mem_flatMap.mp he
      rcases mem_cons.mp he with rfl | he
      · trivial
      · rw [mem_singleton.mp he]
        trivial
    · rw [mem_singleton.mp he]
      trivial
  unfold started
  cases hrun : Runs.Partial.run threadStep boot (starting threads) with
  | none => exact queued_boot
  | some s =>
    exact (Runs.Partial.meets_of_forall hguard).invariant
      (fun _ _ _ h hguard => h.threadStep hguard) hrun queued_boot

/-- Objects that have just been set up. -/
def fresh (sched : Sched) : Ipc where
  sched := sched
  pc _ := .returned .eok .none
  sem _ := { value := 0, flag := .fifo }
  mutex _ := { value := 1, originalPriority := 0xff, hold := 0, owner := none, flag := .fifo }
  event _ := { set := 0#32, flag := .fifo }
  mailbox _ :=
    { msgPool := fun _ => 0, size := 1, entry := 0, inOffset := 0, outOffset := 0, flag := .fifo }
  queue _ :=
    { msgSize := 4, entry := 0, head := none, tail := none, free := some 0, next := fun _ => none,
      data := fun _ => [0, 0, 0, 0], flag := .fifo }

theorem queued_fresh : (fresh (started threads)).sched.Queued :=
  queued_started threads

end Ipc

end Easyio.Kernel
