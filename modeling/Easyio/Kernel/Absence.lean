import Easyio.Kernel.Frames

/-!
# The threads without one that waits

Two states of the threads that differ in one thread `t`: in the first one it may wait for
something, in the second one it runs.  Everything else that the objects see is the same, only
that `t` is missing in the lists of the second state (`Absent`).  What the scheduler does for
another thread in the first state it can also do in the second, with the same result, unless it
resumes `t`.
-/

namespace Easyio.Kernel

open Function Ipc List Option View

namespace Sched

variable {s s' r : Sched} {t u tick : ℕ} {w : Wait} {flag : Flag} {time : ℤ}

/-! ## What can happen while a thread is ready -/

section

variable (h : Queued s) (ht : (s.note t).stat = .ready)
include h ht

theorem exists_rtSchedule : ∃ s', s.rtSchedule = some s' := by
  unfold rtSchedule
  split
  · have hin : t ∈ s.table (s.thread t).currentPriority := (h.ready t _).mpr ⟨ht, rfl⟩
    obtain ⟨u, hu⟩ := exists_toThread h.group (h.priority t).1 (ne_nil_of_mem hin)
    exact ⟨_, by rw [hu]; rfl⟩
  · exact ⟨s, rfl⟩

theorem exists_rtThreadYield (u : ℕ) : ∃ s', s.rtThreadYield u = some s' := by
  unfold rtThreadYield
  split
  · rename_i hcond
    exact exists_rtSchedule (h.movedToEnd hcond.1) ht
  · exact ⟨s, rfl⟩

theorem exists_rtTickIncrease (u : ℕ) : ∃ s', s.rtTickIncrease u = some s' := by
  unfold rtTickIncrease
  split
  · have hcounted := effect_countTick s u (·.initTick)
    refine exists_rtThreadYield (hcounted.queued h.countTick) (t := t) ?_ u
    rw [hcounted.note, ht]
  · exact ⟨_, rfl⟩

end

theorem exists_startTimer (hs : s.startTimer u tick = some s')
    (htimer : (r.note u).timer = (s.note u).timer) : ∃ r', r.startTimer u tick = some r' := by
  unfold startTimer at hs ⊢
  change (r.thread u).timerActive = (s.thread u).timerActive at htimer
  rw [htimer]
  split at hs
  · exact ⟨r, if_pos ‹_›⟩
  split at hs
  · cases hs
  · exact ⟨_, (if_neg ‹_›).trans (if_neg ‹_›)⟩

theorem exists_startWait (hs : s.startWait u time = some s')
    (htimer : (r.note u).timer = (s.note u).timer) : ∃ r', r.startWait u time = some r' := by
  unfold startWait at hs ⊢
  split at hs
  · rename_i htime
    rw [if_pos htime]
    exact exists_startTimer hs htimer
  · rename_i htime
    rw [if_neg htime]
    exact ⟨r, rfl⟩

/-! ## Two states that differ in one thread -/

/-- The thread `t` waits in the state `a`, or it is ready, and in the state `b` it is ready.
Apart from that the objects see the same. -/
structure Absent (t : ℕ) (a b : Sched) : Prop where
  left : Queued a
  right : Queued b
  ready : (b.note t).stat = .ready
  lock : b.schedulerLockNest = a.schedulerLockNest
  tick : b.tick = a.tick
  running : b.currentThread ≠ none
  priority : b.view.priority = a.view.priority
  waiting : ∀ w, b.waiting w = (a.waiting w).erase t
  note : ∀ u, u ≠ t → b.note u = a.note u

namespace Absent

variable {a a' b b' : Sched} {priority : ℕ}

section

variable (h : Absent t a b)
include h

theorem of_effects {va vb : View} {na nb : ℕ → Note} (ha : Effect a a' va na)
    (hb : Effect b b' vb nb) (hpriority : vb.priority = va.priority)
    (hwaiting : ∀ w, vb.waiting w = (va.waiting w).erase t) (hready : (nb t).stat = .ready)
    (hnote : ∀ u, u ≠ t → nb u = na u) : Absent t a' b' where
  left := ha.queued h.left
  right := hb.queued h.right
  ready := by rw [hb.note, hready]
  lock := by rw [hb.kept.lock, ha.kept.lock, h.lock]
  tick := by rw [hb.kept.tick, ha.kept.tick, h.tick]
  running := hb.kept.running h.running
  priority := by rw [hb.view, ha.view, hpriority]
  waiting w := by
    change b'.view.waiting w = (a'.view.waiting w).erase t
    rw [hb.view, ha.view, hwaiting]
  note u hu := by rw [hb.note, ha.note, hnote u hu]

theorem stat (hu : u ≠ t) : (b.thread u).stat = (a.thread u).stat :=
  congrArg Note.stat (h.note u hu)

theorem note_update {n n' : Note} (hn : n' = n) (v : ℕ) (hv : v ≠ t) :
    update b.note u n' v = update a.note u n v := by
  rw [hn]
  by_cases hvu : v = u
  · rw [hvu, update_self, update_self]
  · rw [update_of_ne hvu, update_of_ne hvu, h.note v hv]

theorem ready_update (hu : u ≠ t) (n : Note) : (update b.note u n t).stat = .ready := by
  rw [update_of_ne hu.symm, h.ready]

theorem modify (hu : u ≠ t) {f : Thread → Thread} {g : Note → Note} (hf : KeepsFields f)
    (hg : ∀ thread, (f thread).note = g thread.note) : Absent t (a.modify u f) (b.modify u f) := by
  refine h.of_effects (.of_modify a u hf) (.of_modify b u hf) h.priority h.waiting
    (h.ready_update hu _) (h.note_update ?_)
  rw [hg, hg]
  exact congrArg g (h.note u hu)

theorem setError (hu : u ≠ t) (err : Err) : Absent t (a.setError u err) (b.setError u err) :=
  h.modify hu (g := ({ · with error := err })) (fun _ => ⟨rfl, rfl, rfl, rfl⟩) fun _ => rfl

theorem block (hu : u ≠ t) (hready : (a.thread u).stat = .ready)
    (hplace : (place a.view.priority u (a.waiting w) flag).erase t =
      place a.view.priority u ((a.waiting w).erase t) flag) (hs : a.block w flag u time = some a') :
    ∃ b', b.block w flag u time = some b' ∧ Absent t a' b' := by
  have hready' : (b.thread u).stat = .ready := (h.stat hu).trans hready
  have hsuspended := effect_rtIpcListSuspend h.left hready w flag
  have hsuspended' := effect_rtIpcListSuspend h.right hready' w flag
  -- the timer can be started, and `rt_schedule` finds a thread
  obtain ⟨r, hr⟩ : ∃ r, (b.rtIpcListSuspend w u flag).startWait u time = some r := by
    obtain ⟨r, hr, -⟩ := bind_eq_some_iff.mp hs
    refine exists_startWait hr ?_
    rw [hsuspended.note, hsuspended'.note, update_self, update_self, h.note u hu]
  obtain ⟨b', hb'⟩ : ∃ b', r.rtSchedule = some b' := by
    refine exists_rtSchedule ((hsuspended'.trans (effect_startWait hr)).queued h.right) (t := t) ?_
    rw [(effect_startWait hr).note, hsuspended'.note, update_of_ne hu.symm,
      update_of_ne hu.symm, h.ready]
  have hb : b.block w flag u time = some b' := by rw [Sched.block, hr, bind_some, hb']
  refine ⟨b', hb, h.of_effects (effect_block h.left hready hs) (effect_block h.right hready' hb)
    h.priority (fun v => ?_) (h.ready_update hu _) (h.note_update (by rw [h.note u hu]))⟩
  change update b.waiting w (place b.view.priority u (b.waiting w) flag) v =
    (update a.waiting w (place a.view.priority u (a.waiting w) flag) v).erase t
  by_cases hv : v = w
  · rw [hv, update_self, update_self, h.priority, h.waiting, hplace]
  · rw [update_of_ne hv, update_of_ne hv, h.waiting]

theorem resume_waiting (u : ℕ) (w : Wait) :
    (b.view.resume u).waiting w = ((a.view.resume u).waiting w).erase t := by
  change (b.waiting w).erase u = ((a.waiting w).erase u).erase t
  rw [h.waiting, erase_comm]

theorem wake {rest : List ℕ} (hw : a.waiting w = u :: rest) (hu : u ≠ t)
    (hs : a.wake w = some a') : ∃ b', b.wake w = some b' ∧ Absent t a' b' := by
  have hw' : b.waiting w = u :: rest.erase t := by
    rw [h.waiting, hw, erase_cons_tail (by simpa using hu)]
  have hsuspend : (b.thread u).stat = .suspend := h.right.waiting u w (hw' ▸ mem_cons_self ..)
  obtain ⟨b', hb'⟩ : ∃ b', (b.rtThreadResume u).2.rtSchedule = some b' := by
    refine exists_rtSchedule (h.right.rtThreadResume u) (t := t) ?_
    rw [(effect_rtThreadResume hsuspend).note, h.ready_update hu]
  have hb : b.wake w = some b' := by rw [Sched.wake, rtIpcListResume, hw', hb']
  exact ⟨b', hb, h.of_effects (effect_wake h.left hw hs) (effect_wake h.right hw' hb) h.priority
    (h.resume_waiting u) (h.ready_update hu _) (h.note_update (by rw [h.note u hu]))⟩

theorem rtThreadControl (hs : a.rtThreadControl u priority = some a') :
    ∃ b', b.rtThreadControl u priority = some b' ∧ Absent t a' b' := by
  have hsmall : ¬ rtThreadPriorityMax ≤ priority := fun hlarge => by
    rw [Sched.rtThreadControl, if_pos hlarge] at hs
    cases hs
  obtain ⟨b', hb⟩ : ∃ b', b.rtThreadControl u priority = some b' := by
    unfold Sched.rtThreadControl
    rw [if_neg hsmall]
    split <;> exact ⟨_, rfl⟩
  refine ⟨b', hb, h.of_effects (effect_rtThreadControl h.left hs)
    (effect_rtThreadControl h.right hb) ?_ h.waiting h.ready h.note⟩
  exact congrArg (update · u priority) h.priority

theorem rtThreadControl_if {p : Prop} [Decidable p]
    (hs : (if p then a.rtThreadControl u priority else some a) = some a') :
    ∃ b', (if p then b.rtThreadControl u priority else some b) = some b' ∧ Absent t a' b' := by
  split at hs
  · rw [if_pos ‹p›]
    exact h.rtThreadControl hs
  · rw [if_neg ‹¬p›]
    exact ⟨b, rfl, some.inj hs ▸ h⟩

theorem currentPriority (v : ℕ) : (b.thread v).currentPriority = (a.thread v).currentPriority :=
  congrFun h.priority v

theorem raise {o : ℕ} (hs : a.raise o u = some a') :
    ∃ b', b.raise o u = some b' ∧ Absent t a' b' := by
  rw [Sched.raise, h.currentPriority, h.currentPriority]
  exact h.rtThreadControl_if hs

theorem restore (hs : a.restore u priority = some a') :
    ∃ b', b.restore u priority = some b' ∧ Absent t a' b' := by
  rw [Sched.restore, h.currentPriority]
  exact h.rtThreadControl_if hs

theorem rtThreadSleep (hu : u ≠ t) (hready : (a.thread u).stat = .ready)
    (hs : a.rtThreadSleep u tick = some a') :
    ∃ b', b.rtThreadSleep u tick = some b' ∧ Absent t a' b' := by
  have hready' : (b.thread u).stat = .ready := (h.stat hu).trans hready
  have hsuspended := effect_rtThreadSuspend h.right hready'
  obtain ⟨r, hr⟩ : ∃ r, (b.rtThreadSuspend u).2.startTimer u tick = some r := by
    obtain ⟨r, hr, -⟩ := bind_eq_some_iff.mp hs
    refine exists_startTimer hr ?_
    rw [(effect_rtThreadSuspend h.left hready).note, hsuspended.note, update_self,
      update_self, h.note u hu]
  obtain ⟨b', hb'⟩ : ∃ b', r.rtSchedule = some b' := by
    refine exists_rtSchedule ((h.right.rtThreadSuspend u).startTimer hr) (t := t) ?_
    rw [(effect_startTimer hr).note, hsuspended.note, update_of_ne hu.symm,
      update_of_ne hu.symm, h.ready]
  have hb : b.rtThreadSleep u tick = some b' := by
    rw [Sched.rtThreadSleep, hr, bind_some, hb']
  exact ⟨b', hb, h.of_effects (effect_rtThreadSleep h.left hready hs)
    (effect_rtThreadSleep h.right hready' hb) h.priority h.waiting (h.ready_update hu _)
    (h.note_update (by rw [h.note u hu]))⟩

theorem rtThreadYield (hs : a.rtThreadYield u = some a') :
    ∃ b', b.rtThreadYield u = some b' ∧ Absent t a' b' := by
  obtain ⟨b', hb⟩ := exists_rtThreadYield h.right h.ready u
  exact ⟨b', hb, h.of_effects (effect_rtThreadYield h.left hs) (effect_rtThreadYield h.right hb)
    h.priority h.waiting h.ready h.note⟩

theorem rtThreadTimeout (hu : u ≠ t) (hs : a.rtThreadTimeout u = some a') :
    ∃ b', b.rtThreadTimeout u = some b' ∧ Absent t a' b' := by
  have hsuspend : (b.thread u).stat = .suspend :=
    (h.stat hu).trans (ite_none_right_eq_some.mp hs).1
  obtain ⟨b', hb⟩ : ∃ b', b.rtThreadTimeout u = some b' := by
    rw [Sched.rtThreadTimeout, if_pos hsuspend]
    have heffect := Effect.of_readied hsuspend
      (f := ({ · with error := .etimeout, timerActive := false })) fun _ => ⟨rfl, rfl, rfl⟩
    refine exists_rtSchedule (heffect.queued h.right) (t := t) ?_
    rw [heffect.note, h.ready_update hu]
  exact ⟨b', hb, h.of_effects (effect_rtThreadTimeout hs) (effect_rtThreadTimeout hb)
    h.priority (h.resume_waiting u) (h.ready_update hu _) (h.note_update (by rw [h.note u hu]))⟩

theorem rtTickIncrease (hs : a.currentThread.bind a.rtTickIncrease = some a') :
    ∃ b', b.currentThread.bind b.rtTickIncrease = some b' ∧ Absent t a' b' := by
  obtain ⟨u, -, hs⟩ := bind_eq_some_iff.mp hs
  obtain ⟨v, hv⟩ := ne_none_iff_exists'.mp h.running
  obtain ⟨b', hb⟩ := exists_rtTickIncrease h.right h.ready v
  have hticked : Absent t a.countTick b.countTick :=
    ⟨h.left.countTick, h.right.countTick, h.ready, h.lock, by
      change (b.tick + 1) % 2 ^ 32 = (a.tick + 1) % 2 ^ 32
      rw [h.tick], h.running, h.priority, h.waiting, h.note⟩
  refine ⟨b', by rw [hv, bind_some, hb], ?_⟩
  exact hticked.of_effects (effect_rtTickIncrease h.left hs) (effect_rtTickIncrease h.right hb)
    h.priority h.waiting h.ready h.note

end

end Absent

/-! ## The loop of `rt_event_send` without one thread -/

/-- A thread that is not resumed makes no difference to the loop. -/
theorem served_erase {note : ℕ → Note} {ts : List ℕ} {set : BitVec 32}
    (hout : t ∉ (served note ts set).map Prod.fst) :
    served note (ts.erase t) set = served note ts set ∧
      unclaimed note (ts.erase t) set = unclaimed note ts set := by
  induction ts generalizing set with
  | nil => exact ⟨rfl, rfl⟩
  | cons u rest ih =>
    rw [served] at hout
    by_cases hut : u = t
    · have hmet : ¬ (note u).met set = true := by
        intro hmet
        rw [if_pos hmet] at hout
        exact hout (hut ▸ mem_cons_self ..)
      rw [hut, erase_cons_head, ← hut, served, unclaimed, if_neg hmet, if_neg hmet]
      exact ⟨rfl, rfl⟩
    · rw [erase_cons_tail (by simpa using hut), served, served, unclaimed, unclaimed]
      split at hout
      · rename_i hmet
        rw [if_pos hmet, if_pos hmet, if_pos hmet, if_pos hmet]
        obtain ⟨hserved, hunclaimed⟩ := ih fun hin => hout (mem_cons_of_mem _ hin)
        exact ⟨congrArg _ hserved, hunclaimed⟩
      · rename_i hmet
        rw [if_neg hmet, if_neg hmet, if_neg hmet, if_neg hmet]
        exact ih hout

theorem foldl_resume_priority (v : View) (ts : List ℕ) :
    (ts.foldl resume v).priority = v.priority := by
  induction ts generalizing v with
  | nil => rfl
  | cons u rest ih => exact ih (v.resume u)

theorem foldl_resume_erase {va vb : View} (hwaiting : ∀ w, vb.waiting w = (va.waiting w).erase t)
    (ts : List ℕ) (w : Wait) :
    (ts.foldl resume vb).waiting w = ((ts.foldl resume va).waiting w).erase t := by
  induction ts generalizing va vb with
  | nil => exact hwaiting w
  | cons u rest ih =>
    refine ih fun w => ?_
    change (vb.waiting w).erase u = ((va.waiting w).erase u).erase t
    rw [hwaiting, erase_comm]

namespace Absent

variable {a a' b b' : Sched} {i : ℕ} {set : BitVec 32}

theorem served_eq (h : Absent t a b)
    (hout : t ∉ (served a.note (a.waiting (.event i)) set).map Prod.fst) :
    served b.note (b.waiting (.event i)) set = served a.note (a.waiting (.event i)) set ∧
      unclaimed b.note (b.waiting (.event i)) set =
        unclaimed a.note (a.waiting (.event i)) set := by
  have hnot : t ∉ b.waiting (.event i) := h.right.not_waiting h.ready _
  have hnotes : ∀ u ∈ b.waiting (.event i), b.note u = a.note u := fun u hu =>
    h.note u fun he => hnot (he ▸ hu)
  have hcongr := served_congr hnotes set
  have herase := served_erase hout
  rw [← h.waiting (.event i)] at herase
  exact ⟨hcongr.1.trans herase.1, hcongr.2.trans herase.2⟩

theorem sendLoop (h : Absent t a b) (need : Bool)
    (hout : t ∉ (served a.note (a.waiting (.event i)) set).map Prod.fst) :
    (Ipc.sendLoop (b.waiting (.event i)) (b, set, need)).2.1 =
        (Ipc.sendLoop (a.waiting (.event i)) (a, set, need)).2.1 ∧
      Absent t (Ipc.sendLoop (a.waiting (.event i)) (a, set, need)).1
        (Ipc.sendLoop (b.waiting (.event i)) (b, set, need)).1 := by
  obtain ⟨hqueued, hset, hview, hserved, hother, ⟨hlock, htick, -⟩, -⟩ :=
    sent_waiting h.left (.event i) set need
  obtain ⟨hqueued', hset', hview', hserved', hother', ⟨hlock', htick', hcurrent⟩, -⟩ :=
    sent_waiting h.right (.event i) set need
  obtain ⟨hsame, hsame'⟩ := h.served_eq hout
  rw [hsame] at hview' hserved' hother'
  refine ⟨by rw [hset', hset, hsame'], hqueued, hqueued', ?_, ?_, ?_, ?_, ?_, fun w => ?_,
    fun u hu => ?_⟩
  · rw [hother' t hout, h.ready]
  · rw [hlock', hlock, h.lock]
  · rw [htick', htick, h.tick]
  · rw [hcurrent]
    exact h.running
  · rw [hview', hview, foldl_resume_priority, foldl_resume_priority, h.priority]
  · have hw := congrFun (congrArg View.waiting hview) w
    have hw' := congrFun (congrArg View.waiting hview') w
    exact hw'.trans ((foldl_resume_erase h.waiting _ w).trans (congrArg (List.erase · t) hw.symm))
  · by_cases hin : u ∈ (served a.note (a.waiting (.event i)) set).map Prod.fst
    · obtain ⟨⟨v, got⟩, hgot, rfl⟩ := List.mem_map.mp hin
      rw [hserved' v got hgot, hserved v got hgot, h.note v hu]
    · rw [hother' u hin, hother u hin, h.note u hu]

/-- `rt_schedule` may be called in one state and not in the other. -/
theorem rtSchedule_if (h : Absent t a b) {p : Prop} [Decidable p] (q : Prop) [Decidable q]
    (hs : (if p then a.rtSchedule else some a) = some a') :
    ∃ b', (if q then b.rtSchedule else some b) = some b' ∧ Absent t a' b' := by
  have ha : Effect a a' a.view a.note := by
    split at hs
    · exact effect_rtSchedule hs
    · exact some.inj hs ▸ .refl a
  obtain ⟨b', hb, heffect⟩ : ∃ b', (if q then b.rtSchedule else some b) = some b' ∧
      Effect b b' b.view b.note := by
    split
    · obtain ⟨b', hb⟩ := exists_rtSchedule h.right h.ready
      exact ⟨b', hb, effect_rtSchedule hb⟩
    · exact ⟨b, rfl, .refl b⟩
  exact ⟨b', hb, h.of_effects ha heffect h.priority h.waiting h.ready h.note⟩

end Absent

/-! ## The thread itself -/

/-- The thread `t` has set fields of its own. -/
structure Own (t : ℕ) (s s' : Sched) : Prop where
  queued : Queued s'
  view : s'.view = s.view
  note : ∀ u, u ≠ t → s'.note u = s.note u
  timer : (s'.note t).timer = (s.note t).timer
  kept : Kept s s'

namespace Own

theorem refl (h : Queued s) : Own t s s := ⟨h, rfl, fun _ _ => rfl, rfl, rfl, rfl, id⟩

theorem trans (h₁ : Own t s r) (h₂ : Own t r s') : Own t s s' where
  queued := h₂.queued
  view := h₂.view.trans h₁.view
  note u hu := (h₂.note u hu).trans (h₁.note u hu)
  timer := h₂.timer.trans h₁.timer
  kept := h₁.kept.trans h₂.kept

theorem modify (h : Queued s) {f : Thread → Thread} (hf : KeepsFields f)
    (htimer : ∀ thread, (f thread).timerActive = thread.timerActive) : Own t s (s.modify t f) where
  queued := h.modify_same t hf
  view := s.view_modify t fun thread => ⟨(hf thread).1, (hf thread).2.1⟩
  note u hu := congrArg Thread.note (update_of_ne hu ..)
  timer := by
    rw [show (s.modify t f).note t = (f (s.thread t)).note from
      congrArg Thread.note (update_self ..)]
    exact htimer (s.thread t)
  kept := ⟨rfl, rfl, id⟩

theorem setError (h : Queued s) (err : Err) : Own t s (s.setError t err) :=
  modify h (fun _ => ⟨rfl, rfl, rfl, rfl⟩) fun _ => rfl

theorem ready (h : Own t s s') (hready : (s.thread t).stat = .ready) :
    (s'.thread t).stat = .ready := (congrFun (congrArg stat h.view) t).trans hready

end Own

namespace Absent

variable {a a' b : Sched}

theorem of_own (h : Own t s r) (hs : Queued s) (hready : (s.thread t).stat = .ready)
    (hrunning : s.currentThread ≠ none) : Absent t r s where
  left := h.queued
  right := hs
  ready := hready
  lock := h.kept.lock.symm
  tick := h.kept.tick.symm
  running := hrunning
  priority := (congrArg View.priority h.view).symm
  waiting w := by
    have hwaiting : r.waiting = s.waiting := congrArg View.waiting h.view
    rw [hwaiting, erase_of_not_mem (hs.not_waiting hready w)]
  note u hu := (h.note u hu).symm

theorem erase_place {priority : ℕ → ℕ} {list : List ℕ} (ht : t ∉ list) (flag : Flag) :
    (place priority t list flag).erase t = list := by
  cases flag with
  | fifo =>
    change (list ++ [t]).erase t = list
    rw [erase_append_right _ ht, erase_cons_head, append_nil]
  | prio =>
    rw [place, insertByPriority_eq]
    exact erase_orderedInsert_of_notMem ht

theorem of_block (h : Own t s r) (hs : Queued s) (hready : (s.thread t).stat = .ready)
    (hrunning : s.currentThread ≠ none) (hr : r.block w flag t time = some s') : Absent t s' s := by
  have hsame := of_own h hs hready hrunning
  have heffect := effect_block h.queued (h.ready hready) hr
  refine hsame.of_effects heffect (.refl s) hsame.priority (fun v => ?_) hready fun u hu => ?_
  · change s.waiting v =
      (update r.waiting w (place r.view.priority t (r.waiting w) flag) v).erase t
    rw [hsame.waiting]
    by_cases hv : v = w
    · have hout := h.queued.not_waiting (h.ready hready) w
      rw [hv, update_self, erase_place hout, erase_of_not_mem hout]
    · rw [update_of_ne hv]
  · rw [update_of_ne hu, hsame.note u hu]

theorem expire (h : Absent t a b) (hs : a.rtThreadTimeout t = some a') : Absent t a' b := by
  refine h.of_effects (effect_rtThreadTimeout hs) (.refl b) h.priority (fun w => ?_) h.ready
    fun u hu => ?_
  · exact (h.waiting w).trans
      (erase_of_not_mem (h.left.waitingNodup w).not_mem_erase).symm
  · rw [update_of_ne hu, h.note u hu]

end Absent

end Sched

end Easyio.Kernel
