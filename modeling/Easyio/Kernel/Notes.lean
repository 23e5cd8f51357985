import Easyio.Kernel.View

/-!
# What the calls leave in a thread

A thread that waits is resumed by others, and finds out what happened to it from its own
fields: `error`, and for events `event_set`.  `Note` are the fields of a thread that the
calls of `Kernel.Ipc` read and write.

On states whose lists are in order (`Queued`) each function of the scheduler does one thing to
the view and changes the note of at most one thread (`Effect`); only the loop of
`rt_event_send` changes those of several.
-/

namespace Easyio.Kernel

open Function Ipc List Option Prod View

/-- The fields of a thread that the calls read and write. -/
@[ext]
structure Note where
  stat : Stat
  error : Err
  timer : Bool
  eventSet : BitVec 32
  eventInfo : BitVec 8

def Thread.note (thread : Thread) : Note where
  stat := thread.stat
  error := thread.error
  timer := thread.timerActive
  eventSet := thread.eventSet
  eventInfo := thread.eventInfo

namespace Note

variable (n : Note) (set : BitVec 32)

/-- The thread stops, perhaps for a limited time. -/
def suspended (timed : Bool) : Note :=
  { n with stat := .suspend, timer := n.timer || timed }

/-- The thread is ready again, and its timer is stopped. -/
def resumed : Note := { n with stat := .ready, timer := false }

/-- The timer of the thread runs out. -/
def expired : Note := { n.resumed with error := .etimeout }

/-- The events in `set` are those that the thread waits for. -/
def met : Bool := eventMet n.eventInfo n.eventSet set

/-- The events of `set` that the thread gets. -/
def taken : BitVec 32 := eventTaken n.eventInfo n.eventSet set

/-- The events of `set` that the thread leaves. -/
def leaves : BitVec 32 :=
  if isClear n.eventInfo then set &&& ~~~n.taken set else set

end Note

namespace Sched

def note (s : Sched) (t : ℕ) : Note := (s.thread t).note

variable {s s' : Sched} {t u priority : ℕ} {thread : Thread} {time : ℤ} {w : Wait} {ts : List ℕ}
  {set : BitVec 32} {need : Bool}

theorem note_congr (h : s'.thread = s.thread) : s'.note = s.note :=
  funext fun u => congrArg Thread.note (congrFun h u)

theorem note_update {n : Note} (h : s'.thread = update s.thread t thread)
    (hn : thread.note = n) : s'.note = update s.note t n := by
  funext u
  rw [note, h, ← hn]
  by_cases hu : u = t
  · rw [hu, update_self, update_self]
  · rw [update_of_ne hu, update_of_ne hu, note]

theorem note_same (h : s'.thread = update s.thread t thread) (hn : thread.note = s.note t) :
    s'.note = s.note :=
  (note_update h hn).trans (update_eq_self t s.note)

theorem note_setError (s : Sched) (t : ℕ) (err : Err) :
    (s.setError t err).note = update s.note t { s.note t with error := err } :=
  note_update rfl rfl

/-! ## What the functions do -/

/-- The clock, the lock of the scheduler, and that a thread is running. -/
structure Kept (s s' : Sched) : Prop where
  lock : s'.schedulerLockNest = s.schedulerLockNest
  tick : s'.tick = s.tick
  running : s.currentThread ≠ none → s'.currentThread ≠ none

theorem Kept.trans {r : Sched} (h₁ : Kept s r) (h₂ : Kept r s') : Kept s s' :=
  ⟨h₂.lock.trans h₁.lock, h₂.tick.trans h₁.tick, fun h => h₂.running (h₁.running h)⟩

/-- The lists stay in order, and the objects see the view `v` and the notes `n`. -/
structure Effect (s s' : Sched) (v : View) (n : ℕ → Note) : Prop where
  queued : Queued s → Queued s'
  view : s'.view = v
  note : s'.note = n
  kept : Kept s s'

namespace Effect

variable {r : Sched} {v v' : View} {n n' : ℕ → Note} {f : Thread → Thread}

theorem refl (s : Sched) : Effect s s s.view s.note := ⟨id, rfl, rfl, rfl, rfl, id⟩

theorem trans (h₁ : Effect s r v n) (h₂ : Effect r s' v' n') : Effect s s' v' n' :=
  ⟨fun h => h₂.queued (h₁.queued h), h₂.view, h₂.note, h₁.kept.trans h₂.kept⟩

theorem schedule (h : Effect s r v n) (hs : r.rtSchedule = some s') : Effect s s' v n := by
  have hqueued := fun hr : Queued r => hr.rtSchedule hs
  unfold rtSchedule at hs
  split at hs
  · obtain ⟨u, -, rfl⟩ := map_eq_some_iff.mp hs
    exact ⟨fun hs => hqueued (h.queued hs), h.view, h.note, h.kept.lock, h.kept.tick,
      fun _ => some_ne_none u⟩
  · exact some.inj hs ▸ h

theorem of_modify (s : Sched) (t : ℕ) (hf : KeepsFields f) :
    Effect s (s.modify t f) s.view (update s.note t (f (s.thread t)).note) :=
  ⟨fun h => h.modify_same t hf, s.view_modify t fun thread => ⟨(hf thread).1, (hf thread).2.1⟩,
    note_update rfl rfl, rfl, rfl, id⟩

theorem of_readied (ht : (s.thread t).stat = .suspend) (hf : KeepsPriority f) :
    Effect s (((s.unlink t).modify t f).rtScheduleInsertThread t) (s.view.resume t)
      (update s.note t { (f (s.thread t)).note with stat := .ready }) := by
  have hthread : (((s.unlink t).modify t f).rtScheduleInsertThread t).thread =
      update s.thread t { f (s.thread t) with stat := .ready } := by
    simp [rtScheduleInsertThread, modify, unlink]
  refine ⟨fun h => h.readied ht hf, ?_, note_update hthread rfl, rfl, rfl, id⟩
  refine (view_insert (Queued.without_unlink s t f)).trans ?_
  rw [modify_thread_self, (hf _).1]
  exact setPriority_self (s.view.resume t) t

end Effect

theorem effect_rtSchedule (hs : s.rtSchedule = some s') : Effect s s' s.view s.note :=
  (Effect.refl s).schedule hs

theorem effect_startTimer {time : ℕ} (hs : s.startTimer t time = some s') :
    Effect s s' s.view (update s.note t { s.note t with timer := true }) := by
  unfold startTimer at hs
  split at hs
  · rename_i hactive
    rw [← some.inj hs, ← show (s.note t).timer = true from hactive]
    exact ⟨id, rfl, (update_eq_self ..).symm, rfl, rfl, id⟩
  obtain ⟨-, hs⟩ := ite_none_left_eq_some.mp hs
  exact some.inj hs ▸ .of_modify s t fun _ => ⟨rfl, rfl, rfl, rfl⟩

theorem effect_startWait (hs : s.startWait t time = some s') : Effect s s' s.view (update s.note t
      { s.note t with timer := (s.note t).timer || decide (0 < time) }) := by
  unfold startWait at hs
  split at hs
  · rename_i htime
    rw [decide_eq_true htime, Bool.or_true]
    exact effect_startTimer hs
  · rename_i htime
    rw [← some.inj hs, decide_eq_false htime, Bool.or_false]
    exact ⟨id, rfl, (update_eq_self ..).symm, rfl, rfl, id⟩

section

variable (h : Queued s) (ht : (s.thread t).stat = .ready)
include h ht

theorem effect_rtThreadSuspend :
    Effect s (s.rtThreadSuspend t).2 (s.view.park t)
      (update s.note t { s.note t with stat := .suspend }) := by
  have hqueued := h.rtThreadSuspend t
  have hwaiting := erase_waiting h ht
  rw [rtThreadSuspend, if_pos ht] at hqueued ⊢
  refine ⟨fun _ => hqueued, View.ext (funext fun u => ?_) (funext fun u => ?_) hwaiting,
    note_update rfl rfl, rfl, rfl, id⟩
  all_goals
    by_cases hu : u = t
    · subst hu
      simp [view, park, rtScheduleRemoveThread, unlink, modify]
    · simp [view, park, rtScheduleRemoveThread, unlink, modify, hu]

theorem effect_rtIpcListSuspend (w : Wait)
    (flag : Flag) : Effect s (s.rtIpcListSuspend w t flag) (s.view.suspend w t flag)
      (update s.note t { s.note t with stat := .suspend }) := by
  obtain ⟨-, hview, hnote, hkept⟩ := effect_rtThreadSuspend h ht
  have hwaiting : (s.rtThreadSuspend t).2.waiting = s.waiting := congrArg View.waiting hview
  refine ⟨fun _ => (h.rtThreadSuspend t).enlist ?_ (fun w hin => ?_) w flag, ?_, hnote,
    hkept.lock, hkept.tick, hkept.running⟩
  · exact (congrFun (congrArg stat hview) t).trans (update_self ..)
  · exact h.not_waiting ht w (hwaiting ▸ hin)
  · have henlist : (s.rtIpcListSuspend w t flag).view =
        { (s.rtThreadSuspend t).2.view with
          waiting := update (s.rtThreadSuspend t).2.view.waiting w
            (place (s.rtThreadSuspend t).2.view.priority t
              ((s.rtThreadSuspend t).2.view.waiting w) flag) } := rfl
    rw [henlist, hview]
    rfl

theorem effect_block {flag : Flag}
    (hs : s.block w flag t time = some s') : Effect s s' (s.view.suspend w t flag)
      (update s.note t ((s.note t).suspended (decide (0 < time)))) := by
  obtain ⟨r, hr, hs⟩ := bind_eq_some_iff.mp hs
  have hsuspend := effect_rtIpcListSuspend h ht w flag
  have hwait := effect_startWait hr
  rw [hsuspend.view, hsuspend.note, update_self, update_idem] at hwait
  exact (hsuspend.trans hwait).schedule hs

end

theorem effect_rtThreadResume (ht : (s.thread t).stat = .suspend) :
    Effect s (s.rtThreadResume t).2 (s.view.resume t)
      (update s.note t (s.note t).resumed) := by
  rw [rtThreadResume, if_pos ht]
  exact .of_readied ht fun _ => ⟨rfl, rfl, rfl⟩

theorem effect_wake (h : Queued s) {rest : List ℕ} (hw : s.waiting w = t :: rest)
    (hs : s.wake w = some s') :
    Effect s s' (s.view.resume t) (update s.note t (s.note t).resumed) := by
  rw [wake, rtIpcListResume, hw] at hs
  exact (effect_rtThreadResume (h.waiting t w (hw ▸ mem_cons_self ..))).schedule hs

theorem effect_rtThreadTimeout (hs : s.rtThreadTimeout t = some s') :
    Effect s s' (s.view.resume t) (update s.note t (s.note t).expired) := by
  obtain ⟨ht, hs⟩ := ite_none_right_eq_some.mp hs
  refine Effect.schedule (.of_readied ht ?_) hs
  exact fun _ => ⟨rfl, rfl, rfl⟩

theorem effect_rtThreadControl (h : Queued s) (hs : s.rtThreadControl t priority = some s') :
    Effect s s' (s.view.setPriority t priority) s.note := by
  have hqueued := h.rtThreadControl hs
  obtain ⟨-, hs⟩ := ite_none_left_eq_some.mp hs
  split at hs
  · rename_i ht
    rw [← some.inj hs] at hqueued ⊢
    have hthread : (((s.rtScheduleRemoveThread t).setPriority t priority).rtScheduleInsertThread
        t).thread = update s.thread t { s.thread t with
          currentPriority := priority, numberMask := 1#32 <<< priority } := by
      simp [rtScheduleInsertThread, setPriority, modify, rtScheduleRemoveThread, unlink, ← ht]
    refine ⟨fun _ => hqueued, ?_, note_same hthread rfl, rfl, rfl, id⟩
    refine (view_insert (Queued.without_remove s t _)).trans ?_
    rw [modify_thread_self, resume_of_ready ht]
    exact h.not_waiting ht
  · rw [← some.inj hs] at hqueued ⊢
    refine ⟨fun _ => hqueued, View.ext (funext fun u => ?_) (funext fun u => ?_) rfl,
      note_same rfl rfl, rfl, rfl, id⟩
    all_goals
      by_cases hu : u = t
      · subst hu
        simp [view, View.setPriority, setPriority, modify]
      · simp [view, View.setPriority, setPriority, modify, hu]

theorem effect_raise (h : Queued s) {o : ℕ} (hs : s.raise o t = some s') :
    Effect s s' (s.view.raise o t) s.note := by
  unfold raise at hs
  unfold View.raise
  split at hs
  · rename_i hlt
    rw [if_pos (show s.view.priority t < s.view.priority o from hlt)]
    exact effect_rtThreadControl h hs
  · rename_i hlt
    rw [if_neg (show ¬ s.view.priority t < s.view.priority o from hlt)]
    exact some.inj hs ▸ .refl s

theorem effect_restore (h : Queued s) (hs : s.restore t priority = some s') :
    Effect s s' (s.view.setPriority t priority) s.note := by
  unfold restore at hs
  split at hs
  · exact effect_rtThreadControl h hs
  · rename_i heq
    rw [not_not.mp heq, ← some.inj hs]
    exact ⟨id, (setPriority_self s.view t).symm, rfl, rfl, rfl, id⟩

theorem effect_rtThreadSleep (h : Queued s) (ht : (s.thread t).stat = .ready) {tick : ℕ}
    (hs : s.rtThreadSleep t tick = some s') :
    Effect s s' (s.view.park t) (update s.note t ((s.note t).suspended true)) := by
  obtain ⟨r, hr, hs⟩ := bind_eq_some_iff.mp hs
  have hsuspend := effect_rtThreadSuspend h ht
  have htimer := effect_startTimer hr
  rw [hsuspend.view, hsuspend.note, update_self, update_idem] at htimer
  rw [Note.suspended, Bool.or_true]
  exact (hsuspend.trans htimer).schedule hs

theorem effect_rtThreadYield (h : Queued s) (hs : s.rtThreadYield t = some s') :
    Effect s s' s.view s.note := by
  unfold rtThreadYield at hs
  split at hs
  · rename_i hcond
    have hmoved : Effect s (s.moveToEnd t) s.view s.note :=
      ⟨fun h => h.movedToEnd hcond.1,
        View.ext rfl rfl (erase_waiting h hcond.1), note_congr rfl,
        rfl, rfl, id⟩
    exact hmoved.schedule hs
  · exact some.inj hs ▸ .refl s

theorem effect_countTick (s : Sched) (t : ℕ) (ticks : Thread → ℕ) :
    Effect s.countTick (s.countTick.modify t fun thread =>
      { thread with remainingTick := ticks thread }) s.view s.note :=
  ⟨fun h => h.modify_same t fun _ => ⟨rfl, rfl, rfl, rfl⟩,
    s.countTick.view_modify t fun _ => ⟨rfl, rfl⟩, note_same rfl rfl, rfl, rfl, id⟩

theorem effect_rtTickIncrease (h : Queued s) (hs : s.rtTickIncrease t = some s') :
    Effect s.countTick s' s.view s.note := by
  unfold rtTickIncrease at hs
  split at hs
  · have hcounted := effect_countTick s t (·.initTick)
    have hyield := effect_rtThreadYield (hcounted.queued h.countTick) hs
    rw [hcounted.view, hcounted.note] at hyield
    exact hcounted.trans hyield
  · exact some.inj hs ▸ effect_countTick s t _

/-! ## Threads that make no step -/

/-- What a step of another thread does to the thread `u`: it is left as it is and where it is,
or it is resumed. -/
inductive Spared (s s' : Sched) (u : ℕ) : Prop
  | same (hnote : s'.note u = s.note u) (hwaiting : ∀ w, u ∈ s.waiting w → u ∈ s'.waiting w)
  | resumed (set : BitVec 32) (hnote : s'.note u = { s.note u with eventSet := set }.resumed)

namespace Spared

variable {r : Sched}

theorem of_eq (hwaiting : s'.waiting = s.waiting) (hnote : s'.note u = s.note u) :
    Spared s s' u := .same hnote fun _ hu => hwaiting ▸ hu

theorem trans (h₁ : Spared s r u) (h₂ : Spared r s' u) : Spared s s' u := by
  cases h₁ with
  | same hnote hwaiting =>
    cases h₂ with
    | same hnote' hwaiting' =>
      exact .same (hnote'.trans hnote) fun w hu => hwaiting' w (hwaiting w hu)
    | resumed set hnote' => exact .resumed set (hnote ▸ hnote')
  | resumed set hnote =>
    cases h₂ with
    | same hnote' _ => exact .resumed set (hnote'.trans hnote)
    | resumed set' hnote' =>
      refine .resumed set' ?_
      rw [hnote', hnote]
      rfl

end Spared

/-! ## The loop of `rt_event_send` -/

/-- The threads that the loop resumes, with the events that they get. -/
def served (note : ℕ → Note) : List ℕ → BitVec 32 → List (ℕ × BitVec 32)
  | [], _ => []
  | t :: rest, set =>
    if (note t).met set then (t, (note t).taken set) :: served note rest ((note t).leaves set)
    else served note rest set

/-- The events that are left after the loop. -/
def unclaimed (note : ℕ → Note) : List ℕ → BitVec 32 → BitVec 32
  | [], set => set
  | t :: rest, set =>
    if (note t).met set then unclaimed note rest ((note t).leaves set)
    else unclaimed note rest set

/-- The loop looks only at the notes of the threads in the list. -/
theorem served_congr {note note' : ℕ → Note} (h : ∀ t ∈ ts, note' t = note t) (set : BitVec 32) :
    served note' ts set = served note ts set ∧ unclaimed note' ts set = unclaimed note ts set := by
  induction ts generalizing set with
  | nil => exact ⟨rfl, rfl⟩
  | cons t ts ih =>
    have ih := ih fun u hu => h u (mem_cons_of_mem _ hu)
    simp only [served, unclaimed, h t mem_cons_self]
    split
    · exact ⟨congrArg _ (ih _).1, (ih _).2⟩
    · exact ih set

theorem served_sublist (note : ℕ → Note) (ts : List ℕ) (set : BitVec 32) :
    ((served note ts set).map fst).Sublist ts := by
  induction ts generalizing set with
  | nil => exact .refl _
  | cons t ts ih =>
    rw [served]
    split
    · exact (ih _).cons_cons t
    · exact (ih _).cons t

/-- The thread `t` gets its events and is resumed. -/
def serve (s : Sched) (t : ℕ) (set : BitVec 32) : Sched :=
  ((s.modify t fun thread =>
    { thread with eventSet := eventTaken thread.eventInfo thread.eventSet set }).rtThreadResume t).2

theorem sendLoop_of_met (hmet : (s.note t).met set = true) : sendLoop (t :: ts) (s, set, need) =
      sendLoop ts (s.serve t set, (s.note t).leaves set, true) :=
  if_pos hmet

theorem sendLoop_of_not_met (hmet : ¬ (s.note t).met set = true) :
    sendLoop (t :: ts) (s, set, need) = sendLoop ts (s, set, need) :=
  if_neg hmet

theorem serve_spec (h : Queued s) (ht : (s.thread t).stat = .suspend) (set : BitVec 32) :
    Queued (s.serve t set) ∧ (s.serve t set).view = s.view.resume t ∧
      (s.serve t set).note =
        update s.note t { s.note t with eventSet := (s.note t).taken set }.resumed := by
  set r := s.modify t fun thread =>
    { thread with eventSet := eventTaken thread.eventInfo thread.eventSet set }
  have hqueued : Queued r := h.modify_same t fun _ => ⟨rfl, rfl, rfl, rfl⟩
  have hview : r.view = s.view := s.view_modify t fun _ => ⟨rfl, rfl⟩
  have hnote : r.note = update s.note t { s.note t with eventSet := (s.note t).taken set } :=
    note_update rfl rfl
  have hstat : (r.thread t).stat = .suspend := (congrFun (congrArg stat hview) t).trans ht
  have heffect := effect_rtThreadResume hstat
  rw [hview, hnote, update_self, update_idem] at heffect
  exact ⟨heffect.queued hqueued, heffect.view, heffect.note⟩

theorem still_serve (s : Sched) (t : ℕ) (set : BitVec 32) :
    (s.serve t set).schedulerLockNest = s.schedulerLockNest ∧ (s.serve t set).tick = s.tick ∧
      (s.serve t set).currentThread = s.currentThread := by
  unfold serve rtThreadResume
  split <;> exact ⟨rfl, rfl, rfl⟩

/-- What the loop does when it resumes the threads of `got` and leaves the events `rest`. -/
structure Sent (s : Sched) (got : List (ℕ × BitVec 32)) (rest : BitVec 32) (need : Bool)
    (r : Sched × BitVec 32 × Bool) : Prop where
  queued : Queued r.1
  set : r.2.1 = rest
  view : r.1.view = (got.map fst).foldl resume s.view
  served : ∀ u set, (u, set) ∈ got → r.1.note u = { s.note u with eventSet := set }.resumed
  other : ∀ u, u ∉ got.map fst → r.1.note u = s.note u
  still : r.1.schedulerLockNest = s.schedulerLockNest ∧ r.1.tick = s.tick ∧
    r.1.currentThread = s.currentThread
  need : r.2.2 = (need || !got.isEmpty)

theorem sent_sendLoop (h : Queued s) (hts : ∀ t ∈ ts, (s.thread t).stat = .suspend)
    (hnodup : ts.Nodup) : Sent s (served s.note ts set) (unclaimed s.note ts set) need
      (sendLoop ts (s, set, need)) := by
  induction ts generalizing s set need with
  | nil =>
    exact ⟨h, rfl, rfl, fun _ _ hin => absurd hin not_mem_nil, fun _ _ => rfl,
      ⟨rfl, rfl, rfl⟩, (Bool.or_false need).symm⟩
  | cons t ts ih =>
    obtain ⟨ht, hnodup⟩ := nodup_cons.mp hnodup
    have hsuspend := hts t mem_cons_self
    have hne : ∀ u ∈ ts, u ≠ t := fun u hu he => ht (he ▸ hu)
    rw [served, unclaimed]
    by_cases hmet : (s.note t).met set = true
    swap
    · rw [sendLoop_of_not_met hmet, if_neg hmet, if_neg hmet]
      exact ih h (fun u hu => hts u (mem_cons_of_mem _ hu)) hnodup
    rw [sendLoop_of_met hmet, if_pos hmet, if_pos hmet]
    -- the notes of the other threads of the list are as they were
    obtain ⟨hqueued, hview, hnote⟩ := serve_spec h hsuspend set
    have hother : ∀ u ≠ t, (s.serve t set).note u = s.note u := fun u hu => by
      rw [hnote, update_of_ne hu]
    have hrest : ∀ u ∈ ts, ((s.serve t set).thread u).stat = .suspend := fun u hu =>
      (congrArg Note.stat (hother u (hne u hu))).trans (hts u (mem_cons_of_mem _ hu))
    have hsent := @ih (s.serve t set) ((s.note t).leaves set) true hqueued hrest hnodup
    obtain ⟨hsame, hsame'⟩ :=
      served_congr (fun u hu => hother u (hne u hu)) ((s.note t).leaves set)
    rw [hsame, hsame'] at hsent
    obtain ⟨hlock, htick, hcurrent⟩ := hsent.still
    obtain ⟨hlock', htick', hcurrent'⟩ := still_serve s t set
    have hout : t ∉ (served s.note ts ((s.note t).leaves set)).map fst := fun hin =>
      ht ((served_sublist ..).subset hin)
    refine ⟨hsent.queued, hsent.set, ?_, fun u got hin => ?_, fun u hu => ?_,
      ⟨hlock.trans hlock', htick.trans htick', hcurrent.trans hcurrent'⟩,
      hsent.need.trans (Bool.or_true need).symm⟩
    · rw [hsent.view, hview]
      rfl
    · rcases mem_cons.mp hin with heq | hin
      · obtain ⟨rfl, rfl⟩ := Prod.mk.inj heq
        rw [hsent.other u hout, hnote, update_self]
      · have hmem : u ∈ (served s.note ts ((s.note t).leaves set)).map fst :=
          List.mem_map_of_mem hin
        have hut : u ≠ t := fun he => hout (by rwa [he] at hmem)
        rw [hsent.served u got hin, hother u hut]
    · rw [map_cons, mem_cons, not_or] at hu
      rw [hsent.other u hu.2, hother u hu.1]

theorem sent_waiting (h : Queued s) (w : Wait) (set : BitVec 32) (need : Bool) :
    Sent s (served s.note (s.waiting w) set) (unclaimed s.note (s.waiting w) set) need
      (sendLoop (s.waiting w) (s, set, need)) :=
  sent_sendLoop h (fun u hu => h.waiting u w hu) (h.waitingNodup w)

end Sched

end Easyio.Kernel
