import Easyio.Kernel.Inheritance

/-!
# Priorities after the last mutex

A thread that holds no mutex is to have the priority it was started with (`Restored`).
`rt_mutex_release` gives back the priority that the thread had when it got this mutex.  If
it had been raised for another mutex by then, and gives that one up first, it is left with
the raised priority.  `LastGuard` excludes exactly this (`priority_restored_iff`).
-/

namespace Easyio.Kernel.Ipc

open Function List Option Runs.Partial Sched View

variable {s s' : Ipc} {e : Event} {t i k : ℕ} {base : ℕ → ℕ} {m : Mutex} {sched sched' : Sched}

/-- A thread that holds no mutex has its base priority. -/
def Restored (base : ℕ → ℕ) (s : Ipc) : Prop :=
  ∀ t, (∀ i, (s.mutex i).owner ≠ some t) → (s.sched.thread t).currentPriority = base t

/-- What a step has to find: the mutex that a thread gives up last is one that it got at its
base priority. -/
def LastGuard (base : ℕ → ℕ) (s : Ipc) : Event → Prop
  | .call t (.mutexRelease i) =>
    (s.mutex i).owner = some t → ((s.mutex i).hold + (2 ^ 8 - 1)) % 2 ^ 8 = 0 →
      (∀ k ≠ i, (s.mutex k).owner ≠ some t) → (s.mutex i).originalPriority = base t
  | _ => True

/-- A mutex is free or has the value 0. -/
def Mutex.Solid (m : Mutex) : Prop := m.value = 0 ∨ m.owner = none ∧ m.value = 1

theorem Mutex.Solid.value_eq (h : m.Solid) (howner : m.owner = some t) : m.value = 0 :=
  h.resolve_right fun hfree => some_ne_none t (howner.symm.trans hfree.1)

theorem solid_update (h : ∀ k, (s.mutex k).Solid) (hm : m.Solid)
    (hmutex : s'.mutex = update s.mutex i m) (k : ℕ) : (s'.mutex k).Solid := by
  rw [hmutex]
  by_cases hk : k = i
  · rw [hk, update_self]
    exact hm
  · rw [update_of_ne hk]
    exact h k

/-- Changes after which every thread without a mutex was one before. -/
theorem Restored.of_owner (h : Restored base s)
    (hpriority : ∀ t, (∀ k, (s.mutex k).owner ≠ some t) →
      (s'.sched.thread t).currentPriority = (s.sched.thread t).currentPriority)
    (howner : ∀ t, (∀ k, (s'.mutex k).owner ≠ some t) → ∀ k, (s.mutex k).owner ≠ some t) :
    Restored base s' := fun t ht => (hpriority t (howner t ht)).trans (h t (howner t ht))

/-- The owner `t` of the mutex `i` gives it up and gets the priority back that it had. -/
theorem restored_release_iff (h : Restored base s) (howner : (s.mutex i).owner = some t)
    (hm : m.owner ≠ some t) (hmutex : s'.mutex = update s.mutex i m)
    (hpriority : s'.sched.view.priority =
      update s.sched.view.priority t (s.mutex i).originalPriority) :
    Restored base s' ↔
      ((∀ k ≠ i, (s.mutex k).owner ≠ some t) → (s.mutex i).originalPriority = base t) := by
  have hself : (s'.sched.thread t).currentPriority = (s.mutex i).originalPriority :=
    (congrFun hpriority t).trans (update_self ..)
  have hother : ∀ k ≠ i, s'.mutex k = s.mutex k := fun k hk => by
    rw [hmutex, update_of_ne hk]
  constructor
  · intro hrestored hlast
    rw [← hself]
    refine hrestored t fun k => ?_
    by_cases hk : k = i
    · rw [hk, hmutex, update_self]
      exact hm
    · rw [hother k hk]
      exact hlast k hk
  · intro hguard u hu
    by_cases hut : u = t
    · subst hut
      rw [hself]
      exact hguard fun k hk => hother k hk ▸ hu k
    · have hsame : (s'.sched.thread u).currentPriority = (s.sched.thread u).currentPriority :=
        (congrFun hpriority u).trans (update_of_ne hut ..)
      rw [hsame]
      refine h u fun k => ?_
      by_cases hk : k = i
      · rw [hk, howner]
        exact fun he => hut (some.inj he).symm
      · exact hother k hk ▸ hu k

theorem restored_take {time : ℤ} (hsolid : ∀ k, (s.mutex k).Solid) (h : Restored base s)
    (htaken : MutexTaken s t i time s') : (∀ k, (s'.mutex k).Solid) ∧ Restored base s' := by
  have hkeeps {m : Mutex} (hstill : s.sched.Still s'.sched)
      (hmutex : s'.mutex = update s.mutex i m)
      (hm : ∀ u, (s.mutex i).owner = some u → m.owner = some u) : Restored base s' := by
    refine h.of_owner (fun u _ => congrFun (congrArg priority hstill.view) u) ?_
    intro u hu k hk
    refine hu k ?_
    rw [hmutex]
    by_cases hki : k = i
    · rw [hki, update_self]
      exact hm u (hki ▸ hk)
    · rwa [update_of_ne hki]
  cases htaken with
  | nested howner hstill hmutex =>
    have hm : { s.mutex i with hold := ((s.mutex i).hold + 1) % 2 ^ 8 }.Solid :=
      .inl ((hsolid i).value_eq howner)
    exact ⟨solid_update hsolid hm hmutex, hkeeps hstill hmutex fun u hu => hu⟩
  | acquired howner hvalue hstill hmutex =>
    obtain ⟨hnone, hone⟩ := (hsolid i).resolve_left (Nat.pos_iff_ne_zero.mp hvalue)
    have hm : ({ s.mutex i with value := (s.mutex i).value - 1 }.acquire t
        (s.sched.view.priority t)).Solid := by
      left
      change (s.mutex i).value - 1 = 0
      omega
    refine ⟨solid_update hsolid hm hmutex, hkeeps hstill hmutex fun u hu => ?_⟩
    exact absurd (hu.symm.trans hnone) (some_ne_none u)
  | refused howner hvalue htime hstill hmutex =>
    rw [hmutex]
    refine ⟨hsolid, h.of_owner (fun u _ => ?_) fun u hu => hmutex ▸ hu⟩
    exact congrFun (congrArg priority hstill.view) u
  | waited o howner hne hvalue htime hqueued hview hlock hscheduled hmutex =>
    rw [hmutex]
    refine ⟨hsolid, h.of_owner (fun u hu => ?_) fun u hu => hmutex ▸ hu⟩
    -- only the owner of the mutex is raised
    have huo : u ≠ o := fun he => hu i (he ▸ howner)
    refine (congrFun (congrArg priority hview) u).trans ?_
    rw [View.raise]
    split
    · exact update_of_ne huo ..
    · rfl

section

variable (hqueued : s.sched.Queued) (hsolid : ∀ k, (s.mutex k).Solid) (h : Restored base s)
include hqueued hsolid h

theorem restored_release (ht : (s.sched.thread t).stat = .ready)
    (hreleased : MutexReleased s t i s') : (∀ k, (s'.mutex k).Solid) ∧
      (Restored base s' ↔ LastGuard base s (.call t (.mutexRelease i))) := by
  cases hreleased with
  | denied howner hstill hmutex =>
    rw [hmutex]
    refine ⟨hsolid, iff_of_true (h.of_owner (fun u _ => ?_) fun u hu => hmutex ▸ hu) ?_⟩
    · exact congrFun (congrArg priority hstill.view) u
    · exact fun he => absurd he howner
  | nested howner hhold hsched hmutex =>
    have hm : { s.mutex i with hold := ((s.mutex i).hold + (2 ^ 8 - 1)) % 2 ^ 8 }.Solid :=
      .inl ((hsolid i).value_eq howner)
    refine ⟨solid_update hsolid hm hmutex, iff_of_true ?_ fun _ he => absurd he hhold⟩
    refine h.of_owner (fun u _ => by rw [hsched]) fun u hu k hk => hu k ?_
    rw [hmutex]
    by_cases hki : k = i
    · rw [hki, update_self]
      exact hki ▸ hk
    · rwa [update_of_ne hki]
  | freed howner hhold hempty _ hview hlock hcurrent hmutex =>
    have hm : (s.mutex i).giveUp.Solid := by
      refine .inr ⟨rfl, ?_⟩
      change ((s.mutex i).value + 1) % 2 ^ 16 = 1
      rw [(hsolid i).value_eq howner]
      rfl
    refine ⟨solid_update hsolid hm hmutex, ?_⟩
    rw [restored_release_iff h howner (some_ne_none t).symm hmutex (congrArg priority hview)]
    exact ⟨fun hguard _ _ => hguard, fun hguard => hguard howner hhold⟩
  | handed u rest howner hhold hlist _ hview hlock hscheduled hmutex =>
    have hm : ({ s.mutex i with hold := 0 }.acquire u
        ((s.sched.view.setPriority t (s.mutex i).originalPriority).priority u)).Solid :=
      .inl ((hsolid i).value_eq howner)
    have hsuspend : (s.sched.thread u).stat = .suspend :=
      hqueued.waiting u _ (hlist ▸ mem_cons_self ..)
    have hne : some u ≠ some t := by
      intro he
      rw [some.inj he] at hsuspend
      exact Stat.noConfusion (ht.symm.trans hsuspend)
    refine ⟨solid_update hsolid hm hmutex, ?_⟩
    rw [restored_release_iff h howner hne hmutex (congrArg priority hview)]
    exact ⟨fun hguard _ _ => hguard, fun hguard => hguard howner hhold⟩

theorem restored_step (hs : s.step e = some s') :
    (∀ k, (s'.mutex k).Solid) ∧ (Restored base s' ↔ LastGuard base s e) := by
  rcases step_mutex_cases hqueued hs with
    he | ⟨t, i, time, rfl, htaken⟩ | ⟨t, i, rfl, ht, hreleased⟩
  · have hframes := frames_step hqueued he hs
    have hguard : LastGuard base s e := by
      unfold LastGuard
      split
      · cases he
      · exact trivial
    refine ⟨mutex_step hqueued he hs ▸ hsolid, iff_of_true ?_ hguard⟩
    refine h.of_owner (fun u _ => congrFun hframes.priority u) fun u hu k => ?_
    exact (hframes.owner k).1 ▸ hu k
  · obtain ⟨hsolid', hrestored⟩ := restored_take hsolid h htaken
    exact ⟨hsolid', iff_of_true hrestored trivial⟩
  · exact restored_release hqueued hsolid h ht hreleased

end

structure Restoring (base : ℕ → ℕ) (s : Ipc) : Prop where
  queued : s.sched.Queued
  solid : ∀ i, (s.mutex i).Solid
  restored : Restored base s

/-- **Priority restoration.**  Start with free mutexes and every thread at its own priority.
In every run of any calls of any threads, with timeouts and clock interrupts in between, a
thread that holds no mutex has in every state the priority it was started with, if and only
if every step meets `LastGuard`. -/
theorem priority_restored_iff (h : s.sched.Queued)
    (hfree : ∀ i, (s.mutex i).owner = none ∧ (s.mutex i).value = 1)
    (hinit : ∀ t, (s.sched.thread t).currentPriority = (s.sched.thread t).initPriority)
    (events : List Event) :
    Always step (Restored fun t => (s.sched.thread t).initPriority) s events ↔
      Meets step (LastGuard fun t => (s.sched.thread t).initPriority) s events := by
  have hstart : Restoring (fun t => (s.sched.thread t).initPriority) s :=
    { queued := h
      solid := fun i => .inr (hfree i)
      restored := fun t _ => hinit t }
  refine always_iff_meets (fun _ hs => Restoring.restored hs) ?_ ?_ hstart
  · intro s e s' hs hguard hstep
    obtain ⟨hsolid, hiff⟩ := restored_step hs.queued hs.solid hs.restored hstep
    exact ⟨queued_step hs.queued hstep, hsolid, hiff.mpr hguard⟩
  · intro s e s' hs hstep hrestored
    exact (restored_step hs.queued hs.solid hs.restored hstep).2.mp hrestored

/-- Every thread is at the priority it was started with. -/
def AtInitPriority (sched : Sched) : Prop :=
  ∀ t, (sched.thread t).currentPriority = (sched.thread t).initPriority

theorem AtInitPriority.modify {f : Thread → Thread} (h : AtInitPriority sched)
    (hf : (f (sched.thread t)).currentPriority = (f (sched.thread t)).initPriority) :
    AtInitPriority (sched.modify t f) := by
  intro u
  by_cases hu : u = t
  · rw [hu, modify_thread_self]
    exact hf
  · rw [modify_thread_of_ne _ hu]
    exact h u

theorem AtInitPriority.rtThreadResume (h : AtInitPriority sched) :
    AtInitPriority (sched.rtThreadResume t).2 := by
  unfold Sched.rtThreadResume
  split
  · have hunlink : AtInitPriority ((sched.unlink t).modify t ({ · with timerActive := false })) :=
      AtInitPriority.modify (fun u => h u) (h t)
    have hready : AtInitPriority (((sched.unlink t).modify t
        ({ · with timerActive := false })).modify t ({ · with stat := .ready })) :=
      hunlink.modify (hunlink t)
    exact hready
  · exact h

theorem AtInitPriority.rtSchedule (h : AtInitPriority sched) (hs : sched.rtSchedule = some sched') :
    AtInitPriority sched' := by
  unfold Sched.rtSchedule at hs
  split at hs
  · obtain ⟨u, -, rfl⟩ := map_eq_some_iff.mp hs
    exact h
  · exact some.inj hs ▸ h

theorem atInitPriority_starting {threads : List (ℕ × ℕ)} {event : ThreadEvent}
    (h : AtInitPriority sched) (he : event ∈ starting threads)
    (hs : sched.threadStep event = some sched') : AtInitPriority sched' := by
  rcases mem_append.mp he with he | he
  · obtain ⟨⟨u, priority⟩, -, he⟩ := mem_flatMap.mp he
    rcases mem_cons.mp he with rfl | he
    · obtain ⟨-, hs⟩ := ite_none_right_eq_some.mp hs
      obtain ⟨-, hs⟩ := ite_none_left_eq_some.mp hs
      exact some.inj hs ▸ h.modify rfl
    · rw [mem_singleton.mp he] at hs
      simp only [threadStep, rtThreadStartup, scheduleIfRunning] at hs
      have hresumed : AtInitPriority ((sched.setStarted u).rtThreadResume u).2 :=
        (h.modify rfl : AtInitPriority (sched.setStarted u)).rtThreadResume
      obtain ⟨-, hs⟩ := ite_none_right_eq_some.mp hs
      split at hs
      · exact some.inj hs ▸ hresumed
      · exact hresumed.rtSchedule hs
  · rw [mem_singleton.mp he] at hs
    obtain ⟨u, -, rfl⟩ := map_eq_some_iff.mp hs
    exact h

theorem atInitPriority_started (threads : List (ℕ × ℕ)) : AtInitPriority (started threads) := by
  unfold started
  cases hrun : run threadStep boot (starting threads) with
  | none => exact fun _ => rfl
  | some sched =>
    have hboot : AtInitPriority boot := fun _ => rfl
    exact Meets.invariant (fun _ _ _ h he hs => atInitPriority_starting h he hs)
      (meets_of_forall fun _ _ he => he) hrun hboot

/-- Thread 2 raises thread 1 and gets the mutex from it. -/
theorem priority_restored_two :
    Always step (Restored fun t => ((started [(1, 20), (2, 5)]).thread t).initPriority)
      (fresh (started [(1, 20), (2, 5)]))
      [.call 1 (.mutexTake 0 (-1)), .call 2 (.mutexTake 0 (-1)), .call 1 (.mutexRelease 0)] := by
  have hqueued := queued_fresh [(1, 20), (2, 5)]
  refine (priority_restored_iff hqueued (fun _ => ⟨rfl, rfl⟩)
    (atInitPriority_started [(1, 20), (2, 5)]) _).mpr ?_
  have hsaved : (run step (fresh (started [(1, 20), (2, 5)]))
      [.call 1 (.mutexTake 0 (-1)), .call 2 (.mutexTake 0 (-1))]).map
        (fun s => (s.mutex 0).originalPriority) = some 20 := by decide +kernel
  have hbase : ((started [(1, 20), (2, 5)]).thread 1).initPriority = 20 := by decide +kernel
  intro s hs
  refine ⟨trivial, fun s' hs' => ⟨trivial, fun s'' hs'' => ⟨fun _ _ _ => ?_, trivial⟩⟩⟩
  have hrun : run step (fresh (started [(1, 20), (2, 5)]))
      [.call 1 (.mutexTake 0 (-1)), .call 2 (.mutexTake 0 (-1))] = some s' := by
    simp only [run, hs, hs', bind_some]
  rw [hrun] at hsaved
  exact (some.inj hsaved).trans hbase.symm

theorem mutex_step_of_ne (hqueued : s.sched.Queued) (he : e.mutex ≠ some k)
    (hs : s.step e = some s') : s'.mutex k = s.mutex k := by
  have hupdate {i : ℕ} {m : Mutex} (hmutex : s'.mutex = update s.mutex i m)
      (hne : some i ≠ some k) :
      s'.mutex k = s.mutex k := by
    rw [hmutex, update_of_ne fun hk => hne (congrArg some hk.symm)]
  rcases step_mutex_cases hqueued hs with
    he | ⟨t, i, time, rfl, htaken⟩ | ⟨t, i, rfl, -, hreleased⟩
  · rw [mutex_step hqueued he hs]
  · cases htaken with
    | nested _ _ hmutex | acquired _ _ _ hmutex => exact hupdate hmutex he
    | refused _ _ _ _ hmutex | waited _ _ _ _ _ _ _ _ _ hmutex => rw [hmutex]
  · cases hreleased with
    | denied _ _ hmutex => rw [hmutex]
    | nested _ _ _ hmutex | freed _ _ _ _ _ _ _ hmutex | handed _ _ _ _ _ _ _ _ _ hmutex =>
      exact hupdate hmutex he

theorem mutex_run_of_ne {events : List Event} (hqueued : s.sched.Queued)
    (he : ∀ e ∈ events, e.mutex ≠ some k) (hrun : run kernelStep s events = some s') :
    s'.mutex k = s.mutex k := by
  have hmeets : Meets kernelStep (fun _ e => e.mutex ≠ some k) s events :=
    meets_of_forall fun _ => he
  have hstep : ∀ s₁ e s₂, s₁.sched.Queued ∧ s₁.mutex k = s.mutex k → e.mutex ≠ some k →
      kernelStep s₁ e = some s₂ → s₂.sched.Queued ∧ s₂.mutex k = s.mutex k := by
    intro s₁ e s₂ h he hs
    have hs := step_of_kernelStep hs
    exact ⟨queued_step h.1 hs, (mutex_step_of_ne h.1 he hs).trans h.2⟩
  exact (hmeets.invariant hstep hrun ⟨hqueued, rfl⟩).2

/-- The threads 1 and 2 have the priorities 20 and 5.  Thread 1 holds mutex 0, is raised to 5
by thread 2 and takes mutex 1.  It releases mutex 0, which brings it back to 20, and then
mutex 1, which brings it to 5 although it holds nothing any more. -/
theorem release_restores_raised :
    ∃ s, run kernelStep (fresh (started [(1, 20), (2, 5)]))
        [.call 2 (.sleep 3), .call 1 (.mutexTake 0 (-1)), .timeout 2, .resume 2,
          .call 2 (.mutexTake 0 (-1)), .call 1 (.mutexTake 1 (-1)), .call 1 (.mutexRelease 0),
          .resume 2, .call 2 (.sleep 3), .call 1 (.mutexRelease 1)] = some s ∧
      (∀ i, (s.mutex i).owner ≠ some 1) ∧
      (s.sched.thread 1).initPriority = 20 ∧ (s.sched.thread 1).currentPriority = 5 := by
  refine exists_of_any (fun s => (s.mutex 0).owner = some 2 ∧ (s.mutex 1).owner = none ∧
    (s.sched.thread 1).initPriority = 20 ∧ (s.sched.thread 1).currentPriority = 5)
    (by decide +kernel) ?_
  rintro s hs ⟨hzero, hone, hpriority⟩
  refine ⟨fun i => ?_, hpriority⟩
  match i with
  | 0 => rw [hzero]; decide
  | 1 => rw [hone]; decide
  | i + 2 =>
    have hother : s.mutex (i + 2) = (fresh (started [(1, 20), (2, 5)])).mutex (i + 2) :=
      mutex_run_of_ne (queued_started [(1, 20), (2, 5)])
        (by simp [Event.mutex, Call.mutex]) hs
    rw [hother]
    exact (some_ne_none 1).symm

end Easyio.Kernel.Ipc
