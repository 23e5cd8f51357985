import Easyio.Kernel.Steps

/-!
# Preemption

While the scheduler is not locked, a thread that is back from a call is to be one of the
highest priority among the ready ones (`Preempts`).  Every function of `ipc.c` that makes a
thread ready calls `rt_schedule`.  `rt_mutex_release` also lowers the priority of its caller,
and calls `rt_schedule` only if it has made a thread ready: `PreemptGuard` is what a last
release for which nobody waits has to find, and it is exact (`preemption_iff`).
-/

namespace Easyio.Kernel

open Function List Option Runs.Partial

namespace Sched

variable {s s' : Sched}

/-- No ready thread has a higher priority than the current one. -/
def Highest (s : Sched) : Prop :=
  ∀ t, s.currentThread = some t → ∀ u, (s.thread u).stat = .ready →
    (s.thread t).currentPriority ≤ (s.thread u).currentPriority

/-- The ready threads are in the lists that are not empty. -/
theorem Queued.le_priority (h : Queued s) {p : ℕ} (hlow : ∀ q < p, s.table q = []) {u : ℕ}
    (hu : (s.thread u).stat = .ready) : p ≤ (s.thread u).currentPriority := by
  have hin : u ∈ s.table (s.thread u).currentPriority := (h.ready u _).mpr ⟨hu, rfl⟩
  refine Nat.le_of_not_lt fun hlt => ?_
  rw [hlow _ hlt] at hin
  exact not_mem_nil hin

/-- `rt_schedule` takes a thread of the highest priority. -/
theorem Scheduled.highest (h : Scheduled s') (hlock : s'.schedulerLockNest = 0) : Highest s' := by
  obtain ⟨r, hr, hs⟩ := h
  rw [(effect_rtSchedule hs).kept.lock] at hlock
  rw [rtSchedule, if_pos hlock] at hs
  obtain ⟨t, ht, rfl⟩ := map_eq_some_iff.mp hs
  intro u hu v hv
  obtain rfl : t = u := some.inj hu
  obtain ⟨p, -, ⟨rest, hlist⟩, hlow⟩ := toThread_spec hr.group ht
  have hp : (r.thread t).currentPriority = p := ((hr.ready t p).mp (hlist ▸ mem_cons_self)).2
  rw [hp]
  exact hr.le_priority hlow hv

theorem Highest.of_view (h : Highest s) (hview : s'.view = s.view)
    (hcurrent : s'.currentThread = s.currentThread) : Highest s' := by
  have hstat : ∀ u, (s'.thread u).stat = (s.thread u).stat := congrFun (congrArg View.stat hview)
  have hpriority : ∀ u, (s'.thread u).currentPriority = (s.thread u).currentPriority :=
    congrFun (congrArg View.priority hview)
  intro t ht u hu
  rw [hpriority, hpriority]
  exact h t (hcurrent ▸ ht) u (hstat u ▸ hu)

theorem Highest.still (h : Highest s) (hstill : Still s s') : Highest s' :=
  h.of_view hstill.view hstill.current

theorem Settles.highest (hsettles : Settles s s') (h : Highest s)
    (hunlocked : s.schedulerLockNest = 0) : Highest s' :=
  hsettles.2.elim (fun hsame => h.of_view hsame.1 hsame.2) fun hscheduled =>
    hscheduled.highest (hsettles.1.trans hunlocked)

/-- The current thread gets another priority. -/
theorem highest_setPriority_iff {t priority : ℕ} (hcurrent : s'.currentThread = some t)
    (hview : s'.view = s.view.setPriority t priority) :
    Highest s' ↔ ∀ u ≠ t, (s.thread u).stat = .ready →
      priority ≤ (s.thread u).currentPriority := by
  have hstat : ∀ u, (s'.thread u).stat = (s.thread u).stat := congrFun (congrArg View.stat hview)
  have hpriority : s'.view.priority = update s.view.priority t priority :=
    congrArg View.priority hview
  have hself : (s'.thread t).currentPriority = priority :=
    (congrFun hpriority t).trans (update_self ..)
  have hother : ∀ u ≠ t, (s'.thread u).currentPriority = (s.thread u).currentPriority :=
    fun u hu => (congrFun hpriority u).trans (update_of_ne hu ..)
  refine ⟨fun h u hne hu => ?_, fun h v hv u hu => ?_⟩
  · have := h t hcurrent u (hstat u ▸ hu)
    rwa [hself, hother u hne] at this
  · obtain rfl : t = v := some.inj (hcurrent.symm.trans hv)
    rw [hself]
    by_cases hne : u = t
    · rw [hne, hself]
    · rw [hother u hne]
      exact h u hne (hstat u ▸ hu)

end Sched

namespace Ipc

variable {s s' : Ipc} {e : Event} {t i : ℕ}

/-- When the thread that runs is back from its call, no ready thread has a higher
priority. -/
def Preempts (s : Ipc) : Prop :=
  ∀ t, s.sched.currentThread = some t → (s.pc t).isReturned →
    ∀ u, (s.sched.thread u).stat = .ready →
      (s.sched.thread t).currentPriority ≤ (s.sched.thread u).currentPriority

/-- What a step has to find: if it is the last release of a mutex for which nobody waits,
no other ready thread has a higher priority than the caller gets. -/
def PreemptGuard (s : Ipc) : Event → Prop
  | .call t (.mutexRelease i) =>
    (s.mutex i).owner = some t → ((s.mutex i).hold + (2 ^ 8 - 1)) % 2 ^ 8 = 0 →
      s.sched.waiting (.mutex i) = [] →
      ∀ u ≠ t, (s.sched.thread u).stat = .ready →
        (s.mutex i).originalPriority ≤ (s.sched.thread u).currentPriority
  | _ => True

theorem returned_rtMutexRelease (hs : s.rtMutexRelease t i = some s') : (s'.pc t).isReturned := by
  have hret : ∀ (r : Ipc) (err : Err), ((r.ret t err .none).pc t).isReturned := by
    intro r err
    rw [show (r.ret t err .none).pc t = .returned err .none from update_self ..]
    rfl
  unfold rtMutexRelease at hs
  split at hs
  · exact some.inj hs ▸ hret _ _
  split at hs
  · obtain ⟨r, -, rfl⟩ := map_eq_some_iff.mp hs
    exact hret r .eok
  · exact some.inj hs ▸ hret _ _

structure Preempting (s : Ipc) : Prop where
  queued : s.sched.Queued
  unlocked : s.sched.schedulerLockNest = 0
  highest : s.sched.Highest

theorem Preempting.take {time : ℤ} (h : Preempting s) (htaken : MutexTaken s t i time s') :
    Preempting s' := by
  have hstill (hstill : s.sched.Still s'.sched) : Preempting s' :=
    ⟨hstill.queued, hstill.lock.trans h.unlocked, h.highest.still hstill⟩
  cases htaken with
  | nested _ h' _ | acquired _ _ h' _ | refused _ _ _ h' _ => exact hstill h'
  | waited o howner hne hvalue htime hqueued hview hlock hscheduled hmutex =>
    have hunlocked := hlock.trans h.unlocked
    exact ⟨hqueued, hunlocked, hscheduled.highest hunlocked⟩

theorem Preempting.release (h : Preempting s) (hcurrent : s.sched.currentThread = some t)
    (hreleased : MutexReleased s t i s') (hreturned : (s'.pc t).isReturned) :
    (PreemptGuard s (.call t (.mutexRelease i)) → Preempting s') ∧
      (Preempts s' → PreemptGuard s (.call t (.mutexRelease i))) := by
  cases hreleased with
  | denied howner hstill hmutex =>
    exact ⟨fun _ => ⟨hstill.queued, hstill.lock.trans h.unlocked, h.highest.still hstill⟩,
      fun _ ho => absurd ho howner⟩
  | nested howner hmore hsched hmutex =>
    refine ⟨fun _ => ?_, fun _ _ hlast => absurd hlast hmore⟩
    exact ⟨hsched ▸ h.queued, hsched ▸ h.unlocked, hsched ▸ h.highest⟩
  | freed howner hlast hempty hqueued hview hlock hcurrent' hmutex =>
    have hrunning := hcurrent'.trans hcurrent
    have hiff := Sched.highest_setPriority_iff hrunning hview
    refine ⟨fun hguard => ?_, fun hpreempts _ _ _ => hiff.mp fun v hv => ?_⟩
    · exact ⟨hqueued, hlock.trans h.unlocked, hiff.mpr (hguard howner hlast hempty)⟩
    · obtain rfl : t = v := some.inj (hrunning.symm.trans hv)
      exact hpreempts t hv hreturned
  | handed u rest howner hlast hlist hqueued hview hlock hscheduled hmutex =>
    have hunlocked := hlock.trans h.unlocked
    refine ⟨fun _ => ⟨hqueued, hunlocked, hscheduled.highest hunlocked⟩, fun _ _ _ hempty => ?_⟩
    exact absurd (hlist.symm.trans hempty) (cons_ne_nil u rest)

theorem Preempting.step (h : Preempting s) (hs : kernelStep s e = some s') :
    (PreemptGuard s e → Preempting s') ∧ (Preempts s' → PreemptGuard s e) := by
  obtain ⟨hcurrent, hs⟩ := ite_none_right_eq_some.mp hs
  by_cases he : ∃ t i, e = .call t (.mutexRelease i)
  · obtain ⟨t, i, rfl⟩ := he
    obtain ⟨-, hs⟩ := ite_none_right_eq_some.mp hs
    exact h.release (of_decide_eq_true hcurrent) (mutexReleased h.queued hs)
      (returned_rtMutexRelease hs)
  · have hguard : PreemptGuard s e := by
      unfold PreemptGuard
      split
      · exact absurd ⟨_, _, rfl⟩ he
      · trivial
    refine ⟨fun _ => ?_, fun _ => hguard⟩
    rcases step_cases h.queued hs with hplain | ⟨t, -, htimeout⟩ | ⟨t, i, time, -, -, htaken⟩ |
      ⟨t, i, rfl, -, -⟩
    · have hsettles := hplain.stepped.settles
      exact ⟨hplain.stepped.queued, hsettles.1.trans h.unlocked,
        hsettles.highest h.highest h.unlocked⟩
    · have hunlocked := htimeout.lock.trans h.unlocked
      exact ⟨htimeout.queued, hunlocked, htimeout.scheduled.highest hunlocked⟩
    · exact h.take htaken
    · exact absurd ⟨t, i, rfl⟩ he

/-- **Preemption.**  Start with the scheduler unlocked and a current thread of the highest
priority.  In every run of the kernel, of any calls of any threads with timeouts and clock
interrupts in between, no ready thread has in any state a higher priority than the current
one if that is back from its call, if and only if every last release of a mutex for which
nobody waits finds no other ready thread of a higher priority than it gives its caller. -/
theorem preemption_iff (h : s.sched.Queued) (hunlocked : s.sched.schedulerLockNest = 0)
    (hhighest : s.sched.Highest) (events : List Event) :
    Always kernelStep Preempts s events ↔ Meets kernelStep PreemptGuard s events :=
  have hstart : Preempting s := ⟨h, hunlocked, hhighest⟩
  always_iff_meets (fun _ hs t ht _ => hs.highest t ht)
    (fun _ _ _ hs hguard hstep => (Preempting.step hs hstep).1 hguard)
    (fun _ _ _ hs hstep => (Preempting.step hs hstep).2) hstart

/-- A thread takes a mutex and releases it. -/
theorem preemption_take_release :
    Always kernelStep Preempts (fresh (started [(1, 20), (2, 15)]))
      [.call 2 (.mutexTake 0 0), .call 2 (.mutexRelease 0)] := by
  have hqueued := queued_fresh [(1, 20), (2, 15)]
  have hlow : ∀ q < 15, (started [(1, 20), (2, 15)]).table q = [] := by decide +kernel
  have hhighest : (fresh (started [(1, 20), (2, 15)])).sched.Highest := by
    intro t ht u hu
    obtain rfl : 2 = t := some.inj ht
    exact hqueued.le_priority hlow hu
  refine (preemption_iff hqueued rfl hhighest _).mpr
    fun s hs => ⟨trivial, fun s' hs' => ⟨fun _ _ _ u _ hu => ?_, trivial⟩⟩
  have htaken : (kernelStep (fresh (started [(1, 20), (2, 15)])) (.call 2 (.mutexTake 0 0))).map
      (fun s => ((s.mutex 0).originalPriority,
        (List.range 15).all fun q => (s.sched.table q).isEmpty)) = some (15, true) := by
    decide +kernel
  rw [hs, map_some, some.injEq, Prod.mk.injEq, List.all_eq_true] at htaken
  have hlow' : ∀ q < 15, s.sched.table q = [] := fun q hq =>
    List.isEmpty_iff.mp (htaken.2 q (List.mem_range.mpr hq))
  rw [htaken.1]
  have hstep : step (fresh (started [(1, 20), (2, 15)])) (.call 2 (.mutexTake 0 0)) = some s := hs
  exact (queued_step hqueued hstep).le_priority hlow' hu

/-- Thread 3, of priority 10, waits for the mutex of thread 1, of priority 20, until its
time is over.  Thread 1 then releases the mutex, and runs on with priority 20 although
thread 3 is ready. -/
theorem release_without_schedule :
    ∃ s, run kernelStep (fresh (started [(1, 20), (3, 10)]))
        [.call 3 (.sleep 5), .call 1 (.mutexTake 0 (-1)), .timeout 3, .resume 3,
          .call 3 (.mutexTake 0 5), .timeout 3, .call 1 (.mutexRelease 0)] = some s ∧
      s.sched.schedulerLockNest = 0 ∧
      s.sched.currentThread = some 1 ∧ (s.pc 1).isReturned ∧
      (s.sched.thread 3).stat = .ready ∧
      (s.sched.thread 3).currentPriority < (s.sched.thread 1).currentPriority :=
  exists_of_any _ (by decide +kernel) fun _ _ h => h

end Ipc

end Easyio.Kernel
