import Easyio.Kernel.MutexOwner

/-!
# Priority inheritance

The owner of a mutex is to have at least the priority of every thread that waits for it
(`Inherits`).  `rt_mutex_take` raises the owner, but not the owners that the owner itself
waits for; the last `rt_mutex_release` sets the priority of the time of the take, whatever
other mutexes the thread holds, and hands the mutex to the first thread of the list,
whatever the others are.  `InheritGuard` is what a step has to find for none of this to
matter, and it is exact (`inheritance_iff`).
-/

namespace Easyio.Kernel

open List Option Runs.Partial Sched View
open Function (update update_eq_self update_of_ne update_self)

namespace Ipc

variable {s s' : Ipc} {e : Event}

/-- The owner of each mutex has at least the priority, that is at most the number, of every
thread that waits for it. -/
def Inherits (s : Ipc) : Prop :=
  ∀ i o, (s.mutex i).owner = some o → ∀ u ∈ s.sched.waiting (.mutex i),
    (s.sched.thread o).currentPriority ≤ (s.sched.thread u).currentPriority

/-- What a step has to find.  When a thread is going to wait and raises the owner `o`,
then a thread for whose mutex `o` waits has at least the new priority already.  When a
thread gives a mutex up, the priority it had before is enough for the other mutexes it
owns, and the first thread that waits has the highest priority. -/
def InheritGuard (s : Ipc) : Event → Prop
  | .call t (.mutexTake i time) =>
    ∀ o, (s.mutex i).owner = some o → o ≠ t → (s.mutex i).value = 0 → time ≠ 0 →
      (s.sched.thread t).currentPriority < (s.sched.thread o).currentPriority →
      ∀ k p, (s.mutex k).owner = some p → p ≠ o → o ∈ s.sched.waiting (.mutex k) →
        (s.sched.thread p).currentPriority ≤ (s.sched.thread t).currentPriority
  | .call t (.mutexRelease i) =>
    (s.mutex i).owner = some t → ((s.mutex i).hold + (2 ^ 8 - 1)) % 2 ^ 8 = 0 →
      (∀ k ≠ i, (s.mutex k).owner = some t → ∀ u ∈ s.sched.waiting (.mutex k),
        (s.mutex i).originalPriority ≤ (s.sched.thread u).currentPriority) ∧
      ∀ u rest, s.sched.waiting (.mutex i) = u :: rest → ∀ v ∈ rest,
        (s.sched.thread u).currentPriority ≤ (s.sched.thread v).currentPriority
  | _ => True

/-- Nobody waits for a mutex that is free. -/
structure MutexSound (s : Ipc) : Prop where
  queued : s.sched.Queued
  free : ∀ i, (s.mutex i).owner = none → (s.mutex i).value = 1 ∧ s.sched.waiting (.mutex i) = []
  held : ∀ i o, (s.mutex i).owner = some o → (s.mutex i).value = 0

/-- Steps that leave the owners and the priorities, and let nobody wait for a mutex. -/
structure Frames (s s' : Ipc) : Prop where
  owner : ∀ i, (s'.mutex i).owner = (s.mutex i).owner ∧ (s'.mutex i).value = (s.mutex i).value
  priority : s'.sched.view.priority = s.sched.view.priority
  waiting : ∀ i, (s'.sched.waiting (.mutex i)).Sublist (s.sched.waiting (.mutex i))

theorem Frames.inherits (h : Frames s s') (hs : Inherits s) : Inherits s' := by
  intro i o ho u hu
  rw [(h.owner i).1] at ho
  have := hs i o ho u ((h.waiting i).subset hu)
  change s'.sched.view.priority o ≤ s'.sched.view.priority u
  rw [h.priority]
  exact this

theorem Frames.sound (h : Frames s s') (hs : MutexSound s) (hqueued : s'.sched.Queued) :
    MutexSound s' := by
  refine ⟨hqueued, fun i hi => ?_, fun i o ho => ?_⟩
  · rw [(h.owner i).1] at hi
    obtain ⟨hvalue, hnil⟩ := hs.free i hi
    exact ⟨(h.owner i).2.trans hvalue, eq_nil_of_sublist_nil (hnil ▸ h.waiting i)⟩
  · rw [(h.owner i).1] at ho
    exact (h.owner i).2.trans (hs.held i o ho)

end Ipc

variable {flag : Wait → Ipc.Flag} {on : Option Wait} {v v' : View}

theorem Move.priority (h : Move flag on v v') : v'.priority = v.priority := by
  cases h with
  | same => rfl
  | blocked w t hon hw ht => rfl
  | woken w t rest hw hlist => rfl
  | sent i ts hsub =>
    clear hsub
    induction ts generalizing v with
    | nil => rfl
    | cons t ts ih => exact ih
  | parked t ht => rfl

theorem Move.waiting_mutex (h : Move flag on v v') (i : ℕ) :
    (v'.waiting (.mutex i)).Sublist (v.waiting (.mutex i)) := by
  cases h with
  | same | parked t ht => exact .refl _
  | blocked w t hon hw ht =>
    change (update v.waiting w _ (.mutex i)).Sublist _
    rw [update_of_ne (hw i).symm]
  | woken w t rest hw hlist => exact erase_sublist
  | sent j ts hsub => exact foldl_resume_sublist v ts (.mutex i)

namespace Ipc

variable {s s' : Ipc} {e : Event} {t i priority original : ℕ}

theorem frames_step (h : s.sched.Queued) (he : e.mutex = none) (hs : s.step e = some s') :
    Frames s s' := by
  have hmutex := mutex_step h he hs
  refine ⟨fun i => by rw [hmutex]; exact ⟨rfl, rfl⟩, ?_, ?_⟩
  all_goals
    rcases step_cases h hs with hplain | ⟨t, -, htimeout⟩ | ⟨t, i, time, rfl, -, -⟩ |
      ⟨t, i, rfl, -, -⟩
  · exact hplain.stepped.move.priority
  · rw [htimeout.view]
    rfl
  · cases he
  · cases he
  · exact hplain.stepped.move.waiting_mutex
  · intro i
    rw [show s'.sched.waiting = _ from congrArg View.waiting htimeout.view]
    exact erase_sublist
  · cases he
  · cases he

theorem frames_of_still {m : Mutex} (hstill : s.sched.Still s'.sched)
    (hmutex : s'.mutex = update s.mutex i m)
    (hm : m.owner = (s.mutex i).owner ∧ m.value = (s.mutex i).value) : Frames s s' := by
  refine ⟨fun j => ?_, by rw [hstill.view], fun j => ?_⟩
  · rw [hmutex]
    by_cases hj : j = i
    · rw [hj, update_self]
      exact hm
    · rw [update_of_ne hj]
      exact ⟨rfl, rfl⟩
  · rw [show s'.sched.waiting = s.sched.waiting from congrArg View.waiting hstill.view]

section

variable (hsound : MutexSound s) (hinherits : Inherits s)
include hsound hinherits

theorem acquire_step (hvalue : 0 < (s.mutex i).value) (hstill : s.sched.Still s'.sched)
    (hmutex : s'.mutex = update s.mutex i
      ({ s.mutex i with value := (s.mutex i).value - 1 }.acquire t priority)) :
    MutexSound s' ∧ Inherits s' := by
  have hview := hstill.view
  have hwaiting : s'.sched.waiting = s.sched.waiting := congrArg View.waiting hview
  have hnone : (s.mutex i).owner = none := by
    cases howner : (s.mutex i).owner with
    | none => rfl
    | some o => exact absurd (hsound.held i o howner) (Nat.ne_of_gt hvalue)
  obtain ⟨hone, hnil⟩ := hsound.free i hnone
  have hself : s'.mutex i =
      { s.mutex i with value := (s.mutex i).value - 1 }.acquire t priority := by
    rw [hmutex, update_self]
  have hother : ∀ j ≠ i, s'.mutex j = s.mutex j := fun j hj => by
    rw [hmutex, update_of_ne hj]
  refine ⟨⟨hstill.queued, fun j hj => ?_, fun j o ho => ?_⟩, fun j o ho u hu => ?_⟩
  · by_cases hji : j = i
    · rw [hji, hself] at hj
      cases hj
    · rw [hother j hji] at hj ⊢
      rw [hwaiting]
      exact hsound.free j hj
  · by_cases hji : j = i
    · rw [hji, hself]
      change (s.mutex i).value - 1 = 0
      rw [hone]
    · rw [hother j hji] at ho ⊢
      exact hsound.held j o ho
  · by_cases hji : j = i
    · rw [hji, hwaiting, hnil] at hu
      cases hu
    · rw [hother j hji] at ho
      rw [hwaiting] at hu
      change s'.sched.view.priority o ≤ s'.sched.view.priority u
      rw [hview]
      exact hinherits j o ho u hu

/-- A thread waits for a mutex and may raise its owner. -/
theorem wait_step {o : ℕ} {flag : Flag}
    (howner : (s.mutex i).owner = some o) (hne : o ≠ t) (hqueued : s'.sched.Queued)
    (hview : s'.sched.view = (s.sched.view.raise o t).suspend (.mutex i) t flag)
    (hmutex : s'.mutex = s.mutex) :
    MutexSound s' ∧ (Inherits s' ↔
      (s.sched.view.priority t < s.sched.view.priority o →
        ∀ k p, (s.mutex k).owner = some p → p ≠ o → o ∈ s.sched.waiting (.mutex k) →
          s.sched.view.priority p ≤ s.sched.view.priority t)) := by
  set old := s.sched.view.priority
  set new := s'.sched.view.priority with hnew
  have hpriority : new = (s.sched.view.raise o t).priority := by rw [hnew, hview]; rfl
  have hother : ∀ u ≠ o, new u = old u := by
    intro u hu
    rw [hpriority, View.raise]
    split
    · exact update_of_ne hu ..
    · rfl
  have hraised : old t < old o → new o = old t := by
    intro hlt
    rw [hpriority, View.raise, if_pos hlt]
    exact update_self ..
  have hsame : ¬ old t < old o → new o = old o := by
    intro hlt
    rw [hpriority, View.raise, if_neg hlt]
  have hwaiting : ∀ k, s'.sched.waiting (.mutex k) =
      if k = i then place new t (s.sched.waiting (.mutex i)) flag
      else s.sched.waiting (.mutex k) := by
    intro k
    have hlist : s'.sched.waiting = update s.sched.waiting (.mutex i)
        (place new t (s.sched.waiting (.mutex i)) flag) := by
      have hraise : (s.sched.view.raise o t).waiting = s.sched.waiting :=
        raise_waiting s.sched.view o t
      rw [hpriority, ← hraise]
      exact congrArg View.waiting hview
    rw [hlist]
    split
    · rename_i hk
      rw [hk, update_self]
    · rename_i hk
      rw [update_of_ne fun he => hk (Wait.mutex.inj he)]
  have hmem : ∀ k u, u ∈ s'.sched.waiting (.mutex k) ↔
      u ∈ s.sched.waiting (.mutex k) ∨ u = t ∧ k = i := by
    intro k u
    rw [hwaiting]
    split
    · rename_i hk
      rw [mem_place, hk, or_comm, and_iff_left rfl]
    · rename_i hk
      exact ⟨.inl, fun hin => hin.resolve_right fun hand => hk hand.2⟩
  refine ⟨⟨hqueued, fun k hk => ?_, fun k p hp => ?_⟩, fun h hlt k p hp hpo hin => ?_,
    fun h k p hp u hu => ?_⟩
  · rw [hmutex] at hk ⊢
    have hki : k ≠ i := by
      rintro rfl
      exact some_ne_none o (howner.symm.trans hk)
    rw [hwaiting, if_neg hki]
    exact hsound.free k hk
  · rw [hmutex] at hp ⊢
    exact hsound.held k p hp
  · have := h k p (hmutex ▸ hp) o ((hmem k o).mpr (.inl hin))
    change new p ≤ new o at this
    rwa [hother p hpo, hraised hlt] at this
  · -- the priority of `o` may have got higher, that of nobody else has changed
    rw [hmutex] at hp
    change new p ≤ new u
    rcases (hmem k u).mp hu with hin | ⟨rfl, rfl⟩
    · have hbefore : old p ≤ old u := hinherits k p hp u hin
      by_cases hpo : p = o
      · subst hpo
        by_cases hup : u = p
        · rw [hup]
        · rw [hother u hup]
          by_cases hlt : old t < old p
          · omega
          · rw [hsame hlt]
            exact hbefore
      · rw [hother p hpo]
        by_cases huo : u = o
        · subst huo
          by_cases hlt : old t < old u
          · rw [hraised hlt]
            exact h hlt k p hp hpo hin
          · rw [hsame hlt]
            exact hbefore
        · rw [hother u huo]
          exact hbefore
    · obtain rfl : o = p := some.inj (howner.symm.trans hp)
      rw [hother u hne.symm]
      by_cases hlt : old u < old o
      · rw [hraised hlt]
      · omega

section

variable (ht : (s.sched.thread t).stat = .ready)
include ht

/-- When the thread `t` gives the mutex `i` up and gets the priority `original`, the other
mutexes are in order if and only if that is enough for those that `t` owns. -/
theorem others_iff (hpriority : s'.sched.view.priority = update s.sched.view.priority t original)
    (hmutex : ∀ k ≠ i, s'.mutex k = s.mutex k)
    (hwaiting : ∀ k ≠ i, s'.sched.waiting (.mutex k) = s.sched.waiting (.mutex k)) :
    (∀ k ≠ i, ∀ o, (s'.mutex k).owner = some o → ∀ u ∈ s'.sched.waiting (.mutex k),
        s'.sched.view.priority o ≤ s'.sched.view.priority u) ↔
      ∀ k ≠ i, (s.mutex k).owner = some t → ∀ u ∈ s.sched.waiting (.mutex k),
        original ≤ s.sched.view.priority u := by
  have hother : ∀ u ≠ t, s'.sched.view.priority u = s.sched.view.priority u := by
    intro u hu
    rw [hpriority, update_of_ne hu]
  have hself : s'.sched.view.priority t = original := by
    rw [hpriority, update_self]
  have hwaits : ∀ k, ∀ u ∈ s.sched.waiting (.mutex k), u ≠ t := fun _ =>
    hsound.queued.ne_of_waiting ht
  refine ⟨fun h k hk ho u hu => ?_, fun h k hk o ho u hu => ?_⟩
  · have := h k hk t ((hmutex k hk).symm ▸ ho) u ((hwaiting k hk).symm ▸ hu)
    rwa [hself, hother u (hwaits k u hu)] at this
  · rw [hmutex k hk] at ho
    rw [hwaiting k hk] at hu
    rw [hother u (hwaits k u hu)]
    by_cases hot : o = t
    · subst hot
      rw [hself]
      exact h k hk ho u hu
    · rw [hother o hot]
      exact hinherits k o ho u hu

theorem free_step (howner : (s.mutex i).owner = some t)
    (hempty : s.sched.waiting (.mutex i) = []) (hqueued : s'.sched.Queued)
    (hview : s'.sched.view = s.sched.view.setPriority t original)
    (hmutex : s'.mutex = update s.mutex i (s.mutex i).giveUp) :
    MutexSound s' ∧ (Inherits s' ↔
      ∀ k ≠ i, (s.mutex k).owner = some t → ∀ u ∈ s.sched.waiting (.mutex k),
        original ≤ s.sched.view.priority u) := by
  have hwaiting : s'.sched.waiting = s.sched.waiting := congrArg View.waiting hview
  have hself : s'.mutex i = (s.mutex i).giveUp := by rw [hmutex, update_self]
  have hother : ∀ k ≠ i, s'.mutex k = s.mutex k := fun k hk => by
    rw [hmutex, update_of_ne hk]
  refine ⟨⟨hqueued, fun k hk => ?_, fun k o ho => ?_⟩, ?_⟩
  · rw [hwaiting]
    by_cases hki : k = i
    · subst hki
      refine ⟨?_, hempty⟩
      rw [hself]
      change ((s.mutex k).value + 1) % 2 ^ 16 = 1
      rw [hsound.held k t howner]
      decide
    · rw [hother k hki] at hk ⊢
      exact hsound.free k hk
  · by_cases hki : k = i
    · rw [hki, hself] at ho
      cases ho
    · rw [hother k hki] at ho ⊢
      exact hsound.held k o ho
  · rw [← others_iff hsound hinherits ht (congrArg priority hview) hother
      fun k _ => congrFun hwaiting _]
    refine ⟨fun h k _ => h k, fun h k o ho => ?_⟩
    by_cases hki : k = i
    · rw [hki, hself] at ho
      cases ho
    · exact h k hki o ho

theorem handOver_step (howner : (s.mutex i).owner = some t) {u : ℕ}
    {rest : List ℕ} (hlist : s.sched.waiting (.mutex i) = u :: rest) (hqueued : s'.sched.Queued)
    (hview : s'.sched.view = (s.sched.view.setPriority t original).resume u)
    (hmutex : s'.mutex = update s.mutex i
      ({ s.mutex i with hold := 0 }.acquire u priority)) :
    MutexSound s' ∧ (Inherits s' ↔
      (∀ k ≠ i, (s.mutex k).owner = some t → ∀ v ∈ s.sched.waiting (.mutex k),
        original ≤ s.sched.view.priority v) ∧
      ∀ v ∈ rest, s.sched.view.priority u ≤ s.sched.view.priority v) := by
  have hu : u ∈ s.sched.waiting (.mutex i) := hlist ▸ mem_cons_self
  have hself : s'.mutex i = { s.mutex i with hold := 0 }.acquire u priority := by
    rw [hmutex, update_self]
  have hother : ∀ k ≠ i, s'.mutex k = s.mutex k := fun k hk => by
    rw [hmutex, update_of_ne hk]
  have herase : ∀ k, s'.sched.waiting (.mutex k) = (s.sched.waiting (.mutex k)).erase u :=
    fun k => congrFun (congrArg View.waiting hview) _
  have hrest : s'.sched.waiting (.mutex i) = rest := by
    rw [herase, hlist, erase_cons_head]
  have hwaiting : ∀ k ≠ i, s'.sched.waiting (.mutex k) = s.sched.waiting (.mutex k) := by
    intro k hk
    rw [herase, erase_of_not_mem fun hin =>
      hk (Wait.mutex.inj (hsound.queued.waitingOnce u _ _ hin hu))]
  have hpriority : s'.sched.view.priority = update s.sched.view.priority t original :=
    congrArg View.priority hview
  have hwaits : ∀ v ∈ s.sched.waiting (.mutex i), v ≠ t := hsound.queued.ne_of_waiting ht
  have hsame : ∀ v ∈ s.sched.waiting (.mutex i),
      s'.sched.view.priority v = s.sched.view.priority v := by
    intro v hv
    rw [hpriority, update_of_ne (hwaits v hv)]
  have hfirst : (∀ v ∈ s'.sched.waiting (.mutex i),
      s'.sched.view.priority u ≤ s'.sched.view.priority v) ↔
        ∀ v ∈ rest, s.sched.view.priority u ≤ s.sched.view.priority v := by
    rw [hrest]
    refine forall₂_congr fun v hv => ?_
    rw [hsame u hu, hsame v (hlist ▸ mem_cons_of_mem u hv)]
  refine ⟨⟨hqueued, fun k hk => ?_, fun k o ho => ?_⟩, ?_⟩
  · by_cases hki : k = i
    · rw [hki, hself] at hk
      cases hk
    · rw [hother k hki] at hk ⊢
      rw [hwaiting k hki]
      exact hsound.free k hk
  · by_cases hki : k = i
    · rw [hki, hself]
      exact hsound.held i t howner
    · rw [hother k hki] at ho ⊢
      exact hsound.held k o ho
  · rw [← others_iff hsound hinherits ht hpriority hother hwaiting, ← hfirst]
    refine ⟨fun h => ⟨fun k _ => h k, h i u (by rw [hself]; rfl)⟩, fun h k o ho => ?_⟩
    by_cases hki : k = i
    · subst hki
      rw [hself] at ho
      obtain rfl : u = o := some.inj ho
      exact h.2
    · exact h.1 k hki o ho

end

/-! ## Runs -/

theorem inherits_take {time : ℤ} (htaken : MutexTaken s t i time s') :
    MutexSound s' ∧ (Inherits s' ↔ InheritGuard s (.call t (.mutexTake i time))) := by
  -- the takes that do not wait
  have hframes (h : Frames s s') (hqueued : s'.sched.Queued)
      (hguard : InheritGuard s (.call t (.mutexTake i time))) :
      MutexSound s' ∧ (Inherits s' ↔ InheritGuard s (.call t (.mutexTake i time))) :=
    ⟨h.sound hsound hqueued, fun _ => hguard, fun _ => h.inherits hinherits⟩
  cases htaken with
  | nested howner hstill hmutex =>
    refine hframes (frames_of_still hstill hmutex ⟨rfl, rfl⟩) hstill.queued fun o ho hne => ?_
    exact absurd (some.inj (ho.symm.trans howner)) hne
  | acquired howner hvalue hstill hmutex =>
    obtain ⟨hsound', hinherits'⟩ := acquire_step hsound hinherits hvalue hstill hmutex
    refine ⟨hsound', fun _ o ho hne hzero => ?_, fun _ => hinherits'⟩
    exact absurd hzero (Nat.ne_of_gt hvalue)
  | refused howner hvalue htime hstill hmutex =>
    rw [← update_eq_self i s.mutex] at hmutex
    refine hframes (frames_of_still hstill hmutex ⟨rfl, rfl⟩) hstill.queued
      fun o ho hne hzero hforever => ?_
    exact absurd htime hforever
  | waited o howner hne hvalue htime hqueued hview hlock hscheduled hmutex =>
    obtain ⟨hsound', hiff⟩ := wait_step hsound hinherits howner hne hqueued hview hmutex
    refine ⟨hsound', hiff.trans ⟨fun h p hp _ _ _ => ?_, fun h => ?_⟩⟩
    · obtain rfl : o = p := some.inj (howner.symm.trans hp)
      exact h
    · exact h o howner hne hvalue htime

theorem inherits_release
    (ht : (s.sched.thread t).stat = .ready) (hreleased : MutexReleased s t i s') :
    MutexSound s' ∧ (Inherits s' ↔ InheritGuard s (.call t (.mutexRelease i))) := by
  cases hreleased with
  | denied howner hstill hmutex =>
    rw [← update_eq_self i s.mutex] at hmutex
    have hframes := frames_of_still hstill hmutex ⟨rfl, rfl⟩
    exact ⟨hframes.sound hsound hstill.queued, fun _ ho => absurd ho howner,
      fun _ => hframes.inherits hinherits⟩
  | nested howner hmore hsched hmutex =>
    have hstill : s.sched.Still s'.sched := by
      rw [hsched]
      exact .refl hsound.queued
    have hframes := frames_of_still hstill hmutex ⟨rfl, rfl⟩
    exact ⟨hframes.sound hsound hstill.queued, fun _ _ hlast => absurd hlast hmore,
      fun _ => hframes.inherits hinherits⟩
  | freed howner hlast hempty hqueued hview hlock hcurrent hmutex =>
    obtain ⟨hsound', hiff⟩ := free_step hsound hinherits ht howner hempty hqueued hview hmutex
    refine ⟨hsound', hiff.trans ⟨fun h _ _ => ⟨h, fun u rest hlist => ?_⟩, fun h => ?_⟩⟩
    · exact absurd (hempty.symm.trans hlist) (cons_ne_nil u rest).symm
    · exact (h howner hlast).1
  | handed u rest howner hlast hlist hqueued hview hlock hscheduled hmutex =>
    obtain ⟨hsound', hiff⟩ := handOver_step hsound hinherits ht howner hlist hqueued hview hmutex
    refine ⟨hsound', hiff.trans ⟨fun h _ _ => ⟨h.1, fun v others hv => ?_⟩, fun h => ?_⟩⟩
    · obtain ⟨rfl, rfl⟩ := cons_eq_cons.mp (hlist.symm.trans hv)
      exact h.2
    · exact ⟨(h howner hlast).1, (h howner hlast).2 u rest hlist⟩

end

theorem step_mutex_cases (hqueued : s.sched.Queued) (hs : s.step e = some s') :
    e.mutex = none ∨
      (∃ t i time, e = .call t (.mutexTake i time) ∧ MutexTaken s t i time s') ∨
      ∃ t i, e = .call t (.mutexRelease i) ∧ (s.sched.thread t).stat = .ready ∧
        MutexReleased s t i s' := by
  cases e with
  | call t call =>
    cases call with
    | mutexTake i time =>
      obtain ⟨hcond, hs⟩ := ite_none_right_eq_some.mp hs
      exact .inr (.inl ⟨t, i, time, rfl, mutexTaken hqueued hcond.1 hs⟩)
    | mutexRelease i =>
      obtain ⟨hcond, hs⟩ := ite_none_right_eq_some.mp hs
      exact .inr (.inr ⟨t, i, rfl, hcond.1, mutexReleased hqueued hs⟩)
    | _ => exact .inl rfl
  | _ => exact .inl rfl

theorem inherits_step (hsound : MutexSound s) (hinherits : Inherits s)
    (hs : s.step e = some s') : MutexSound s' ∧ (Inherits s' ↔ InheritGuard s e) := by
  rcases step_mutex_cases hsound.queued hs with
    he | ⟨t, i, time, rfl, htaken⟩ | ⟨t, i, rfl, ht, hreleased⟩
  · have hframes := frames_step hsound.queued he hs
    have hguard : InheritGuard s e := by
      unfold InheritGuard
      split
      all_goals first | exact trivial | cases he
    exact ⟨hframes.sound hsound (queued_step hsound.queued hs), fun _ => hguard,
      fun _ => hframes.inherits hinherits⟩
  · exact inherits_take hsound hinherits htaken
  · exact inherits_release hsound hinherits ht hreleased

structure Inheriting (s : Ipc) : Prop extends MutexSound s where
  inherits : Inherits s

/-- **Priority inheritance.**  Start with free mutexes for which nobody waits.  In every
run of any calls of any threads, with timeouts and clock interrupts in between, the owner
of each mutex has in every state at least the priority of each thread that waits for the
mutex, if and only if every step meets `InheritGuard`. -/
theorem inheritance_iff (h : s.sched.Queued)
    (hfree : ∀ i, (s.mutex i).owner = none ∧ (s.mutex i).value = 1)
    (hempty : ∀ i, s.sched.waiting (.mutex i) = []) (events : List Event) :
    Always step Inherits s events ↔ Meets step InheritGuard s events := by
  have hnone : ∀ i o, (s.mutex i).owner ≠ some o := fun i o ho =>
    some_ne_none o (ho.symm.trans (hfree i).1)
  have hstart : Inheriting s :=
    { queued := h
      free := fun i _ => ⟨(hfree i).2, hempty i⟩
      held := fun i o ho => absurd ho (hnone i o)
      inherits := fun i o ho => absurd ho (hnone i o) }
  refine always_iff_meets (fun _ hs => Inheriting.inherits hs) ?_ ?_ hstart
  · intro s e s' hs hguard hstep
    obtain ⟨hsound, hiff⟩ := inherits_step hs.toMutexSound hs.inherits hstep
    exact ⟨hsound, hiff.mpr hguard⟩
  · intro s e s' hs hstep hinherits
    exact (inherits_step hs.toMutexSound hs.inherits hstep).2.mp hinherits

/-- Thread 2 waits for a mutex that thread 1 holds, and raises it. -/
theorem inheritance_two :
    Always step Inherits (fresh (started [(1, 20), (2, 15)]))
      [.call 1 (.mutexTake 0 (-1)), .call 2 (.mutexTake 0 (-1))] := by
  have hqueued := queued_fresh [(1, 20), (2, 15)]
  refine (inheritance_iff hqueued (fun _ => ⟨rfl, rfl⟩) (fun _ => rfl) _).mpr ?_
  have hidle : ∀ k, (step (fresh (started [(1, 20), (2, 15)])) (.call 1 (.mutexTake 0 (-1)))).map
      (fun s => s.sched.waiting (.mutex k)) = some [] := fun _ => rfl
  refine fun s hs => ⟨fun o ho => ?_, fun s' hs' => ⟨fun o _ _ _ _ _ k p _ _ hin => ?_, trivial⟩⟩
  · cases ho
  · have hnil := hidle k
    rw [hs, map_some] at hnil
    exact absurd (some.inj hnil ▸ hin) not_mem_nil

/-- The threads 1, 2 and 3 have the priorities 20, 15 and 10.  Thread 2 holds mutex 1 and
waits for mutex 0, which thread 1 holds.  Thread 3 waits for mutex 1 and raises thread 2 to
10; thread 1 stays at 15. -/
theorem owner_below_waiting :
    ∃ s, run kernelStep (fresh (started [(1, 20), (2, 15), (3, 10)]))
        [.call 3 (.sleep 5), .call 2 (.sleep 3), .call 1 (.mutexTake 0 (-1)),
          .timeout 2, .resume 2, .call 2 (.mutexTake 1 (-1)), .call 2 (.mutexTake 0 (-1)),
          .timeout 3, .resume 3, .call 3 (.mutexTake 1 (-1))] = some s ∧
      (s.mutex 0).owner = some 1 ∧ 2 ∈ s.sched.waiting (.mutex 0) ∧
      (s.sched.thread 1).currentPriority = 15 ∧ (s.sched.thread 2).currentPriority = 10 :=
  exists_of_any _ (by decide +kernel) fun _ _ h => h

end Ipc

end Easyio.Kernel
