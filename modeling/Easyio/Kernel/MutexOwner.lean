import Easyio.Kernel.Steps
import Mathlib.Algebra.Group.Pi.Basic
import Mathlib.Algebra.Group.Prod
import Mathlib.Algebra.Ring.Nat

/-!
# The owner of a mutex

A run of any calls of any threads, with what each thread took and released of one mutex
counted along.  A release that hands the mutex over counts as a release and as a take of
the new owner.  The owner has taken the mutex `hold` times more than it has released it,
and for every other thread the two are equal, as long as the 8-bit counter `hold` has
room (`mutex_owned_iff`).
-/

namespace Easyio.Kernel.Ipc

open Function Option Runs.Partial

variable {s s' : Ipc} {t i j : ℕ} {e : Event}

def Call.mutex : Call → Option ℕ
  | .mutexTake i _ | .mutexRelease i => some i
  | _ => none

def Event.mutex : Event → Option ℕ
  | .call _ c => c.mutex
  | _ => none

theorem mutex_step (h : s.sched.Queued) (he : e.mutex = none) (hs : s.step e = some s') :
    s'.mutex = s.mutex := by
  rcases step_cases h hs with hplain | ⟨t, -, htimeout⟩ | ⟨t, i, time, rfl, -, -⟩ |
    ⟨t, i, rfl, -, -⟩
  · exact hplain.mutex
  · rw [htimeout.objects]
  · cases he
  · cases he

/-! ## Takes and releases -/

/-- One for the thread `t`. -/
def once (t : ℕ) : ℕ → ℕ := fun u => if u = t then 1 else 0

/-- The thread that gets a mutex when its owner gives it up. -/
def heir (s : Ipc) (i : ℕ) : ℕ → ℕ :=
  match s.sched.waiting (.mutex i) with
  | [] => 0
  | u :: _ => once u

/-- What a step takes and releases of the mutex `i`, for each thread. -/
def mutexTally (i : ℕ) (s : Ipc) : Event → (ℕ → ℕ) × (ℕ → ℕ)
  | .call t (.mutexTake j _) =>
    if j = i ∧ ((s.mutex i).owner = some t ∨ 0 < (s.mutex i).value) then (once t, 0) else (0, 0)
  | .call t (.mutexRelease j) =>
    if j = i ∧ (s.mutex i).owner = some t then
      (if ((s.mutex i).hold + (2 ^ 8 - 1)) % 2 ^ 8 = 0 then s.heir i else 0, once t)
    else (0, 0)
  | _ => (0, 0)

/-- A take by the owner finds room in the 8-bit counter. -/
def MutexRoom (i : ℕ) (s : Ipc) : Event → Prop
  | .call t (.mutexTake j _) => j = i → (s.mutex i).owner = some t → (s.mutex i).hold + 1 < 2 ^ 8
  | _ => True

/-- A mutex and what the threads have taken and released of it: it is free if and only if
it has no owner, the owner has taken it `hold` times more than it has released it, and
every other thread has released it as often as it has taken it. -/
structure Owned (m : Mutex) (took gave : ℕ → ℕ) : Prop where
  value : m.value = 1 ↔ m.owner = none
  hold : ∀ t, m.owner = some t → m.hold + gave t = took t
  others : ∀ t, m.owner ≠ some t → took t = gave t

/-- The invariant of runs in which the counter has room. -/
structure Books (m : Mutex) (took gave : ℕ → ℕ) : Prop extends Owned m took gave where
  bound : m.value ≤ 1
  free : m.owner = none → m.hold = 0
  held : ∀ t, m.owner = some t → 1 ≤ m.hold ∧ m.hold < 2 ^ 8

theorem once_self (t : ℕ) : once t t = 1 := if_pos rfl

theorem once_of_ne {u : ℕ} (h : u ≠ t) : once t u = 0 := if_neg h

namespace Books

variable {m : Mutex} {took gave : ℕ → ℕ}

theorem of_owner {o : ℕ} (howner : m.owner = some o) (hvalue : m.value = 0)
    (hheld : 1 ≤ m.hold ∧ m.hold < 2 ^ 8) (hhold : m.hold + gave o = took o)
    (hothers : ∀ t ≠ o, took t = gave t) : Books m took gave where
  value := by simp [howner, hvalue]
  hold t ht := by
    obtain rfl : o = t := some.inj (howner.symm.trans ht)
    exact hhold
  others t ht := hothers t fun he => ht (he ▸ howner)
  bound := by omega
  free hnone := absurd (howner.symm.trans hnone) (some_ne_none o)
  held _ _ := hheld

section

variable (h : Books m took gave)
include h

theorem value_eq_zero (howner : m.owner = some t) : m.value = 0 := by
  have hne : m.value ≠ 1 := fun hone =>
    some_ne_none t (howner.symm.trans (h.value.mp hone))
  have := h.bound
  omega

theorem others_of_owner (howner : m.owner = some t) {u : ℕ} (hu : u ≠ t) : took u = gave u :=
  h.others u fun he => hu (some.inj (he.symm.trans howner))

theorem nest (howner : m.owner = some t) (hroom : m.hold + 1 < 2 ^ 8) :
    Books { m with hold := (m.hold + 1) % 2 ^ 8 } (took + once t) gave := by
  have hhold := h.hold t howner
  refine of_owner howner (h.value_eq_zero howner) ?_ ?_ fun u hu => ?_
  · dsimp only
    omega
  · rw [Pi.add_apply, once_self]
    dsimp only
    omega
  · rw [Pi.add_apply, once_of_ne hu, h.others_of_owner howner hu]
    rfl

theorem acquire (hvalue : 0 < m.value) (priority : ℕ) :
    Books ({ m with value := m.value - 1 }.acquire t priority) (took + once t) gave := by
  have hone : m.value = 1 := by
    have := h.bound
    omega
  have hnone : m.owner = none := h.value.mp hone
  have hzero := h.free hnone
  have hothers : ∀ u, took u = gave u := fun u =>
    h.others u fun he => some_ne_none u (he.symm.trans hnone)
  have hhold : ({ m with value := m.value - 1 }.acquire t priority).hold = 1 := by
    simp [Mutex.acquire, hzero]
  refine of_owner rfl ?_ ?_ ?_ fun u hu => ?_
  · change m.value - 1 = 0
    omega
  · rw [hhold]
    decide
  · rw [hhold, Pi.add_apply, once_self, hothers t, Nat.add_comm]
  · rw [Pi.add_apply, once_of_ne hu, hothers u]
    rfl

section

variable (howner : m.owner = some t)
include howner

theorem hold_eq_one (hlast : (m.hold + (2 ^ 8 - 1)) % 2 ^ 8 = 0) : m.hold = 1 := by
  have := h.held t howner
  omega

theorem unnest (hmore : (m.hold + (2 ^ 8 - 1)) % 2 ^ 8 ≠ 0) :
    Books { m with hold := (m.hold + (2 ^ 8 - 1)) % 2 ^ 8 } took (gave + once t) := by
  have hhold := h.hold t howner
  have hheld := h.held t howner
  refine of_owner howner (h.value_eq_zero howner) ?_ ?_ fun u hu => ?_
  · dsimp only
    omega
  · rw [Pi.add_apply, once_self]
    dsimp only
    omega
  · rw [Pi.add_apply, once_of_ne hu, h.others_of_owner howner hu]
    rfl

section

variable (hlast : (m.hold + (2 ^ 8 - 1)) % 2 ^ 8 = 0)
include hlast

/-- After its last release each thread has released as often as it has taken. -/
theorem settled (u : ℕ) : took u = (gave + once t) u := by
  by_cases hu : u = t
  · have hhold := h.hold t howner
    rw [h.hold_eq_one howner hlast] at hhold
    rw [hu, Pi.add_apply, once_self]
    omega
  · rw [Pi.add_apply, once_of_ne hu, h.others_of_owner howner hu]
    rfl

theorem release : Books m.giveUp took (gave + once t) where
  value := by simp [Mutex.giveUp, h.value_eq_zero howner]
  hold u hu := absurd hu (some_ne_none u).symm
  others u _ := h.settled howner hlast u
  bound := by simp [Mutex.giveUp, h.value_eq_zero howner]
  free _ := rfl
  held u hu := absurd hu (some_ne_none u).symm

theorem handOver (u priority : ℕ) :
    Books ({ m with hold := 0 }.acquire u priority) (took + once u) (gave + once t) := by
  have hsettled := h.settled howner hlast
  refine of_owner rfl (h.value_eq_zero howner) ?_ ?_ fun v hv => ?_
  · change 1 ≤ 1 ∧ 1 < 2 ^ 8
    decide
  · change 1 + _ = _
    rw [Pi.add_apply took, once_self, hsettled u, Nat.add_comm]
  · rw [Pi.add_apply took, once_of_ne hv, hsettled v]
    rfl

end

end

end

end Books

/-! ## Runs -/

/-- The state of a run and what the threads have taken and released. -/
abbrev Ledger := Ipc × ((ℕ → ℕ) × (ℕ → ℕ))

variable {c c' : Ledger}

/-- The books of the mutex `i`. -/
def Kept (i : ℕ) (c : Ledger) : Prop := Books (c.1.mutex i) c.2.1 c.2.2

theorem Kept.unchanged (h : Kept i c) (hmutex : c'.1.mutex i = c.1.mutex i)
    (htally : c'.2 = c.2 + (0, 0)) : Kept i c' := by
  unfold Kept
  rw [hmutex, htally]
  exact h

theorem Kept.take {time : ℤ} (h : Kept i c) (htaken : MutexTaken c.1 t j time c'.1)
    (htally : c'.2 = c.2 + mutexTally i c.1 (.call t (.mutexTake j time))) :
    (MutexRoom i c.1 (.call t (.mutexTake j time)) → Kept i c') ∧
      (Owned (c'.1.mutex i) c'.2.1 c'.2.2 → MutexRoom i c.1 (.call t (.mutexTake j time))) := by
  rw [mutexTally] at htally
  by_cases hj : j = i
  swap
  · have hmutex : c'.1.mutex i = c.1.mutex i := by
      cases htaken with
      | nested _ _ hmutex | acquired _ _ _ hmutex => rw [hmutex, update_of_ne (Ne.symm hj)]
      | refused _ _ _ _ hmutex => rw [hmutex]
      | waited _ _ _ _ _ _ _ _ _ hmutex => rw [hmutex]
    rw [if_neg fun hand => hj hand.1] at htally
    exact ⟨fun _ => h.unchanged hmutex htally, fun _ he => absurd he hj⟩
  subst hj
  -- a take that neither the owner makes nor succeeds
  have hkept (howner : (c.1.mutex j).owner ≠ some t) (hvalue : (c.1.mutex j).value = 0)
      (hmutex : c'.1.mutex = c.1.mutex) :
      (MutexRoom j c.1 (.call t (.mutexTake j time)) → Kept j c') ∧
        (Owned (c'.1.mutex j) c'.2.1 c'.2.2 → MutexRoom j c.1 (.call t (.mutexTake j time))) := by
    rw [if_neg (by simp [howner, hvalue])] at htally
    exact ⟨fun _ => h.unchanged (by rw [hmutex]) htally, fun _ _ he => absurd he howner⟩
  cases htaken with
  | nested howner hstill hmutex =>
    rw [if_pos ⟨rfl, .inl howner⟩] at htally
    unfold Kept
    rw [hmutex, update_self, htally]
    refine ⟨fun hroom => h.nest howner (hroom rfl howner), fun howned _ _ => ?_⟩
    have hhold := howned.hold t howner
    have hbefore := h.hold t howner
    change (_ + 1) % 2 ^ 8 + (c.2.2 t + 0) = c.2.1 t + once t t at hhold
    omega
  | acquired howner hvalue hstill hmutex =>
    rw [if_pos ⟨rfl, .inr hvalue⟩] at htally
    unfold Kept
    rw [hmutex, update_self, htally]
    exact ⟨fun _ => h.acquire hvalue _, fun _ _ he => absurd he howner⟩
  | refused howner hvalue htime hstill hmutex => exact hkept howner hvalue hmutex
  | waited o howner hne hvalue htime hqueued hview hlock hscheduled hmutex =>
    refine hkept (fun he => hne ?_) hvalue hmutex
    exact some.inj (howner.symm.trans he)

theorem Kept.release (h : Kept i c) (hreleased : MutexReleased c.1 t j c'.1)
    (htally : c'.2 = c.2 + mutexTally i c.1 (.call t (.mutexRelease j))) : Kept i c' := by
  rw [mutexTally] at htally
  by_cases hj : j = i
  swap
  · have hmutex : c'.1.mutex i = c.1.mutex i := by
      cases hreleased with
      | denied _ _ hmutex => rw [hmutex]
      | nested _ _ _ hmutex | freed _ _ _ _ _ _ _ hmutex | handed _ _ _ _ _ _ _ _ _ hmutex =>
        rw [hmutex, update_of_ne (Ne.symm hj)]
    rw [if_neg fun hand => hj hand.1] at htally
    exact h.unchanged hmutex htally
  subst hj
  cases hreleased with
  | denied howner hstill hmutex =>
    rw [if_neg fun hand => howner hand.2] at htally
    exact h.unchanged (by rw [hmutex]) htally
  | nested howner hmore hsched hmutex =>
    rw [if_pos ⟨rfl, howner⟩, if_neg hmore] at htally
    unfold Kept
    rw [hmutex, update_self, htally]
    exact h.unnest howner hmore
  | freed howner hlast hempty hqueued hview hlock hcurrent hmutex =>
    rw [if_pos ⟨rfl, howner⟩, if_pos hlast, heir, hempty] at htally
    unfold Kept
    rw [hmutex, update_self, htally]
    exact Books.release h howner hlast
  | handed u rest howner hlast hlist hqueued hview hlock hscheduled hmutex =>
    rw [if_pos ⟨rfl, howner⟩, if_pos hlast, heir, hlist] at htally
    unfold Kept
    rw [hmutex, update_self, htally]
    exact Books.handOver h howner hlast u _

theorem kept_step (hqueued : c.1.sched.Queued) (h : Kept i c)
    (hs : counting step (mutexTally i) c e = some c') : (MutexRoom i c.1 e → Kept i c') ∧
      (Owned (c'.1.mutex i) c'.2.1 c'.2.2 → MutexRoom i c.1 e) := by
  obtain ⟨hstep, htally⟩ := counting_eq hs
  have hother (hmutex : e.mutex = none) (hzero : mutexTally i c.1 e = (0, 0))
      (hroom : MutexRoom i c.1 e) :
      (MutexRoom i c.1 e → Kept i c') ∧
        (Owned (c'.1.mutex i) c'.2.1 c'.2.2 → MutexRoom i c.1 e) := by
    refine ⟨fun _ => h.unchanged ?_ (by rw [htally, hzero]), fun _ => hroom⟩
    rw [mutex_step hqueued hmutex hstep]
  cases e with
  | call t call =>
    cases call with
    | mutexTake j time =>
      obtain ⟨hcond, hstep⟩ := ite_none_right_eq_some.mp hstep
      exact h.take (mutexTaken hqueued hcond.1 hstep) htally
    | mutexRelease j =>
      obtain ⟨-, hstep⟩ := ite_none_right_eq_some.mp hstep
      exact ⟨fun _ => h.release (mutexReleased hqueued hstep) htally, fun _ => trivial⟩
    | _ => exact hother rfl rfl trivial
  | _ => exact hother rfl rfl trivial

theorem queued_rtMutexInit (h : s.sched.Queued) (i : ℕ) (flag : Flag) :
    (s.rtMutexInit i flag).sched.Queued := h.empty (.mutex i)

theorem kept_rtMutexInit (s : Ipc) (i : ℕ) (flag : Flag) :
    Kept i (s.rtMutexInit i flag, (0, 0)) := by
  have hmutex : (s.rtMutexInit i flag).mutex i =
      { value := 1, originalPriority := 0xff, hold := 0, owner := none, flag } :=
    update_self ..
  unfold Kept
  rw [hmutex]
  exact
    { value := iff_of_true rfl rfl
      hold := fun t ht => absurd ht (some_ne_none t).symm
      others := fun _ _ => rfl
      bound := Nat.le_refl 1
      free := fun _ => rfl
      held := fun t ht => absurd ht (some_ne_none t).symm }

/-- **Ownership.**  In every run of any calls of any threads after `rt_mutex_init`, the
mutex is in every state free if and only if it has no owner, `hold` is the number of the
takes of the owner minus its releases, and a thread that has released it fewer times than
it took it is the owner, if and only if every take by the owner finds `hold` below 255. -/
theorem mutex_owned_iff (h : s.sched.Queued) (i : ℕ) (flag : Flag) (events : List Event) :
    Always (counting step (mutexTally i)) (fun c => Owned (c.1.mutex i) c.2.1 c.2.2 ∧
        ∀ t, c.2.2 t < c.2.1 t → (c.1.mutex i).owner = some t)
        (s.rtMutexInit i flag, (0, 0)) events ↔
      Meets step (MutexRoom i) (s.rtMutexInit i flag) events := by
  have howned : ∀ c : Ledger, c.1.sched.Queued ∧ Kept i c → Owned (c.1.mutex i) c.2.1 c.2.2 ∧
      ∀ t, c.2.2 t < c.2.1 t → (c.1.mutex i).owner = some t := by
    rintro c ⟨-, hkept⟩
    refine ⟨hkept.toOwned, fun t ht => ?_⟩
    by_contra hne
    exact Nat.lt_irrefl _ (hkept.others t hne ▸ ht)
  have hiff : _ ↔ Meets (counting step (mutexTally i)) (fun c e => MutexRoom i c.1 e)
      (s.rtMutexInit i flag, (0, 0)) events :=
    always_iff_meets howned
      (fun c e c' hc hroom hs =>
        ⟨queued_step hc.1 (counting_eq hs).1, (kept_step hc.1 hc.2 hs).1 hroom⟩)
      (fun c e c' hc hs hc' => (kept_step hc.1 hc.2 hs).2 hc'.1)
      ⟨queued_rtMutexInit h i flag, kept_rtMutexInit s i flag⟩
  exact hiff.trans meets_observing

/-- A thread takes a mutex twice and releases it. -/
theorem mutex_owned_two_takes : (fresh (started [(1, 5)])).sched.Queued ∧
      Always (counting step (mutexTally 0)) (fun c => Owned (c.1.mutex 0) c.2.1 c.2.2 ∧
        ∀ t, c.2.2 t < c.2.1 t → (c.1.mutex 0).owner = some t)
        ((fresh (started [(1, 5)])).rtMutexInit 0 .prio, (0, 0))
        [.call 1 (.mutexTake 0 0), .call 1 (.mutexTake 0 0), .call 1 (.mutexRelease 0)] := by
  have hqueued := queued_fresh [(1, 5)]
  refine ⟨hqueued, (mutex_owned_iff hqueued 0 .prio _).mpr ?_⟩
  have hfirst : (step ((fresh (started [(1, 5)])).rtMutexInit 0 .prio)
      (.call 1 (.mutexTake 0 0))).map (fun s => (s.mutex 0).hold) = some 1 := by decide +kernel
  refine fun s₁ hs₁ => ⟨fun _ he => ?_, fun s₂ hs₂ => ⟨fun _ _ => ?_,
    fun _ _ => ⟨trivial, trivial⟩⟩⟩
  · exact absurd he (by decide +kernel)
  · rw [hs₁, map_some] at hfirst
    rw [some.inj hfirst]
    decide

/-- A thread takes the mutex 257 times and releases it once. -/
theorem mutex_free_after_one_release :
    ∃ c, run (counting step (mutexTally 0)) ((fresh (started [(1, 5)])).rtMutexInit 0 .fifo, (0, 0))
        (List.replicate 257 (.call 1 (.mutexTake 0 0)) ++ [.call 1 (.mutexRelease 0)]) = some c ∧
      (c.1.mutex 0).owner = none ∧ c.2.1 1 = 257 ∧ c.2.2 1 = 1 :=
  exists_of_any _ (by decide +kernel) fun _ _ h => h

end Easyio.Kernel.Ipc
