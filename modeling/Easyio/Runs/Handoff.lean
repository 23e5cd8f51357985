import Easyio.Runs.Partial
import Mathlib.Data.List.Basic

/-!
# Two sides that pass units to each other

Threads give and take units: what one side uses up, the other side gets.  A thread that
finds nothing for its side waits; a thread that has moved some units resumes the first one
that waits on the other side.  A thread that was resumed tries again when it runs.

A wake-up is lost if a thread waits although there is something for it, and nobody who was
resumed will look.  One transfer can make room for several threads but resumes only one.
So it depends on the last of those that were resumed: it has to use up all there is, or
nobody may be waiting any more (`noLost_iff`).
-/

namespace Easyio.Runs.Handoff

open Partial

inductive Side where
  | give
  | take
  deriving DecidableEq

def Side.other : Side → Side
  | .give => .take
  | .take => .give

theorem Side.other_ne (side : Side) : side.other ≠ side := by cases side <;> decide

theorem Side.eq_or_other (side x : Side) : x = side ∨ x = side.other := by
  cases side <;> cases x <;> decide

end Handoff

/-- What there is for each side, who waits, and in which transfer each thread is. -/
@[ext]
structure Handoff where
  avail : Handoff.Side → ℕ
  waiting : Handoff.Side → List ℕ
  pc : ℕ → Option (Handoff.Side × ℕ)

namespace Handoff

open Function List Option Partial

/-- A transfer of up to `n` units. -/
inductive Event where
  | call (side : Side) (t n : ℕ)
  | run (t : ℕ)
  deriving DecidableEq

def Event.NonZero : Event → Prop
  | .call _ _ n => n ≠ 0
  | .run _ => True

/-- `k` units are moved by `side`. -/
def moved (avail : Side → ℕ) (side : Side) (k : ℕ) (x : Side) : ℕ :=
  if x = side then avail x - k else avail x + k

section

variable (s : Handoff)

/-- The thread `t` waits for `n` units. -/
def block (side : Side) (t n : ℕ) : Handoff :=
  { s with
    waiting := update s.waiting side (s.waiting side ++ [t])
    pc := update s.pc t (some (side, n)) }

/-- The thread `t` moves `k` units and resumes the first one of the other side. -/
def move (side : Side) (t k : ℕ) : Handoff where
  avail := moved s.avail side k
  waiting := update s.waiting side.other (s.waiting side.other).tail
  pc := update s.pc t none

/-- The thread `t` tries to move `n` units. -/
def attempt (side : Side) (t n : ℕ) : Handoff :=
  if min n (s.avail side) = 0 then s.block side t n else s.move side t (min n (s.avail side))

def step : Event → Option Handoff
  | .call side t n => if s.pc t = none then some (s.attempt side t n) else none
  | .run t =>
    match s.pc t with
    | none => none
    | some (side, n) => if t ∈ s.waiting side then none else some (s.attempt side t n)

/-- The thread was resumed and has not run yet. -/
def Resumed (side : Side) (t : ℕ) : Prop :=
  (∃ n, s.pc t = some (side, n)) ∧ t ∉ s.waiting side

/-- Threads wait only if there is nothing for them or somebody is about to look. -/
def NoLost : Prop :=
  ∀ side, s.waiting side ≠ [] → s.avail side = 0 ∨ ∃ t, s.Resumed side t

/-- The last thread that was resumed leaves nobody waiting or nothing to wait for. -/
def Exhausts : Event → Prop
  | .call _ _ _ => True
  | .run t => ∀ side n, s.pc t = some (side, n) →
      s.waiting side = [] ∨ (∃ u ≠ t, s.Resumed side u) ∨ s.avail side ≤ n

end

variable {s s' : Handoff} {side x : Side} {t u n : ℕ} {e : Event} {pc : Option (Side × ℕ)}

/-- The threads in the lists are inside of a transfer of that side, each in its list
once, and ask for something. -/
structure Listed (s : Handoff) : Prop where
  waits : ∀ side, ∀ t ∈ s.waiting side, ∃ n, s.pc t = some (side, n)
  nodup : ∀ side, (s.waiting side).Nodup
  nonzero : ∀ t side n, s.pc t = some (side, n) → n ≠ 0

/-- The thread `t` may try to move `n` units: it is not waiting, and inside of no other
transfer. -/
structure Tries (s : Handoff) (side : Side) (t n : ℕ) : Prop where
  nonzero : n ≠ 0
  pc : ∀ x m, s.pc t = some (x, m) → x = side
  free : ∀ x, t ∉ s.waiting x

theorem Listed.call (h : s.Listed) (hpc : s.pc t = none) (hn : n ≠ 0) : s.Tries side t n := by
  refine ⟨hn, fun x m hm => ?_, fun x hx => ?_⟩
  · rw [hpc] at hm
    cases hm
  · obtain ⟨m, hm⟩ := h.waits x t hx
    rw [hpc] at hm
    cases hm

theorem Listed.run (h : s.Listed) (hpc : s.pc t = some (side, n)) (hfree : t ∉ s.waiting side) :
    s.Tries side t n := by
  have honly : ∀ x m, s.pc t = some (x, m) → x = side := by
    intro x m hm
    rw [hpc] at hm
    exact (congrArg Prod.fst (some.inj hm)).symm
  refine ⟨h.nonzero t side n hpc, honly, fun x hx => ?_⟩
  obtain ⟨m, hm⟩ := h.waits x t hx
  exact hfree (honly x m hm ▸ hx)

theorem resumed_update {avail : Side → ℕ} {waiting : Side → List ℕ} (hu : u ≠ t) :
    Resumed ⟨avail, waiting, update s.pc t pc⟩ x u ↔
      (∃ m, s.pc u = some (x, m)) ∧ u ∉ waiting x := by
  unfold Resumed
  simp only [update_of_ne hu]

theorem Tries.ne_of_resumed (h : s.Tries side t n) (hx : x ≠ side) (hu : s.Resumed x u) :
    u ≠ t := by
  rintro rfl
  obtain ⟨m, hm⟩ := hu.1
  exact hx (h.pc x m hm)

theorem NoLost.block (h : s.NoLost) (ht : s.Tries side t n) (hnone : s.avail side = 0) :
    (s.block side t n).NoLost := by
  intro x hx
  rcases eq_or_ne x side with rfl | hne
  · exact .inl hnone
  · have hx : update s.waiting side (s.waiting side ++ [t]) x ≠ [] := hx
    rw [update_of_ne hne] at hx
    refine (h x hx).imp id fun ⟨u, hu⟩ => ⟨u, ?_⟩
    rw [Handoff.block, resumed_update (ht.ne_of_resumed hne hu), update_of_ne hne]
    exact hu

/-- A thread that has moved `k` units has resumed the first one of the other side. -/
theorem NoLost.move {k : ℕ} (hs : s.Listed) (ht : s.Tries side t n)
    (hside : s.waiting side ≠ [] → s.avail side ≤ k ∨ ∃ u ≠ t, s.Resumed side u) :
    (s.move side t k).NoLost := by
  intro x hx
  rcases side.eq_or_other x with rfl | rfl
  · have hx : update s.waiting x.other (s.waiting x.other).tail x ≠ [] := hx
    rw [update_of_ne x.other_ne.symm] at hx
    refine (hside hx).imp (fun hle => ?_) fun ⟨u, hne, hu⟩ => ⟨u, ?_⟩
    · show moved s.avail x k x = 0
      rw [moved, if_pos rfl]
      omega
    · rw [Handoff.move, resumed_update hne, update_of_ne x.other_ne.symm]
      exact hu
  · -- the first one of the other side was resumed
    have hx : update s.waiting side.other (s.waiting side.other).tail side.other ≠ [] := hx
    cases hlist : s.waiting side.other with
    | nil => simp [hlist] at hx
    | cons r rest =>
      have hr : r ∈ s.waiting side.other := hlist ▸ mem_cons_self
      have hne : r ≠ t := fun heq => ht.free side.other (heq ▸ hr)
      have hnodup := hs.nodup side.other
      rw [hlist, nodup_cons] at hnodup
      refine .inr ⟨r, ?_⟩
      rw [Handoff.move, resumed_update hne, update_self, hlist]
      exact ⟨hs.waits side.other r hr, hnodup.1⟩

theorem nonzero_update (hs : s.Listed) (hpc : ∀ x m, pc = some (x, m) → m ≠ 0) (u : ℕ) (x : Side)
    (m : ℕ) (hm : update s.pc t pc u = some (x, m)) : m ≠ 0 := by
  rcases eq_or_ne u t with rfl | hu
  · rw [update_self] at hm
    exact hpc x m hm
  · rw [update_of_ne hu] at hm
    exact hs.nonzero u x m hm

theorem Listed.block (hs : s.Listed) (ht : s.Tries side t n) :
    (s.block side t n).Listed := by
  refine ⟨fun x u hu => ?_, fun x => ?_, nonzero_update hs fun x m hm => ?_⟩
  · show ∃ m, update s.pc t (some (side, n)) u = some (x, m)
    have hu : u ∈ update s.waiting side (s.waiting side ++ [t]) x := hu
    rcases eq_or_ne u t with rfl | hne
    · refine ⟨n, ?_⟩
      rw [update_self]
      rcases eq_or_ne x side with rfl | hx
      · rfl
      · rw [update_of_ne hx] at hu
        exact absurd hu (ht.free x)
    · rw [update_of_ne hne]
      rcases eq_or_ne x side with rfl | hx
      · rw [update_self, mem_append, mem_singleton] at hu
        exact hs.waits x u (hu.resolve_right hne)
      · rw [update_of_ne hx] at hu
        exact hs.waits x u hu
  · show (update s.waiting side (s.waiting side ++ [t]) x).Nodup
    rcases eq_or_ne x side with rfl | hx
    · rw [update_self]
      refine nodup_append.mpr ⟨hs.nodup x, by simp, fun u hu v hv => ?_⟩
      rintro rfl
      exact ht.free x (mem_singleton.mp hv ▸ hu)
    · rw [update_of_ne hx]
      exact hs.nodup x
  · have hm : n = m := congrArg Prod.snd (some.inj hm)
    exact hm ▸ ht.nonzero

theorem Listed.move {k : ℕ} (hs : s.Listed) (ht : s.Tries side t n) : (s.move side t k).Listed := by
  have hsub : ∀ x, (update s.waiting side.other (s.waiting side.other).tail x).Sublist
      (s.waiting x) := by
    intro x
    rcases eq_or_ne x side.other with rfl | hx
    · rw [update_self]
      exact tail_sublist _
    · rw [update_of_ne hx]
  refine ⟨fun x u hu => ?_, fun x => (hs.nodup x).sublist (hsub x),
    nonzero_update hs fun x m hm => by cases hm⟩
  have hmem := (hsub x).subset hu
  have hne : u ≠ t := fun heq => ht.free x (heq ▸ hmem)
  show ∃ m, update s.pc t none u = some (x, m)
  rw [update_of_ne hne]
  exact hs.waits x u hmem

/-- What an attempt keeps. -/
structure Sound (s : Handoff) : Prop where
  listed : s.Listed
  noLost : s.NoLost

theorem Sound.attempt (hs : s.Sound) (ht : s.Tries side t n)
    (hside : s.waiting side ≠ [] → s.avail side ≤ n ∨ ∃ u ≠ t, s.Resumed side u) :
    (s.attempt side t n).Sound := by
  have hnonzero := ht.nonzero
  unfold Handoff.attempt
  split
  · next hzero => exact ⟨hs.listed.block ht, hs.noLost.block ht (by omega)⟩
  · refine ⟨hs.listed.move ht, NoLost.move hs.listed ht fun hne => (hside hne).imp_left ?_⟩
    omega

/-- An attempt that leaves something, with threads waiting and nobody to look. -/
theorem NoLost.exhausts (ht : s.Tries side t n) (h : (s.attempt side t n).NoLost)
    (hwaiting : s.waiting side ≠ []) (hleft : n < s.avail side) : ∃ u ≠ t, s.Resumed side u := by
  have hnonzero := ht.nonzero
  have hmin : min n (s.avail side) = n := by omega
  rw [Handoff.attempt, hmin, if_neg hnonzero] at h
  have hlist : update s.waiting side.other (s.waiting side.other).tail side =
      s.waiting side := update_of_ne side.other_ne.symm ..
  rcases h side (fun hnil => hwaiting (hlist.symm.trans hnil)) with hzero | ⟨u, hu⟩
  · have hzero : moved s.avail side n side = 0 := hzero
    rw [moved, if_pos rfl] at hzero
    omega
  · have hne : u ≠ t := by
      rintro rfl
      obtain ⟨m, hm⟩ := hu.1
      have hm : update s.pc u none u = some (side, m) := hm
      rw [update_self] at hm
      cases hm
    rw [Handoff.move, resumed_update hne, hlist] at hu
    exact ⟨u, hne, hu⟩

theorem Sound.step (hs : s.Sound) (he : e.NonZero) (hguard : s.Exhausts e)
    (h : s.step e = some s') : s'.Sound := by
  cases e with
  | call side t n =>
    obtain ⟨hpc, h⟩ := ite_none_right_eq_some.mp h
    obtain rfl := some.inj h
    refine hs.attempt (hs.listed.call hpc he) fun hne => ?_
    refine (hs.noLost side hne).imp (fun hzero => by omega) fun ⟨u, hu⟩ => ⟨u, ?_, hu⟩
    rintro rfl
    obtain ⟨m, hm⟩ := hu.1
    rw [hpc] at hm
    cases hm
  | run t =>
    simp only [Handoff.step] at h
    split at h
    · cases h
    · next side n hpc =>
        obtain ⟨hfree, h⟩ := ite_none_left_eq_some.mp h
        obtain rfl := some.inj h
        refine hs.attempt (hs.listed.run hpc hfree) fun hne => ?_
        rcases hguard side n hpc with hnil | hother | hle
        · exact absurd hnil hne
        · exact .inr hother
        · exact .inl hle

theorem Sound.exhausts (hs : s.Sound) (h : s.step e = some s') (hnext : s'.NoLost) :
    s.Exhausts e := by
  cases e with
  | call side t n => trivial
  | run t =>
    intro side n hpc
    simp only [Handoff.step, hpc] at h
    obtain ⟨hfree, h⟩ := ite_none_left_eq_some.mp h
    obtain rfl := some.inj h
    by_cases hnil : s.waiting side = []
    · exact .inl hnil
    · refine .inr ?_
      rcases Nat.lt_or_ge n (s.avail side) with hleft | hle
      · exact .inl (hnext.exhausts (hs.listed.run hpc hfree) hnil hleft)
      · exact .inr hle

/-- No wake-up is lost in a run exactly if each of its steps exhausts what there is. -/
theorem noLost_iff {events : List Event} (hs : s.Sound) (hok : ∀ e ∈ events, e.NonZero) :
    Always step NoLost s events ↔ Partial.Meets step Exhausts s events := by
  apply always_iff_meets_of (P := NoLost) (fun s (hs : s.Sound) => hs.noLost) _ _ hs hok
  · exact fun s e s' hs he hguard h => hs.step he hguard h
  · exact fun s e s' hs h hnext => hs.exhausts h hnext

end Handoff

end Easyio.Runs
