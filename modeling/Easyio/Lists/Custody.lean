import Mathlib.Algebra.Group.Nat.Defs
import Mathlib.Data.List.Nodup

/-!
# Things that are kept or held

Each thing is kept in a list, or one party holds it, and a party holds at most one.
`acquire` and `release` move a thing from the list to a party and back.
-/

namespace Easyio.Lists

open Function List

variable {α ι : Type*}

/-- Each of the things `all` is in one place: once in the list `kept`, or with one of the
parties, as `held` says. -/
structure Custody (all : α → Prop) (kept : List α) (held : ι → Option α) : Prop where
  nodup : kept.Nodup
  apart : ∀ t a, held t = some a → a ∉ kept
  once : ∀ t u a, held t = some a → held u = some a → t = u
  mem : ∀ a, all a ↔ a ∈ kept ∨ ∃ t, held t = some a

namespace Custody

variable {all all' : α → Prop} {kept kept' : List α} {held : ι → Option α} {a : α} {t : ι}

/-- At first nobody holds anything. -/
theorem of_kept (hnodup : kept.Nodup) (hmem : ∀ a, all a ↔ a ∈ kept) :
    Custody all kept fun _ : ι => none where
  nodup := hnodup
  apart _ a ht := absurd ht (Option.some_ne_none a).symm
  once _ _ a ht := absurd ht (Option.some_ne_none a).symm
  mem a := by
    rw [hmem]
    exact ⟨.inl, fun h => h.resolve_right fun ⟨_, ht⟩ => absurd ht (Option.some_ne_none a).symm⟩

theorem perm (h : Custody all kept held) (hperm : kept.Perm kept') : Custody all kept' held where
  nodup := hperm.nodup_iff.mp h.nodup
  apart t a ht hin := h.apart t a ht (hperm.mem_iff.mpr hin)
  once := h.once
  mem a := by rw [h.mem, hperm.mem_iff]

theorem add (h : Custody all kept held) (ha : ¬ all a) (hall : ∀ b, all' b ↔ b = a ∨ all b) :
    Custody all' (a :: kept) held where
  nodup := nodup_cons.mpr ⟨fun hin => ha ((h.mem a).mpr (.inl hin)), h.nodup⟩
  apart t b ht hin := by
    rcases mem_cons.mp hin with rfl | hin
    · exact ha ((h.mem b).mpr (.inr ⟨t, ht⟩))
    · exact h.apart t b ht hin
  once := h.once
  mem b := by rw [hall, h.mem, mem_cons, or_assoc]

variable [DecidableEq ι]

theorem acquire (h : Custody all (a :: kept) held) (ht : held t = none) :
    Custody all kept (update held t (some a)) := by
  obtain ⟨ha, hnodup⟩ := nodup_cons.mp h.nodup
  -- what another party holds, it held before
  have hothers : ∀ {u b}, update held t (some a) u = some b →
      (u = t ∧ b = a) ∨ (u ≠ t ∧ held u = some b ∧ b ≠ a) := by
    intro u b hu
    by_cases hut : u = t
    · rw [hut, update_self] at hu
      exact .inl ⟨hut, (Option.some.inj hu).symm⟩
    · rw [update_of_ne hut] at hu
      exact .inr ⟨hut, hu, fun he => h.apart u b hu (he ▸ mem_cons_self ..)⟩
  refine ⟨hnodup, fun u b hu hin => ?_, fun u v b hu hv => ?_, fun b => ?_⟩
  · rcases hothers hu with ⟨-, rfl⟩ | ⟨-, hu, -⟩
    · exact ha hin
    · exact h.apart u b hu (mem_cons_of_mem a hin)
  · rcases hothers hu with ⟨rfl, rfl⟩ | ⟨-, hu, hne⟩
    · rcases hothers hv with ⟨rfl, -⟩ | ⟨-, -, hne⟩
      · rfl
      · exact absurd rfl hne
    · rcases hothers hv with ⟨-, rfl⟩ | ⟨-, hv, -⟩
      · exact absurd rfl hne
      · exact h.once u v b hu hv
  · rw [h.mem, mem_cons]
    constructor
    · rintro ((rfl | hin) | ⟨u, hu⟩)
      · exact .inr ⟨t, update_self ..⟩
      · exact .inl hin
      · have hut : u ≠ t := by
          rintro rfl
          exact Option.some_ne_none b (hu.symm.trans ht)
        exact .inr ⟨u, (update_of_ne hut ..).trans hu⟩
    · rintro (hin | ⟨u, hu⟩)
      · exact .inl (.inr hin)
      · rcases hothers hu with ⟨-, rfl⟩ | ⟨-, hu, -⟩
        · exact .inl (.inl rfl)
        · exact .inr ⟨u, hu⟩

theorem release (h : Custody all kept held) (ht : held t = some a) :
    Custody all (a :: kept) (update held t none) := by
  have hothers : ∀ {u b}, update held t none u = some b → held u = some b ∧ b ≠ a := by
    intro u b hu
    by_cases hut : u = t
    · rw [hut, update_self] at hu
      cases hu
    · rw [update_of_ne hut] at hu
      exact ⟨hu, fun he => hut (h.once u t a (he ▸ hu) ht)⟩
  refine ⟨nodup_cons.mpr ⟨h.apart t a ht, h.nodup⟩, fun u b hu hin => ?_,
    fun u v b hu hv => h.once u v b (hothers hu).1 (hothers hv).1, fun b => ?_⟩
  · obtain ⟨hu, hne⟩ := hothers hu
    exact h.apart u b hu ((mem_cons.mp hin).resolve_left hne)
  · rw [h.mem, mem_cons]
    constructor
    · rintro (hin | ⟨u, hu⟩)
      · exact .inl (.inr hin)
      · by_cases hut : u = t
        · rw [hut, ht] at hu
          exact .inl (.inl (Option.some.inj hu).symm)
        · exact .inr ⟨u, (update_of_ne hut ..).trans hu⟩
    · rintro ((rfl | hin) | ⟨u, hu⟩)
      · exact .inr ⟨t, ht⟩
      · exact .inl hin
      · exact .inr ⟨u, (hothers hu).1⟩

end Custody

end Easyio.Lists
