import Mathlib.Algebra.Group.Nat.Defs
import Mathlib.Data.List.Nodup

/-!
# Singly linked lists

Nodes of which each has a link to the next one, or to none.  `Linked` says which nodes the
links lead through.  A node that is not in the list may be given any link; it is put in front
by its own link, and at the end by the link of the last node.
-/

namespace Easyio.Lists

open Function List Option

variable {α : Type*}

/-- The links lead from `first` through `nodes` to the end. -/
def Linked (next : α → Option α) : Option α → List α → Prop
  | first, [] => first = none
  | first, a :: rest => first = some a ∧ Linked next (next a) rest

namespace Linked

variable {next : α → Option α} {first : Option α} {nodes : List α} {a : α}

theorem cons_of_eq_some (h : Linked next (some a) nodes) :
    ∃ rest, nodes = a :: rest ∧ Linked next (next a) rest := by
  cases nodes with
  | nil => cases h
  | cons b rest =>
    obtain ⟨hab, hrest⟩ := h
    obtain rfl : a = b := some.inj hab
    exact ⟨rest, rfl, hrest⟩

theorem eq_nil_iff (h : Linked next first nodes) : nodes = [] ↔ first = none := by
  cases nodes with
  | nil => exact iff_of_true rfl h
  | cons b rest => exact iff_of_false (cons_ne_nil b rest) (h.1 ▸ some_ne_none b)

/-- Only the links of the nodes matter. -/
theorem congr {next' : α → Option α} (h : Linked next first nodes)
    (hnext : ∀ a ∈ nodes, next' a = next a) : Linked next' first nodes := by
  induction nodes generalizing first with
  | nil => exact h
  | cons b rest ih =>
    obtain ⟨hb, hrest⟩ := forall_mem_cons.mp hnext
    refine ⟨h.1, ?_⟩
    rw [hb]
    exact ih h.2 hrest

variable [DecidableEq α]

theorem update (h : Linked next first nodes) (ha : a ∉ nodes) (link : Option α) :
    Linked (update next a link) first nodes := by
  refine h.congr fun b hb => ?_
  have hne : b ≠ a := fun he => ha (he ▸ hb)
  rw [update_of_ne hne]

theorem push (h : Linked next first nodes) (ha : a ∉ nodes) :
    Linked (Function.update next a first) (some a) (a :: nodes) := by
  refine ⟨rfl, ?_⟩
  rw [update_self]
  exact h.update ha first

/-- The link of the last node is set to a node that is itself the end of its links. -/
theorem append {last : α} (h : Linked next first nodes) (hnodup : nodes.Nodup)
    (hlast : nodes.getLast? = some last) (ha : a ∉ nodes) (hend : next a = none) :
    Linked (Function.update next last (some a)) first (nodes ++ [a]) := by
  induction nodes generalizing first with
  | nil => cases hlast
  | cons b rest ih =>
    obtain ⟨hb, hrest⟩ := nodup_cons.mp hnodup
    rw [mem_cons, not_or] at ha
    refine ⟨h.1, ?_⟩
    cases rest with
    | nil =>
      obtain rfl : b = last := some.inj hlast
      rw [update_self]
      refine ⟨rfl, ?_⟩
      rw [update_of_ne ha.1]
      exact hend
    | cons c rest =>
      have hlast : (c :: rest).getLast? = some last := hlast
      have hne : b ≠ last := fun he => hb (he ▸ mem_of_getLast? hlast)
      rw [update_of_ne hne]
      exact ih h.2 hrest hlast ha.2

end Linked

end Easyio.Lists
