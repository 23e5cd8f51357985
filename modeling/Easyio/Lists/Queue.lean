import Mathlib.Algebra.Group.Nat.Defs
import Mathlib.Data.List.Basic
import Mathlib.Order.Basic

/-!
# Queues ordered by a key

A queue whose elements stand in the order of a key, those of equal key in the order
of their arrival.  A new element goes behind all elements whose key is not larger
than its own.  The rows of a skip list are such queues, each a sublist of the next,
and entering a new element into several of them keeps that (`enqueue_sublist`).
-/

namespace Easyio.Lists

open Function List Nat

variable {α : Type*} (key : α → ℕ)

/-- The elements of key at most `d`. -/
def notLater (d : ℕ) (xs : List α) : List α := xs.filter (key · ≤ d)

/-- The elements of key above `d`. -/
def later (d : ℕ) (xs : List α) : List α := xs.filter (d < key ·)

/-- `t` entered with key `d`. -/
def enqueue (d : ℕ) (t : α) (xs : List α) : List α := notLater key d xs ++ t :: later key d xs

variable {key} {d : ℕ} {t a : α} {xs ys : List α}

theorem mem_notLater : a ∈ notLater key d xs ↔ a ∈ xs ∧ key a ≤ d := by simp [notLater]

theorem mem_later : a ∈ later key d xs ↔ a ∈ xs ∧ d < key a := by simp [later]

theorem mem_enqueue : a ∈ enqueue key d t xs ↔ a = t ∨ a ∈ xs := by
  simp only [enqueue, mem_append, mem_cons, mem_notLater, mem_later]
  constructor
  · rintro (⟨h, -⟩ | rfl | ⟨h, -⟩)
    exacts [.inr h, .inl rfl, .inr h]
  · rintro (rfl | h)
    · exact .inr (.inl rfl)
    · rcases Nat.lt_or_ge d (key a) with hlt | hge
      exacts [.inr (.inr ⟨h, hlt⟩), .inl ⟨h, hge⟩]

theorem notLater_cons_of_le (h : key a ≤ d) :
    notLater key d (a :: xs) = a :: notLater key d xs := by simp [notLater, h]

/-- In an ordered queue the elements of key at most `d` come first. -/
theorem notLater_append_later (hsorted : xs.Pairwise (key · ≤ key ·)) :
    notLater key d xs ++ later key d xs = xs := by
  induction xs with
  | nil => rfl
  | cons x xs ih =>
    obtain ⟨hx, hxs⟩ := pairwise_cons.mp hsorted
    by_cases hd : key x ≤ d
    · have hlater : later key d (x :: xs) = later key d xs := by simp [later, hd]
      rw [hlater, notLater_cons_of_le hd, cons_append, ih hxs]
    · have hall : ∀ a ∈ x :: xs, d < key a :=
        forall_mem_cons.mpr ⟨Nat.not_le.mp hd, fun a ha =>
          Nat.lt_of_lt_of_le (Nat.not_le.mp hd) (hx a ha)⟩
      have hnot : notLater key d (x :: xs) = [] :=
        filter_eq_nil_iff.mpr fun a ha => by simpa using hall a ha
      have hlater : later key d (x :: xs) = x :: xs :=
        filter_eq_self.mpr fun a ha => decide_eq_true (hall a ha)
      rw [hnot, hlater, nil_append]

/-- Among the elements of key at most `n`, an element entered with key `d` is the last,
or it is not there. -/
theorem notLater_enqueue [DecidableEq α] {n : ℕ} (hsorted : xs.Pairwise (key · ≤ key ·))
    (ht : t ∉ xs) (hle : n ≤ d) :
    notLater (update key t d) n (enqueue key d t xs) =
      notLater key n xs ++ if d ≤ n then [t] else [] := by
  have hcongr : ∀ ys : List α, t ∉ ys →
      notLater (update key t d) n ys = notLater key n ys := by
    intro ys hys
    refine filter_congr fun a ha => ?_
    have hat : a ≠ t := fun he => hys (he ▸ ha)
    rw [update_of_ne hat]
  have hhigh : notLater key n (later key d xs) = [] :=
    filter_eq_nil_iff.mpr fun a ha => by
      have := (mem_later.mp ha).2
      simp only [decide_eq_true_eq]
      omega
  have hsplit : notLater key n xs = notLater key n (notLater key d xs) := by
    conv_lhs => rw [← notLater_append_later (d := d) hsorted]
    rw [notLater, filter_append]
    exact (congrArg (_ ++ ·) hhigh).trans (append_nil _)
  have hlow : notLater (update key t d) n (notLater key d xs) = notLater key n xs := by
    rw [hcongr _ fun hin => ht (mem_notLater.mp hin).1, hsplit]
  have hnew : notLater (update key t d) n (t :: later key d xs) =
      if d ≤ n then [t] else [] := by
    have htail : notLater (update key t d) n (later key d xs) = [] := by
      rw [hcongr _ fun hin => ht (mem_later.mp hin).1, hhigh]
    rw [notLater, filter_cons, update_self]
    rw [notLater] at htail
    simp only [decide_eq_true_eq, htail]
  rw [enqueue, notLater, filter_append]
  exact congrArg₂ (· ++ ·) hlow hnew

theorem enqueue_sublist (h : xs.Sublist ys) : (enqueue key d t xs).Sublist (enqueue key d t ys) :=
  (h.filter _).append ((h.filter _).cons_cons t)

theorem sublist_enqueue (hsorted : xs.Pairwise (key · ≤ key ·)) :
    xs.Sublist (enqueue key d t xs) := by
  have hsub : (notLater key d xs ++ later key d xs).Sublist (enqueue key d t xs) :=
    (Sublist.refl _).append (sublist_cons_self t _)
  rwa [notLater_append_later hsorted] at hsub

theorem length_enqueue (hsorted : xs.Pairwise (key · ≤ key ·)) :
    (enqueue key d t xs).length = xs.length + 1 := by
  have hlength := congrArg List.length (notLater_append_later (d := d) hsorted)
  rw [length_append] at hlength
  rw [enqueue, length_append, length_cons, ← hlength, add_assoc]

/-- Entering keeps every order in which the new element comes after those of key at
most `d` and before the others. -/
theorem pairwise_enqueue {R : α → α → Prop} (hxs : xs.Pairwise R)
    (hsorted : xs.Pairwise (key · ≤ key ·)) (hbefore : ∀ a ∈ xs, key a ≤ d → R a t)
    (hafter : ∀ a ∈ xs, d < key a → R t a) : (enqueue key d t xs).Pairwise R := by
  rw [← notLater_append_later hsorted] at hxs
  obtain ⟨hlow, hhigh, hcross⟩ := pairwise_append.mp hxs
  refine pairwise_append.mpr ⟨hlow, pairwise_cons.mpr ⟨?_, hhigh⟩, ?_⟩
  · intro a ha
    obtain ⟨hmem, hlt⟩ := mem_later.mp ha
    exact hafter a hmem hlt
  · intro a ha b hb
    rcases mem_cons.mp hb with rfl | hb
    · obtain ⟨hmem, hle⟩ := mem_notLater.mp ha
      exact hbefore a hmem hle
    · exact hcross a ha b hb

/-! ## Serving a queue -/

variable {again stuck : α → Prop}

open Classical in
/-- The first `n` elements served from the front.  One that comes `again` goes behind the others;
none is served after one that is `stuck`. -/
noncomputable def served (again stuck : α → Prop) : ℕ → List α → List α
  | 0, _ => []
  | _ + 1, [] => []
  | n + 1, a :: xs => a :: if stuck a then [] else
    served again stuck n (xs ++ if again a then [a] else [])

theorem served_subset (n : ℕ) (xs : List α) : served again stuck n xs ⊆ xs := by
  induction n generalizing xs with
  | zero => exact nil_subset _
  | succ n ih =>
    cases xs with
    | nil => exact nil_subset _
    | cons a xs =>
      rw [served]
      refine cons_subset.mpr ⟨mem_cons_self, fun b hb => ?_⟩
      split at hb
      · cases hb
      · have := ih _ hb
        grind

theorem served_eq_self (h : ∀ a ∈ xs, ¬again a ∧ ¬stuck a) :
    served again stuck (xs.length + 1) xs = xs := by
  induction xs with
  | nil => rfl
  | cons a xs ih =>
    obtain ⟨ha, hxs⟩ := forall_mem_cons.mp h
    rw [length_cons, served, if_neg ha.2, if_neg ha.1, append_nil, ih hxs]

theorem length_served_le (h : ∀ a ∈ xs, ¬again a) (n : ℕ) :
    (served again stuck n xs).length ≤ xs.length := by
  induction n generalizing xs with
  | zero => exact zero_le _
  | succ n ih =>
    cases xs with
    | nil => exact zero_le _
    | cons a xs =>
      obtain ⟨ha, hxs⟩ := forall_mem_cons.mp h
      rw [served, if_neg ha, append_nil, length_cons, length_cons]
      split
      · exact succ_le_succ (zero_le _)
      · exact succ_le_succ (ih hxs)

theorem length_served_le_of_stuck (h : stuck t) (n : ℕ) :
    (served again stuck n (xs ++ t :: ys)).length ≤ xs.length + 1 := by
  induction n generalizing xs ys with
  | zero => exact zero_le _
  | succ n ih =>
    cases xs with
    | nil => simp [served, h]
    | cons a xs =>
      rw [cons_append, served, append_assoc, length_cons, length_cons]
      split
      · exact succ_le_succ (zero_le _)
      · exact succ_le_succ ih

theorem length_served_eq {n : ℕ} (ht : t ∈ xs) (hagain : again t)
    (h : ∀ a ∈ served again stuck n xs, ¬stuck a) : (served again stuck n xs).length = n := by
  induction n generalizing xs with
  | zero => rfl
  | succ n ih =>
    obtain ⟨a, xs, rfl⟩ := exists_cons_of_ne_nil (ne_nil_of_mem ht)
    rw [served] at h ⊢
    obtain ⟨ha, hxs⟩ := forall_mem_cons.mp h
    rw [if_neg ha] at hxs ⊢
    exact congrArg (· + 1) (ih (by grind) hxs)

theorem mem_served (h : ∀ a ∈ xs, ¬stuck a) :
    t ∈ served again stuck (xs.length + 1) (xs ++ t :: ys) := by
  induction xs generalizing ys with
  | nil => exact mem_cons_self
  | cons a xs ih =>
    obtain ⟨ha, hxs⟩ := forall_mem_cons.mp h
    rw [cons_append, length_cons, served, if_neg ha, append_assoc]
    exact mem_cons_of_mem _ (ih hxs)

end Easyio.Lists
