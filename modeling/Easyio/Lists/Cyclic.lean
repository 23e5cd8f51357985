import Mathlib.Algebra.Group.Nat.Defs
import Mathlib.Data.List.Basic
import Mathlib.Data.Nat.Basic

/-!
# Cyclic buffers

`n` cells that are used in a circle: positions are numbers, and the position `i` is the
cell `i % n`.  `reading cells n i len` are the elements at the `len` positions from `i`
on, `writing cells n i xs` puts `xs` at the positions from `i` on, one after the other.

A queue is kept in such a buffer by reading at one end and writing at the other.  Two
facts say when this works: what is written behind the elements that are still to be read
is appended to them (`reading_writing_append`), and what is written over the oldest ones
takes their place at the other end (`reading_writing_over`).
-/

namespace Easyio.Lists

open List Nat

variable {α : Type*} {cells : ℕ → α} {n i j len : ℕ} {x : α} {xs ys : List α}

/-- The elements at `len` positions from `i` on. -/
def reading (cells : ℕ → α) (n i len : ℕ) : List α :=
  (List.range len).map fun k => cells ((i + k) % n)

/-- `xs` put at the positions from `i` on. -/
def writing (cells : ℕ → α) (n i : ℕ) : List α → ℕ → α
  | [] => cells
  | x :: xs => writing (Function.update cells (i % n) x) n (i + 1) xs

/-! ## Reading -/

@[simp] theorem length_reading : (reading cells n i len).length = len := by simp [reading]

theorem reading_zero : reading cells n i 0 = [] := rfl

theorem reading_add (a b : ℕ) :
    reading cells n i (a + b) = reading cells n i a ++ reading cells n (i + a) b := by
  simp [reading, range_add, add_assoc]

theorem reading_one : reading cells n i 1 = [cells (i % n)] := rfl

/-- Only the cells matter that are read. -/
theorem reading_congr {cells' : ℕ → α} (h : ∀ k < len, cells' ((i + k) % n) = cells ((i + k) % n)) :
    reading cells' n i len = reading cells n i len :=
  map_congr_left fun k hk => h k (mem_range.mp hk)

theorem reading_of_mod_eq (h : i % n = j % n) : reading cells n i len = reading cells n j len := by
  refine map_congr_left fun k _ => ?_
  rw [add_mod, h, ← add_mod]

theorem take_reading (h : j ≤ len) : (reading cells n i len).take j = reading cells n i j := by
  obtain ⟨rest, rfl⟩ := Nat.exists_eq_add_of_le h
  rw [reading_add, take_left' length_reading]

theorem drop_reading (h : j ≤ len) :
    (reading cells n i len).drop j = reading cells n (i + j) (len - j) := by
  obtain ⟨rest, rfl⟩ := Nat.exists_eq_add_of_le h
  rw [reading_add, drop_left' length_reading, Nat.add_sub_cancel_left]

/-! ## Writing -/

theorem writing_append :
    writing cells n i (xs ++ ys) = writing (writing cells n i xs) n (i + xs.length) ys := by
  induction xs generalizing cells i with
  | nil => rfl
  | cons x xs ih =>
    rw [cons_append, writing, ih, writing, length_cons, add_assoc i, add_comm xs.length]

theorem writing_of_mod_eq (h : i % n = j % n) : writing cells n i xs = writing cells n j xs := by
  induction xs generalizing cells i j with
  | nil => rfl
  | cons x xs ih =>
    rw [writing, writing, h, ih]
    rw [add_mod, h, ← add_mod]

theorem writing_apply_of_ne (h : ∀ k < xs.length, (i + k) % n ≠ j) :
    writing cells n i xs j = cells j := by
  induction xs generalizing cells i with
  | nil => rfl
  | cons x xs ih =>
    rw [writing, ih fun k hk => ?_]
    · exact Function.update_of_ne (h 0 (zero_lt_succ _)).symm ..
    · rw [add_assoc, add_comm 1]
      exact h (k + 1) (succ_lt_succ hk)

/-- Positions that are less than a round apart are different cells. -/
theorem mod_ne_of_lt (hlt : i < j) (hround : j < i + n) : j % n ≠ i % n := by
  intro heq
  have hzero := sub_mod_eq_zero_of_mod_eq heq
  rw [mod_eq_of_lt (by omega)] at hzero
  omega

/-- What is written elsewhere within a round. -/
theorem reading_writing_of_le (hfront : i + len ≤ j) (hround : j + xs.length ≤ i + n) :
    reading (writing cells n j xs) n i len = reading cells n i len := by
  refine reading_congr fun k hk => writing_apply_of_ne fun l hl => ?_
  exact mod_ne_of_lt (by omega) (by omega)

theorem reading_writing_self (hlen : xs.length ≤ n) :
    reading (writing cells n i xs) n i xs.length = xs := by
  induction xs generalizing cells i with
  | nil => rfl
  | cons x xs ih =>
    rw [length_cons] at hlen
    rw [length_cons, add_comm, reading_add, reading_one, writing, ih (by omega),
      singleton_append, writing_apply_of_ne, Function.update_self]
    exact fun k hk => mod_ne_of_lt (by omega) (by omega)

theorem reading_writing_append (hlen : len + xs.length ≤ n) :
    reading (writing cells n (i + len) xs) n i (len + xs.length) =
      reading cells n i len ++ xs := by
  rw [reading_add, reading_writing_of_le (le_refl _) (by omega), reading_writing_self (by omega)]

/-- What is written over the oldest elements of a full buffer. -/
theorem reading_writing_over (hlen : xs.length ≤ n) :
    reading (writing cells n i xs) n (i + xs.length) n =
      (reading cells n i n).drop xs.length ++ xs := by
  have hround : (i + xs.length + (n - xs.length)) % n = i % n := by
    rw [Nat.add_assoc, Nat.add_sub_cancel' hlen, Nat.add_mod_right]
  calc reading (writing cells n i xs) n (i + xs.length) n
      = reading (writing cells n i xs) n (i + xs.length) (n - xs.length) ++
          reading (writing cells n i xs) n i xs.length := by
        rw [← reading_of_mod_eq hround, ← reading_add, Nat.sub_add_cancel hlen]
    _ = reading cells n (i + xs.length) (n - xs.length) ++ xs := by
        rw [reading_writing_self hlen]
        congr 1
        -- seen from one round later, the written cells come first
        have hlater : writing cells n i xs = writing cells n (i + n) xs :=
          writing_of_mod_eq (add_mod_right i n).symm
        rw [hlater, reading_writing_of_le (by omega) (by omega)]
    _ = (reading cells n i n).drop xs.length ++ xs := by rw [drop_reading hlen]

end Easyio.Lists
