import Mathlib.Algebra.Group.Nat.Defs
import Mathlib.Data.List.Basic
import Mathlib.Data.Nat.Basic
import Mathlib.Order.Basic

/-!
# NOR flash cells

A NOR flash chip is an array of bytes with two ways to change it.  An erase
sets a whole block to `0xFF`; a page program ANDs a run of bytes into one page,
its address counter wrapping round inside that page.  Nothing here is about a
particular chip: the block and page sizes are parameters.

The array itself is a function on addresses, so that "every other byte keeps
its value" is an equation between functions.  Two closed forms are what the
drivers above are compared with:

* `overwrite mem addr data`: `data` stored at `addr`, the rest unchanged;
* `andInto mem addr data`: the same run ANDed in.

`programPage_eq_andInto` says that a page program which does not run over the
end of its page is the second, and `andInto_eq_overwrite` that over erased cells
the second is the first.
-/

namespace Easyio.Nor

open Function List Nat Option

/-- The bytes of a chip, by address. -/
abbrev Cells := ℕ → UInt8

/-- The `n` bytes of `mem` from `addr` on. -/
def window (mem : Cells) (addr n : ℕ) : List UInt8 := (List.range n).map fun i => mem (addr + i)

/-- `data` stored at `addr`; every other cell unchanged. -/
def overwrite (mem : Cells) (addr : ℕ) (data : List UInt8) : Cells := fun i =>
  if addr ≤ i then (data[i - addr]?).getD (mem i) else mem i

/-- `data` ANDed into the cells from `addr` on; every other cell unchanged. -/
def andInto (mem : Cells) (addr : ℕ) (data : List UInt8) : Cells := fun i =>
  if addr ≤ i then ((data[i - addr]?).map (mem i &&& ·)).getD (mem i) else mem i

/-- Erase the block of `size` bytes that holds `addr`. -/
def eraseBlock (size : ℕ) (mem : Cells) (addr : ℕ) : Cells := fun i =>
  if i / size = addr / size then 0xFF else mem i

/-- The address the chip's counter takes after `addr`: the next one of the page,
or the first of the page after its last. -/
def nextInPage (page addr : ℕ) : ℕ := addr / page * page + (addr + 1) % page

/-- Program `data` byte by byte from `addr` on, inside the page of `addr`. -/
def programPage (page : ℕ) : Cells → ℕ → List UInt8 → Cells
  | mem, _, [] => mem
  | mem, addr, b :: rest =>
    programPage page (update mem addr (mem addr &&& b)) (nextInPage page addr) rest

/-- A command that changes the chip. -/
inductive Op where
  | erase (addr : ℕ)
  | program (addr : ℕ) (data : List UInt8)

def apply (size page : ℕ) (mem : Cells) : Op → Cells
  | .erase addr => eraseBlock size mem addr
  | .program addr data => programPage page mem addr data

def Op.addr : Op → ℕ
  | .erase addr => addr
  | .program addr _ => addr

/-- A program command that stays inside one page. -/
def Op.InPage (page : ℕ) : Op → Prop
  | .erase _ => True
  | .program addr data => addr % page + data.length ≤ page

instance (page : ℕ) : (op : Op) → Decidable (op.InPage page)
  | .erase _ => inferInstanceAs (Decidable True)
  | .program addr data => inferInstanceAs (Decidable (addr % page + data.length ≤ page))

/-! ## Windows -/

section

variable (mem : Cells) (addr n : ℕ)

@[simp] theorem length_window : (window mem addr n).length = n := by
  simp [window]

theorem getElem?_window (i : ℕ) :
    (window mem addr n)[i]? = if i < n then some (mem (addr + i)) else none := by
  unfold window
  split <;> simp_all

theorem head?_window : (window mem addr n).head? = if 0 < n then some (mem addr) else none := by
  rw [head?_eq_getElem?, getElem?_window, add_zero]

end

variable {addr n i size page : ℕ} {mem : Cells} {data : List UInt8}

theorem window_congr {first second : Cells} (h : ∀ i < n, first (addr + i) = second (addr + i)) :
    window first addr n = window second addr n := by
  exact map_congr_left fun i hi => h i (mem_range.mp hi)

theorem window_add (mem : Cells) (addr m n : ℕ) :
    window mem addr (m + n) = window mem addr m ++ window mem (addr + m) n := by
  simp [window, range_add, add_assoc]

theorem window_succ (mem : Cells) (addr n : ℕ) :
    window mem addr (n + 1) = window mem addr n ++ [mem (addr + n)] := by
  rw [window_add]
  simp [window]

theorem window_update_of_ge (b : UInt8) (h : addr + n ≤ i) :
    window (update mem i b) addr n = window mem addr n :=
  window_congr fun j hj => update_of_ne (by omega) ..

/-! ## Overwriting -/

@[simp] theorem overwrite_nil (mem : Cells) (addr : ℕ) : overwrite mem addr [] = mem := by
  funext i
  simp [overwrite]

theorem overwrite_apply_of_lt (data : List UInt8) (h : i < addr) :
    overwrite mem addr data i = mem i := by
  simp [overwrite, not_le.mpr h]

theorem overwrite_apply_of_ge (h : addr + data.length ≤ i) : overwrite mem addr data i = mem i := by
  have hnone : data[i - addr]? = none := by
    rw [getElem?_eq_none_iff]
    omega
  simp [overwrite, hnone]

theorem overwrite_apply_of_mem {j : ℕ} (h : j < data.length) :
    overwrite mem addr data (addr + j) = data[j] := by
  simp [overwrite, h]

section

variable (mem : Cells) (addr : ℕ)

theorem overwrite_append (first second : List UInt8) :
    overwrite mem addr (first ++ second) =
      overwrite (overwrite mem addr first) (addr + first.length) second := by
  funext i
  unfold overwrite
  rcases lt_or_ge i addr with hlt | hge
  · rw [if_neg (by omega), if_neg (by omega), if_neg (by omega)]
  · rcases lt_or_ge (i - addr) first.length with hfirst | hsecond
    · rw [if_pos hge, if_neg (by omega), if_pos hge, getElem?_append_left hfirst]
    · rw [if_pos hge, if_pos (by omega), if_pos hge, getElem?_append_right hsecond,
        getElem?_eq_none_iff.mpr hsecond, Nat.sub_sub, getD_none]

/-- A run is gone when a run of at least its length is stored in its place. -/
theorem overwrite_overwrite {first second : List UInt8}
    (h : first.length ≤ second.length) :
    overwrite (overwrite mem addr first) addr second = overwrite mem addr second := by
  funext i
  rcases lt_or_ge i addr with hlt | hge
  · rw [overwrite_apply_of_lt _ hlt, overwrite_apply_of_lt _ hlt, overwrite_apply_of_lt _ hlt]
  · obtain ⟨j, rfl⟩ := Nat.exists_eq_add_of_le hge
    rcases lt_or_ge j second.length with hin | hout
    · rw [overwrite_apply_of_mem hin, overwrite_apply_of_mem hin]
    · rw [overwrite_apply_of_ge (by omega), overwrite_apply_of_ge (by omega),
        overwrite_apply_of_ge (by omega)]

theorem overwrite_singleton (b : UInt8) : overwrite mem addr [b] = update mem addr b := by
  funext i
  unfold overwrite
  rcases lt_trichotomy i addr with hlt | rfl | hgt
  · rw [if_neg (by omega), update_of_ne (by omega)]
  · simp
  · rw [if_pos (by omega), update_of_ne (by omega),
      getElem?_eq_none_iff.mpr (by simp; omega), getD_none]

theorem window_overwrite (data : List UInt8) :
    window (overwrite mem addr data) addr data.length = data := by
  apply ext_getElem?
  intro i
  rw [getElem?_window]
  split
  · rename_i hi
    rw [overwrite_apply_of_mem hi, getElem?_eq_getElem hi]
  · rw [getElem?_eq_none_iff.mpr (by omega)]

theorem window_overwrite_append (first second : List UInt8) :
    window (overwrite mem addr (first ++ second)) addr first.length = first := by
  calc window (overwrite mem addr (first ++ second)) addr first.length
        = window (overwrite mem addr first) addr first.length := by
          rw [overwrite_append]
          exact window_congr fun i hi => overwrite_apply_of_lt _ (by omega)
    _ = first := window_overwrite mem addr first

end

/-- Rewriting a whole block from a copy of it in which `data` was put at offset
`off` changes only the cells under `data`. -/
theorem overwrite_patched_block {buf : Cells} {base off : ℕ}
    (hcopy : ∀ i < size, buf i = mem (base + i)) (hfit : off + data.length ≤ size) :
    overwrite mem base (window (overwrite buf off data) 0 size) =
      overwrite mem (base + off) data := by
  funext i
  by_cases hin : base ≤ i ∧ i < base + size
  · obtain ⟨j, rfl⟩ := Nat.exists_eq_add_of_le hin.1
    have hj : j < size := by omega
    rw [overwrite_apply_of_mem (by simpa using hj)]
    simp only [window, getElem_map, getElem_range, zero_add]
    unfold overwrite
    rw [hcopy j hj, Nat.add_sub_add_left]
    simp only [Nat.add_le_add_iff_left]
  · rcases lt_or_ge i base with hlt | hge
    · rw [overwrite_apply_of_lt _ hlt, overwrite_apply_of_lt _ (by omega)]
    · rw [overwrite_apply_of_ge (by simp; omega), overwrite_apply_of_ge (by omega)]

/-! ## Programming -/

theorem and_erased (b : UInt8) : 0xFF &&& b = b := UInt8.neg_one_and

theorem andInto_append (mem : Cells) (addr : ℕ) (first second : List UInt8) :
    andInto mem addr (first ++ second) =
      andInto (andInto mem addr first) (addr + first.length) second := by
  funext i
  unfold andInto
  rcases lt_or_ge i addr with hlt | hge
  · rw [if_neg (by omega), if_neg (by omega), if_neg (by omega)]
  · rcases lt_or_ge (i - addr) first.length with hfirst | hsecond
    · rw [if_pos hge, if_neg (by omega), if_pos hge, getElem?_append_left hfirst]
    · rw [if_pos hge, if_pos (by omega), if_pos hge, getElem?_append_right hsecond,
        getElem?_eq_none_iff.mpr hsecond, Nat.sub_sub, map_none, getD_none]

theorem andInto_apply_of_lt (data : List UInt8) (h : i < addr) :
    andInto mem addr data i = mem i := by
  simp [andInto, not_le.mpr h]

theorem andInto_apply_of_ge (h : addr + data.length ≤ i) : andInto mem addr data i = mem i := by
  have hnone : data[i - addr]? = none := by
    rw [getElem?_eq_none_iff]
    omega
  simp [andInto, hnone]

@[simp] theorem andInto_nil (mem : Cells) (addr : ℕ) : andInto mem addr [] = mem := by
  funext i
  simp [andInto]

theorem andInto_singleton (mem : Cells) (addr : ℕ) (b : UInt8) :
    andInto mem addr [b] = update mem addr (mem addr &&& b) := by
  funext i
  unfold andInto
  rcases lt_trichotomy i addr with hlt | rfl | hgt
  · rw [if_neg (by omega), update_of_ne (by omega)]
  · simp
  · rw [if_pos (by omega), update_of_ne (by omega),
      getElem?_eq_none_iff.mpr (by simp; omega), map_none, getD_none]

theorem nextInPage_of_lt (h : addr % page + 1 < page) : nextInPage page addr = addr + 1 := by
  have hmod : (addr + 1) % page = addr % page + 1 := by
    rw [add_mod, mod_eq_of_lt (show 1 < page by omega), mod_eq_of_lt h]
  have hdiv := div_add_mod addr page
  rw [nextInPage, mul_comm]
  omega

/-- A page program that does not run over the end of its page ANDs its bytes in
from `addr` on. -/
theorem programPage_eq_andInto (mem : Cells) (addr : ℕ) (data : List UInt8)
    (h : addr % page + data.length ≤ page) :
    programPage page mem addr data = andInto mem addr data := by
  induction data generalizing mem addr with
  | nil => simp [programPage]
  | cons b rest ih =>
    rw [programPage, ← singleton_append, andInto_append, andInto_singleton]
    cases rest with
    | nil => simp [programPage]
    | cons c more =>
      -- the counter stays inside the page because a byte is still to come
      have hroom : addr % page + 1 < page := by simp at h; omega
      rw [nextInPage_of_lt hroom]
      refine ih _ _ ?_
      rw [add_mod, mod_eq_of_lt (show 1 < page by omega), mod_eq_of_lt hroom]
      simp at h ⊢
      omega

/-- Over erased cells a program stores exactly its bytes. -/
theorem andInto_eq_overwrite (h : ∀ j < data.length, mem (addr + j) = 0xFF) :
    andInto mem addr data = overwrite mem addr data := by
  funext i
  unfold andInto overwrite
  rcases lt_or_ge i addr with hlt | hge
  · rw [if_neg (by omega), if_neg (by omega)]
  · rcases lt_or_ge (i - addr) data.length with hin | hout
    · have herased : mem i = 0xFF := by
        have := h (i - addr) hin
        rwa [Nat.add_sub_cancel' hge] at this
      rw [herased]
      simp [and_erased]
    · rw [getElem?_eq_none_iff.mpr hout]
      rfl

/-! ## Erasing -/

theorem eraseBlock_apply_of_eq (h : i / size = addr / size) :
    eraseBlock size mem addr i = 0xFF := by
  simp [eraseBlock, h]

theorem eraseBlock_apply_of_ne (h : i / size ≠ addr / size) :
    eraseBlock size mem addr i = mem i := by
  simp [eraseBlock, h]

/-- A block that is erased and then programmed from end to end holds the new
bytes, and nothing else has changed. -/
theorem andInto_eraseBlock (mem : Cells) (block : ℕ) (hsize : 0 < size)
    (hdata : data.length = size) :
    andInto (eraseBlock size mem (block * size)) (block * size) data =
      overwrite mem (block * size) data := by
  have hblock : ∀ j < size, (block * size + j) / size = block * size / size := by
    intro j hj
    rw [Nat.mul_div_cancel _ hsize, Nat.mul_comm, Nat.mul_add_div hsize, Nat.div_eq_of_lt hj,
      add_zero]
  rw [andInto_eq_overwrite fun j hj => eraseBlock_apply_of_eq (hblock j (hdata ▸ hj))]
  funext i
  by_cases hin : block * size ≤ i ∧ i < block * size + size
  · obtain ⟨j, rfl⟩ := Nat.exists_eq_add_of_le hin.1
    have hj : j < data.length := by omega
    rw [overwrite_apply_of_mem hj, overwrite_apply_of_mem hj]
  · have hother : i / size ≠ block * size / size := by
      rw [Nat.mul_div_cancel _ hsize, Ne, Nat.div_eq_iff hsize]
      intro hcontra
      apply hin
      constructor
      · exact hcontra.1
      · omega
    rcases lt_or_ge i (block * size) with hlt | hge
    · rw [overwrite_apply_of_lt _ hlt, overwrite_apply_of_lt _ hlt, eraseBlock_apply_of_ne hother]
    · rw [overwrite_apply_of_ge (by omega), overwrite_apply_of_ge (by omega),
        eraseBlock_apply_of_ne hother]

end Easyio.Nor
