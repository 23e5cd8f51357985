import Easyio.Format.Text

/-!
# Formatted output and its buffer

`end` is the last byte of the buffer, as long as the buffer is not empty and does not run
over the end of the address space; otherwise it is the last address of all
(`toNat_lastOf`).  So nothing keeps the output inside of an empty buffer.  Otherwise the
output stays inside of the buffer as long as `str`, which counts on behind `end`, does not
wrap round to the start of the address space.
-/

namespace Easyio.Format

open CString Nat

variable {o : Out} {buf size a : BitVec 32} {n i : ℕ} {content : List UInt8}

theorem toNat_lastOf (buf size : BitVec 32) : (lastOf buf size).toNat =
    if 0 < size.toNat ∧ buf.toNat + size.toNat ≤ 2 ^ 32 then buf.toNat + size.toNat - 1
    else 2 ^ 32 - 1 := by
  have hone : (1 : BitVec 32).toNat = 1 := rfl
  have hend : (buf + size - 1).toNat =
      (2 ^ 32 - 1 + (buf.toNat + size.toNat) % 2 ^ 32) % 2 ^ 32 := by
    rw [BitVec.toNat_sub, BitVec.toNat_add, hone]
  unfold lastOf
  split_ifs with hlt hfits hfits
  · rw [BitVec.lt_def] at hlt
    omega
  · rfl
  · omega
  · rw [BitVec.lt_def] at hlt
    omega

/-! ## The array `tmp` -/

theorem length_tmpLoop {large : Bool} {base num k : ℕ} (h : num < 10 ^ k) :
    (tmpLoop large base num).length ≤ k := by
  induction k generalizing num with
  | zero =>
    obtain rfl : num = 0 := by omega
    rw [tmpLoop]
    exact le_refl _
  | succ k ih =>
    rw [tmpLoop]
    split_ifs
    · exact zero_le _
    · refine succ_le_succ (ih ?_)
      have hdivisor : 10 ≤ divisor base := by
        unfold divisor
        split <;> decide
      refine lt_of_le_of_lt (div_le_div_left hdivisor (by decide)) ?_
      omega

/-- The digits fit into the 16 bytes of `tmp`. -/
theorem length_tmp_le (large : Bool) (base : ℕ) (num : BitVec 32) :
    (tmp large base num).length ≤ 16 := by
  unfold tmp
  split_ifs
  · decide
  · exact length_tmpLoop (lt_trans num.isLt (by decide))

/-! ## Which addresses are written -/

theorem mem_written_put {c : UInt8} :
    a ∈ (o.put c).written ↔ (a = o.str ∧ o.str ≤ o.last) ∨ a ∈ o.written := by
  unfold Out.put
  split_ifs with hroom
  · simp [Out.store, hroom]
  · simp [hroom]

theorem mem_written_puts : a ∈ (o.puts content).written ↔
    (∃ i < content.length, a = o.str + .ofNat 32 i ∧ a ≤ o.last) ∨ a ∈ o.written := by
  induction content generalizing o with
  | nil => simp [Out.puts_nil]
  | cons c content ih =>
    have hput : (o.put c).str = o.str + .ofNat 32 1 := rfl
    have hlast : (o.put c).last = o.last := Out.puts_last [c]
    rw [Out.puts_cons, ih, mem_written_put, hput, hlast, ← or_assoc]
    refine or_congr ⟨?_, ?_⟩ Iff.rfl
    · rintro (⟨i, hi, rfl, hroom⟩ | ⟨rfl, hroom⟩)
      · refine ⟨i + 1, succ_lt_succ hi, ?_, hroom⟩
        rw [BitVec.add_assoc, ← BitVec.ofNat_add, Nat.add_comm]
      · exact ⟨0, succ_pos _, (BitVec.add_zero _).symm, hroom⟩
    · rintro ⟨i, hi, rfl, hroom⟩
      cases i with
      | zero => exact Or.inr ⟨BitVec.add_zero _, (BitVec.add_zero o.str) ▸ hroom⟩
      | succ i =>
        refine Or.inl ⟨i, lt_of_succ_lt_succ hi, ?_, hroom⟩
        rw [BitVec.add_assoc, ← BitVec.ofNat_add, Nat.add_comm]

/-- The zero is written behind the text, or at `end` if there is no room. -/
theorem mem_written_terminate : a ∈ o.terminate.written ↔
    (a = if o.str ≤ o.last then o.str else o.last) ∨ a ∈ o.written := by
  unfold Out.terminate
  split_ifs <;> exact List.mem_cons

theorem terminate_mem : o.terminate.mem (if o.str ≤ o.last then o.str else o.last) = 0 := by
  unfold Out.terminate
  split_ifs <;> exact Function.update_self ..

/-! ## Staying inside -/

/-- Nothing outside of the `size` bytes at `buf` is written, and there is a zero in them
unless `size` is 0. -/
structure InBuffer (buf size : BitVec 32) (o : Out) : Prop where
  inside : ∀ a ∈ o.written, (a - buf).toNat < size.toNat
  terminated : 0 < size.toNat → ∃ i < size.toNat, o.mem (buf + .ofNat 32 i) = 0

/-- The buffer is not empty and, with a text of `n` characters behind its start, does not run
over the end of the address space.  A buffer at address 0 cannot be left this way; and a
buffer that itself runs over the end has no other end than its size. -/
def Fits (buf size : BitVec 32) (n : ℕ) : Prop :=
  0 < size.toNat ∧
    if buf.toNat + size.toNat ≤ 2 ^ 32 then buf.toNat = 0 ∨ buf.toNat + n < 2 ^ 32
    else n < size.toNat

instance : Decidable (Fits buf size n) := instDecidableAnd

/-- The start of an output. -/
abbrev start (mem : BitVec 32 → UInt8) (buf size : BitVec 32) : Out :=
  ⟨mem, buf, lastOf buf size, []⟩

section Fits

variable {mem : BitVec 32 → UInt8}

theorem toNat_add_ofNat : (buf + .ofNat 32 i).toNat = (buf.toNat + i) % 2 ^ 32 := by
  rw [BitVec.toNat_add, BitVec.toNat_ofNat, add_mod_mod]

theorem index_eq : (buf + .ofNat 32 i - buf).toNat = i % 2 ^ 32 := by
  rw [BitVec.add_comm, BitVec.add_sub_cancel, BitVec.toNat_ofNat]

theorem index_lt_of_le_last (hpos : 0 < size.toNat) (hend : buf.toNat + size.toNat ≤ 2 ^ 32)
    (hlow : buf.toNat ≤ a.toNat) (hhigh : a ≤ lastOf buf size) : (a - buf).toNat < size.toNat := by
  rw [BitVec.le_def, toNat_lastOf, if_pos ⟨hpos, hend⟩] at hhigh
  rw [BitVec.toNat_sub_of_le (BitVec.le_def.mpr hlow)]
  omega

theorem mem_written : a ∈ ((start mem buf size).puts content).terminate.written ↔
    (∃ i ≤ content.length, a = buf + .ofNat 32 i ∧ a ≤ lastOf buf size) ∨
      (a = lastOf buf size ∧ ¬buf + .ofNat 32 content.length ≤ lastOf buf size) := by
  rw [mem_written_terminate, mem_written_puts, Out.puts_str, Out.puts_last]
  constructor
  · rintro (hend | ⟨i, hi, ha, hroom⟩ | hnone)
    · split_ifs at hend with hroom
      · exact Or.inl ⟨content.length, le_refl _, hend, hend ▸ hroom⟩
      · exact Or.inr ⟨hend, hroom⟩
    · exact Or.inl ⟨i, le_of_lt hi, ha, hroom⟩
    · cases hnone
  · rintro (⟨i, hi, ha, hroom⟩ | ⟨ha, hroom⟩)
    · rcases lt_or_eq_of_le hi with hlt | rfl
      · exact Or.inr (Or.inl ⟨i, hlt, ha, hroom⟩)
      · exact Or.inl (ha.trans (if_pos (ha ▸ hroom)).symm)
    · exact Or.inl (ha.trans (if_neg hroom).symm)

theorem inside_of_fits (mem : BitVec 32 → UInt8) (h : Fits buf size content.length)
    (ha : a ∈ ((start mem buf size).puts content).terminate.written) :
    (a - buf).toNat < size.toNat := by
  obtain ⟨hpos, hfits⟩ := h
  split_ifs at hfits with hend
  · rcases mem_written.mp ha with ⟨i, hi, rfl, hroom⟩ | ⟨rfl, -⟩
    · refine index_lt_of_le_last hpos hend ?_ hroom
      rw [toNat_add_ofNat]
      rcases hfits with hzero | hwrap
      · omega
      · rw [mod_eq_of_lt (by omega)]
        exact Nat.le_add_right ..
    · refine index_lt_of_le_last hpos hend ?_ (BitVec.le_refl _)
      rw [toNat_lastOf, if_pos ⟨hpos, hend⟩]
      omega
  · have hlast : (lastOf buf size).toNat = 2 ^ 32 - 1 := by
      rw [toNat_lastOf, if_neg fun hboth => hend hboth.2]
    rcases mem_written.mp ha with ⟨i, hi, rfl, -⟩ | ⟨-, hroom⟩
    · rw [index_eq]
      omega
    · refine absurd ?_ hroom
      rw [BitVec.le_def]
      omega

/-- Otherwise an address outside of the buffer is written: the end of an empty text, the
first address of all, or the one behind the buffer. -/
theorem fits_of_inside (h : ∀ a ∈ ((start mem buf size).puts content).terminate.written,
      (a - buf).toNat < size.toNat) :
    Fits buf size content.length := by
  have hlast := toNat_lastOf buf size
  have hpos : 0 < size.toNat := by
    exact lt_of_le_of_lt (zero_le _) (h _ (mem_written_terminate.mpr (Or.inl rfl)))
  -- a character at the position `i` is written unless it is behind `end`
  have hwritten : ∀ i ≤ content.length, (buf.toNat + i) % 2 ^ 32 ≤ (lastOf buf size).toNat →
      i % 2 ^ 32 < size.toNat := by
    intro i hi hroom
    have hmem := h _ (mem_written.mpr (Or.inl ⟨i, hi, rfl, BitVec.le_def.mpr
      (toNat_add_ofNat ▸ hroom)⟩))
    rwa [index_eq] at hmem
  refine ⟨hpos, ?_⟩
  split_ifs with hend
  · by_contra hnot
    have hfirst := hwritten (2 ^ 32 - buf.toNat) (by omega)
    omega
  · rw [if_neg fun hboth => hend hboth.2] at hlast
    by_contra hnot
    have := hwritten size.toNat (by omega) (by omega)
    omega

end Fits

theorem rtVsnprintf_eq (mem : BitVec 32 → UInt8) (buf size : BitVec 32) {fmt : List UInt8}
    {args : List Arg} {its : List Item} (h : items (cString fmt) args = some its) :
    rtVsnprintf mem buf size fmt args =
      some (.ofNat 32 (text (hasRoom buf size) its).length,
        ((start mem buf size).puts (text (hasRoom buf size) its)).terminate) := by
  rw [rtVsnprintf, format_eq, h, Option.map_some, Option.map_some, Out.puts_str, BitVec.add_comm,
    BitVec.add_sub_cancel]

/-- For every format with matching arguments and every buffer, the output stays inside of
the buffer and is terminated there if and only if it fits. -/
theorem vsnprintf_inBuffer_iff (mem : BitVec 32 → UInt8) (buf size : BitVec 32)
    {fmt : List UInt8} {args : List Arg} {its : List Item}
    (h : items (cString fmt) args = some its) :
    ∃ result o, rtVsnprintf mem buf size fmt args = some (result, o) ∧
      (InBuffer buf size o ↔ Fits buf size (text (hasRoom buf size) its).length) := by
  refine ⟨_, _, rtVsnprintf_eq mem buf size h, fun hin => fits_of_inside hin.inside,
    fun hfits => ⟨fun a ha => inside_of_fits mem hfits ha, fun _ => ?_⟩⟩
  have hend := inside_of_fits mem hfits (mem_written_terminate.mpr (Or.inl rfl))
  refine ⟨_, hend, ?_⟩
  rw [BitVec.ofNat_toNat, BitVec.setWidth_eq, BitVec.add_comm, BitVec.sub_add_cancel]
  exact terminate_mem

/-- A number in a buffer of 8 bytes. -/
theorem vsnprintf_inBuffer_iff_number : ∃ result o,
    rtVsnprintf (fun _ => 0) 0x20000000#32 8#32 (ascii "%d") [.word 5#32] = some (result, o) ∧
      (InBuffer 0x20000000#32 8#32 o ↔ Fits 0x20000000#32 8#32
        (text (hasRoom 0x20000000#32 8#32) [.number 5#32 10 (-1) (-1)
          ⟨false, true, false, false, false, false, false⟩]).length) := by
  refine vsnprintf_inBuffer_iff (fun _ => 0) 0x20000000#32 8#32 ?_
  rw [show cString (ascii "%d") = [37, 100] from rfl, items_item rfl, items]
  rfl

/-- An empty buffer is written. -/
theorem vsnprintf_leaves_empty_buffer : ∃ result o,
    rtVsnprintf (fun _ => 0) 0x20000000#32 0#32 (ascii "a") [] = some (result, o) ∧
      ¬InBuffer 0x20000000#32 0#32 o := by
  have hitems : items (cString (ascii "a")) [] = some [.plain 97] := by
    rw [show cString (ascii "a") = [97] from rfl, items_plain (by decide), items]
    rfl
  refine ⟨_, _, rtVsnprintf_eq _ _ _ hitems, fun hin => ?_⟩
  exact not_lt_zero _ (fits_of_inside hin.inside).1

end Easyio.Format
