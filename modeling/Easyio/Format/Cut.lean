import Easyio.Format.Bounds

/-!
# Formatted output that is cut

Two calls of `rt_vsnprintf` that differ in `size` only should give the same result, and
the shorter string should be the start of the longer one.

`print_number` takes the sign off the width of its field only if there is room for the
sign.  So a number that is padded behind its sign and starts behind the end of the buffer
is one character longer than it is in a longer buffer.  The first character of a text
always has room in a buffer that is not empty; hence the sizes agree if and only if no
other item of the format is such a number (`InTime`).
-/

namespace Easyio.Format

open CString Function List Nat

/-! ## Numbers that slip -/

/-- A number with a sign, and padding behind the sign. -/
def Item.Slips : Item → Prop
  | .number num base width precision flags =>
    (signOf flags num).isSome = true ∧ (flags.left = true ∨ flags.zeropad = true) ∧
      0 < numberField num base width precision flags
  | _ => False

instance : DecidablePred Item.Slips
  | .plain _ | .char .. | .string .. | .other _ => inferInstanceAs (Decidable False)
  | .number .. => instDecidableAnd

/-- No item slips, except that the one whose text comes first may do so. -/
def InTime : List Item → Prop
  | [] => True
  | item :: rest => if item.text true = [] then InTime rest else ∀ x ∈ rest, ¬x.Slips

section Lengths

variable {item : Item} {its rest : List Item} {room : ℕ → Bool} {n m : ℕ}

section Numbers

variable {num : BitVec 32} {base : ℕ} {width precision : ℤ} {flags : Flags} {sign : UInt8}

theorem numberText_none (h : signOf flags num = none) (room : Bool) :
    numberText room num base width precision flags =
      numberText true num base width precision flags := by
  unfold numberText
  rw [h]

theorem numberText_before (h : signOf flags num = some sign) (hleft : ¬flags.left = true)
    (hzero : ¬flags.zeropad = true) (room : Bool) :
    numberText room num base width precision flags =
      replicate (numberField num base width precision flags - 1).toNat 32 ++
        sign :: numberBody num base precision flags := by
  unfold numberText
  rw [h]
  exact (if_neg hleft).trans (if_neg hzero)

theorem numberText_behind (h : signOf flags num = some sign)
    (hpadded : flags.left = true ∨ flags.zeropad = true) :
    ∃ join : List UInt8 → List UInt8, (∀ padding, (join padding).length =
        padding.length + (numberBody num base precision flags).length + 1) ∧
      ∃ c, ∀ room : Bool, numberText room num base width precision flags =
        join (replicate (numberField num base width precision flags -
          if room then 1 else 0).toNat c) := by
  unfold numberText
  rw [h]
  by_cases hleft : flags.left = true
  · refine ⟨fun padding => sign :: (numberBody num base precision flags ++ padding),
      fun padding => ?_, 32, fun room => if_pos hleft⟩
    rw [length_cons, length_append, add_comm padding.length]
  · refine ⟨fun padding => sign :: (padding ++ numberBody num base precision flags),
      fun padding => ?_, 48, fun room =>
        (if_neg hleft).trans (if_pos (hpadded.resolve_left hleft))⟩
    rw [length_cons, length_append]

end Numbers

theorem text_of_not_slips (h : ¬item.Slips) (room : Bool) : item.text room = item.text true := by
  cases item with
  | plain c => rfl
  | char flags width c => rfl
  | string flags width precision s => rfl
  | other c => rfl
  | number num base width precision flags =>
    change numberText .. = numberText ..
    cases hsign : signOf flags num with
    | none => exact numberText_none hsign room
    | some sign =>
      by_cases hpadded : flags.left = true ∨ flags.zeropad = true
      · obtain ⟨join, -, c, htext⟩ := numberText_behind hsign hpadded
        have hfield : numberField num base width precision flags ≤ 0 :=
          Int.not_lt.mp fun hlt => h ⟨hsign ▸ rfl, hpadded, hlt⟩
        have hpadding : ∀ room : Bool, (numberField num base width precision flags -
            if room = true then 1 else 0).toNat = 0 := by
          intro room
          split_ifs <;> omega
        rw [htext, htext, hpadding, hpadding]
      · obtain ⟨hleft, hzero⟩ := not_or.mp hpadded
        rw [numberText_before hsign hleft hzero, numberText_before hsign hleft hzero]

theorem length_text_of_slips (h : item.Slips) :
    (item.text false).length = (item.text true).length + 1 := by
  cases item with
  | plain c | char flags width c | string flags width precision s | other c => exact h.elim
  | number num base width precision flags =>
    change (numberText ..).length = (numberText ..).length + 1
    obtain ⟨hsome, hpadded, hfield⟩ := h
    obtain ⟨sign, hsign⟩ := Option.isSome_iff_exists.mp hsome
    obtain ⟨join, hjoin, c, htext⟩ := numberText_behind hsign hpadded
    rw [htext, htext, hjoin, hjoin, length_replicate, length_replicate, if_pos rfl,
      if_neg Bool.false_ne_true]
    omega

theorem textFrom_of_room (h : ∀ i, room i = true) :
    textFrom room n its = its.flatMap (Item.text true) := by
  induction its generalizing n with
  | nil => rfl
  | cons item rest ih => rw [textFrom, h, ih, flatMap_cons]

theorem textFrom_of_forall (h : ∀ x ∈ its, ¬x.Slips) :
    textFrom room n its = its.flatMap (Item.text true) := by
  induction its generalizing n with
  | nil => rfl
  | cons item rest ih =>
    obtain ⟨hitem, hrest⟩ := forall_mem_cons.mp h
    rw [textFrom, text_of_not_slips hitem, ih hrest, flatMap_cons]

theorem text_of_inTime (h : InTime its) (hroom : room 0 = true) :
    text room its = its.flatMap (Item.text true) := by
  unfold text
  induction its with
  | nil => rfl
  | cons item rest ih =>
    unfold InTime at h
    rw [textFrom, hroom]
    refine congrArg (item.text true ++ ·) ?_
    split_ifs at h with hempty
    · rw [hempty]
      exact ih h
    · exact textFrom_of_forall h

/-- Behind the buffer every item that slips is one character longer. -/
theorem length_textFrom (hroom : ∀ i, 0 < i → i < m → room i = false) (hn : 0 < n)
    (hm : n + (textFrom room n its).length < m) : (textFrom room n its).length =
      (its.flatMap (Item.text true)).length + its.countP (Item.Slips ·) := by
  induction its generalizing n with
  | nil => rfl
  | cons item rest ih =>
    have hnext : room n = false := hroom n hn (by omega)
    rw [textFrom, hnext, length_append] at hm ⊢
    rw [ih (by omega) (by omega), flatMap_cons, length_append, countP_cons]
    by_cases hslips : item.Slips
    · rw [length_text_of_slips hslips, if_pos (decide_eq_true hslips)]
      omega
    · rw [text_of_not_slips hslips, if_neg (by simpa using hslips)]
      omega

theorem length_text_of_not_inTime (h : ¬InTime its) (hfirst : room 0 = true)
    (hroom : ∀ i, 0 < i → i < m → room i = false) (hm : (text room its).length < m) :
    ∃ k, 0 < k ∧ (text room its).length = (its.flatMap (Item.text true)).length + k := by
  unfold text at hm ⊢
  induction its with
  | nil => exact absurd trivial h
  | cons item rest ih =>
    unfold InTime at h
    rw [textFrom, hfirst] at hm ⊢
    rw [flatMap_cons, length_append, length_append]
    split_ifs at h with hempty
    · rw [hempty] at hm ⊢
      obtain ⟨k, hk, hlength⟩ := ih h hm
      exact ⟨k, hk, by simpa using hlength⟩
    · have hpos := length_pos_iff.mpr hempty
      rw [length_append] at hm
      refine ⟨rest.countP (Item.Slips ·), ?_, ?_⟩
      · rw [countP_pos_iff]
        by_contra hnone
        exact h fun x hx hslips => hnone ⟨x, hx, decide_eq_true hslips⟩
      · rw [length_textFrom hroom (by omega) (by omega), add_assoc]

end Lengths

/-! ## The string in the buffer -/

/-- The string at the start of the buffer. -/
def stringIn (o : Out) (buf size : BitVec 32) : List UInt8 :=
  cString ((List.range size.toNat).map fun i => o.mem (buf + .ofNat 32 i))

section Strings

variable {o : Out} {buf size a : BitVec 32} {content : List UInt8} {mem : BitVec 32 → UInt8}
  {i j : ℕ} {c : UInt8}

theorem add_ofNat_inj (hi : i < 2 ^ 32) (hj : j < 2 ^ 32)
    (h : buf + .ofNat 32 i = buf + .ofNat 32 j) : i = j := by
  have hindex : (buf + .ofNat 32 i - buf).toNat = (buf + .ofNat 32 j - buf).toNat := by
    rw [h]
  rwa [index_eq, index_eq, mod_eq_of_lt hi, mod_eq_of_lt hj] at hindex

theorem put_mem_self : (o.put c).mem o.str = if o.str ≤ o.last then c else o.mem o.str := by
  unfold Out.put
  split_ifs
  · exact update_self ..
  · rfl

theorem put_mem_of_ne (h : a ≠ o.str) : (o.put c).mem a = o.mem a := by
  unfold Out.put
  split_ifs
  · exact update_of_ne h ..
  · rfl

/-- A text that is not longer than the address space is stored as far as there is room. -/
theorem puts_mem (hlength : content.length ≤ 2 ^ 32) (hi : i < 2 ^ 32) :
    (o.puts content).mem (o.str + .ofNat 32 i) =
      if o.str + .ofNat 32 i ≤ o.last then
        content[i]?.getD (o.mem (o.str + .ofNat 32 i))
      else o.mem (o.str + .ofNat 32 i) := by
  induction content generalizing o i with
  | nil => exact (ite_self _).symm
  | cons c content ih =>
    have hstr : (o.put c).str = o.str + .ofNat 32 1 := rfl
    have hlast : (o.put c).last = o.last := Out.puts_last [c]
    rw [length_cons] at hlength
    rw [Out.puts_cons]
    cases i with
    | zero =>
      -- the address of the first character is the last one that the rest can reach
      have hround : o.str + .ofNat 32 0 = (o.put c).str + .ofNat 32 (2 ^ 32 - 1) := by
        rw [hstr, BitVec.add_assoc]
        rfl
      have hnone : content[2 ^ 32 - 1]? = none := getElem?_eq_none (by omega)
      rw [hround, ih (by omega) (by omega), hnone, Option.getD_none, ite_self, ← hround,
        BitVec.add_zero]
      exact put_mem_self
    | succ i =>
      have hnext : o.str + .ofNat 32 (i + 1) = (o.put c).str + .ofNat 32 i := by
        rw [hstr, BitVec.add_assoc, ← BitVec.ofNat_add, Nat.add_comm]
      have hne : (o.put c).str + .ofNat 32 i ≠ o.str := by
        intro heq
        have hzero : o.str + .ofNat 32 (i + 1) = o.str + .ofNat 32 0 := by
          rw [hnext, heq, BitVec.add_zero]
        exact Nat.succ_ne_zero i (add_ofNat_inj hi (Nat.two_pow_pos 32) hzero)
      rw [hnext, ih (by omega) (by omega), hlast, put_mem_of_ne hne, getElem?_cons_succ]

variable (mem : BitVec 32 → UInt8)

/-- The text with its end, when it does not run over the end of the address space: the last
byte of the buffer is the latest place for the zero. -/
theorem end_eq (hpos : 0 < size.toNat)
    (hroom : buf.toNat + content.length < 2 ^ 32) :
    (if ((start mem buf size).puts content).str ≤ ((start mem buf size).puts content).last
      then ((start mem buf size).puts content).str
      else ((start mem buf size).puts content).last) =
      buf + .ofNat 32 (min content.length (size.toNat - 1)) := by
  have hlast := toNat_lastOf buf size
  have hstr : (buf + .ofNat 32 content.length).toNat = buf.toNat + content.length := by
    rw [toNat_add_ofNat, mod_eq_of_lt hroom]
  rw [Out.puts_str, Out.puts_last]
  change (if buf + .ofNat 32 content.length ≤ lastOf buf size then
    buf + .ofNat 32 content.length else lastOf buf size) = _
  split_ifs with hle
  · rw [BitVec.le_def] at hle
    rw [min_eq_left]
    split_ifs at hlast <;> omega
  · rw [BitVec.le_def] at hle
    split_ifs at hlast with hfits
    · apply BitVec.eq_of_toNat_eq
      rw [toNat_add_ofNat]
      omega
    · omega

theorem terminate_mem_of_ne (h : a ≠ if o.str ≤ o.last then o.str else o.last) :
    o.terminate.mem a = o.mem a := by
  unfold Out.terminate
  split_ifs with hroom
  · rw [if_pos hroom] at h
    exact update_of_ne h ..
  · rw [if_neg hroom] at h
    exact update_of_ne h ..

theorem terminate_mem_char (hroom : buf.toNat + content.length < 2 ^ 32)
    (hi : i < min content.length (size.toNat - 1)) :
    ((start mem buf size).puts content).terminate.mem (buf + .ofNat 32 i) =
      content[i]?.getD 0 := by
  have hne : buf + .ofNat 32 i ≠
      buf + .ofNat 32 (min content.length (size.toNat - 1)) := fun heq =>
    Nat.ne_of_lt hi (add_ofNat_inj (by omega) (by omega) heq)
  rw [← end_eq mem (by omega) hroom] at hne
  have hle : buf + .ofNat 32 i ≤ lastOf buf size := by
    rw [BitVec.le_def, toNat_add_ofNat, toNat_lastOf]
    split_ifs <;> omega
  have hstored := puts_mem (o := start mem buf size) (le_of_lt (lt_of_le_of_lt
    (Nat.le_add_left ..) hroom)) (show i < 2 ^ 32 by omega)
  rw [terminate_mem_of_ne hne]
  refine hstored.trans ((if_pos hle).trans ?_)
  rw [getElem?_eq_getElem (by omega)]
  rfl

theorem map_range_add {α : Type*} (f : ℕ → α) (n k : ℕ) : (range (n + (k + 1))).map f =
      (range n).map f ++ f n :: (range k).map fun i => f (n + (i + 1)) := by
  rw [range_add, map_append, range_succ_eq_map, map_cons, map_cons, map_map, map_map]
  rfl

theorem stringIn_eq (hpos : 0 < size.toNat)
    (hroom : buf.toNat + content.length < 2 ^ 32) :
    stringIn ((start mem buf size).puts content).terminate buf size =
      cString (content.take (size.toNat - 1)) := by
  obtain ⟨k, hk⟩ : ∃ k, size.toNat = min content.length (size.toNat - 1) + (k + 1) :=
    ⟨size.toNat - 1 - min content.length (size.toNat - 1), by omega⟩
  have hzero : ((start mem buf size).puts content).terminate.mem
      (buf + .ofNat 32 (min content.length (size.toNat - 1))) = 0 :=
    end_eq mem hpos hroom ▸ terminate_mem
  have hchars : (range (min content.length (size.toNat - 1))).map
      (fun i => ((start mem buf size).puts content).terminate.mem (buf + .ofNat 32 i)) =
      content.take (size.toNat - 1) := by
    refine ext_getElem ?_ fun i hi hi' => ?_
    · rw [length_map, length_range, length_take, min_comm]
    · rw [length_map, length_range] at hi
      rw [getElem_map, getElem_range, terminate_mem_char mem hroom hi, getElem_take,
        getElem?_eq_getElem (by omega), Option.getD_some]
  unfold stringIn
  rw [hk, map_range_add, hzero, cString_append_cons_zero, ← hk, hchars]

end Strings

/-! ## Sizes -/

theorem hasRoom_zero (buf size : BitVec 32) : hasRoom buf size 0 = true := by
  refine decide_eq_true ?_
  rw [BitVec.le_def, BitVec.add_zero, toNat_lastOf]
  split_ifs <;> omega

theorem hasRoom_empty (buf : BitVec 32) (n : ℕ) : hasRoom buf 0#32 n = true := by
  refine decide_eq_true ?_
  rw [BitVec.le_def, toNat_lastOf, if_neg fun h => lt_irrefl 0 h.1]
  omega

theorem hasRoom_one {buf : BitVec 32} {n : ℕ} (hn : 0 < n) (hroom : n < 2 ^ 32 - buf.toNat) :
    hasRoom buf 1#32 n = false := by
  have hone : (1#32).toNat = 1 := rfl
  refine decide_eq_false fun hle => ?_
  rw [BitVec.le_def, toNat_add_ofNat, toNat_lastOf, if_pos (by omega)] at hle
  omega

/-- The result does not depend on the size, and the string in a shorter buffer is the start
of the string in a longer one. -/
structure CutsEvenly (mem : BitVec 32 → UInt8) (buf : BitVec 32) (fmt : List UInt8)
    (args : List Arg) : Prop where
  result : ∀ size size' result result' o o', rtVsnprintf mem buf size fmt args = some (result, o) →
    rtVsnprintf mem buf size' fmt args = some (result', o') → result = result'
  string : ∀ size size' result result' o o', 0 < size.toNat → size.toNat ≤ size'.toNat →
    rtVsnprintf mem buf size fmt args = some (result, o) →
    rtVsnprintf mem buf size' fmt args = some (result', o') →
    stringIn o buf size = (stringIn o' buf size').take (size.toNat - 1)

section Main

variable {buf : BitVec 32} {fmt : List UInt8} {args : List Arg} {its : List Item}

section

variable (mem : BitVec 32 → UInt8)
  (h : items (cString fmt) args = some its)
  (hroom : ∀ size, buf.toNat + (text (hasRoom buf size) its).length < 2 ^ 32)
include mem h hroom

theorem cutsEvenly_of_inTime (hin : InTime its) : CutsEvenly mem buf fmt args := by
  have htext : ∀ size, text (hasRoom buf size) its = its.flatMap (Item.text true) :=
    fun size => text_of_inTime hin (hasRoom_zero buf size)
  have hrun : ∀ size, rtVsnprintf mem buf size fmt args =
      some (.ofNat 32 (its.flatMap (Item.text true)).length,
        ((start mem buf size).puts (its.flatMap (Item.text true))).terminate) := by
    intro size
    rw [rtVsnprintf_eq mem buf size h, htext]
  have hfits := hroom 0#32
  rw [htext] at hfits
  refine ⟨fun size size' result result' o o' hsize hsize' => ?_,
    fun size size' result result' o o' hpos hle hsize hsize' => ?_⟩
  · rw [hrun] at hsize hsize'
    cases hsize
    cases hsize'
    rfl
  · rw [hrun] at hsize hsize'
    cases hsize
    cases hsize'
    rw [stringIn_eq mem hpos hfits, stringIn_eq mem (lt_of_lt_of_le hpos hle) hfits]
    unfold cString
    rw [take_takeWhile, take_take, Nat.min_eq_left (Nat.sub_le_sub_right hle 1)]

/-- Otherwise the result for size 1 is larger than the one for size 0. -/
theorem inTime_of_result (hcuts : CutsEvenly mem buf fmt args) : InTime its := by
  by_contra hlate
  have hfull : text (hasRoom buf 0#32) its = its.flatMap (Item.text true) :=
    textFrom_of_room (hasRoom_empty buf)
  obtain ⟨k, hk, hlength⟩ := length_text_of_not_inTime hlate (hasRoom_zero buf 1#32)
    (fun i hi hlt => hasRoom_one hi hlt) (Nat.lt_sub_of_add_lt (Nat.add_comm .. ▸ hroom 1#32))
  have hsame := hcuts.result 1#32 0#32 _ _ _ _ (rtVsnprintf_eq mem buf _ h)
    (rtVsnprintf_eq mem buf _ h)
  have hnat := congrArg BitVec.toNat hsame
  have hone := hroom 1#32
  rw [BitVec.toNat_ofNat, BitVec.toNat_ofNat, hfull] at hnat
  omega

end

/-- For every format with matching arguments and every buffer behind which the text does not
run over the end of the address space, whatever its size, the output is cut evenly if and
only if no number slips that is not at the start of the text. -/
theorem vsnprintf_cutsEvenly_iff (mem : BitVec 32 → UInt8) (h : items (cString fmt) args = some its)
    (hroom : ∀ size, buf.toNat + (text (hasRoom buf size) its).length < 2 ^ 32) :
    CutsEvenly mem buf fmt args ↔ InTime its :=
  ⟨inTime_of_result mem h hroom, cutsEvenly_of_inTime mem h hroom⟩

end Main

/-- The item of `%05d` for -1. -/
def paddedMinusOne : Item :=
  .number (-1#32) 10 5 (-1) ⟨true, true, false, false, false, false, false⟩

theorem text_paddedMinusOne (room : Bool) :
    paddedMinusOne.text room = ascii (if room then "-0001" else "-00001") := by
  have htmp : tmp false 10 1#32 = [49] := by
    have hloop : tmpLoop false 10 1 = [49] := by
      rw [tmpLoop, tmpLoop]
      rfl
    exact hloop
  have hmagnitude : magnitude ⟨true, true, false, false, false, false, false⟩ (-1#32) = 1#32 := rfl
  rw [paddedMinusOne, Item.text, numberText, numberBody, numberField, hmagnitude]
  rw [htmp]
  cases room <;> decide

/-- `%05d` with -1, at the start of the text. -/
theorem vsnprintf_cutsEvenly_iff_first :
    CutsEvenly (fun _ => 0) 0x20000000#32 (ascii "%05d") [.word (-1#32)] ↔
      InTime [paddedMinusOne] := by
  refine vsnprintf_cutsEvenly_iff _ ?_ fun size => ?_
  · rw [show cString (ascii "%05d") = [37, 48, 53, 100] from rfl, items_item rfl, items]
    rfl
  · rw [text, textFrom, hasRoom_zero, textFrom, append_nil, text_paddedMinusOne]
    decide

/-- `x%05d` with -1: behind a buffer of one byte the number is one character longer than in a
buffer of 64 bytes. -/
theorem vsnprintf_result_depends_on_size :
    ¬CutsEvenly (fun _ => 0) 0x20000000#32 (ascii "x%05d") [.word (-1#32)] := by
  have hitems : items (cString (ascii "x%05d")) [.word (-1#32)] =
      some [.plain 120, paddedMinusOne] := by
    rw [show cString (ascii "x%05d") = [120, 37, 48, 53, 100] from rfl, items_plain (by decide),
      items_item rfl, items]
    rfl
  intro h
  have hsame := h.result 1#32 64#32 _ _ _ _ (rtVsnprintf_eq _ _ _ hitems)
    (rtVsnprintf_eq _ _ _ hitems)
  rw [text, text, textFrom, textFrom, textFrom, textFrom, textFrom, text_paddedMinusOne,
    text_paddedMinusOne] at hsame
  exact absurd hsame (by decide)

end Easyio.Format
