import Easyio.CString.Basic
import Mathlib.Algebra.Ring.Nat

/-!
# JSON objects as text

Objects whose members are strings and integers, and their text as `cJSON_Print`
writes it (`json/cJSON.c`): `print_object` for one level, `print_string_ptr` and
`print_number`.

`Faithful parse` says what is expected of a parser for these texts: it gives the
object back, whatever follows the text, and it refuses a text that was cut off.
Strings are C strings, and integers those of C's `int` and `unsigned int`.
-/

namespace Easyio.Json

open CString List Nat

inductive Value where
  | num (n : ℤ)
  | str (s : List UInt8)
  deriving DecidableEq

/-- The members of an object, in order. -/
abbrev Object := List (List UInt8 × Value)

/-! ## Printing -/

/-- The text of a byte inside a string. -/
def escape (b : UInt8) : List UInt8 :=
  if 31 < b ∧ b ≠ 34 ∧ b ≠ 92 then [b]
  else
    92 :: match b with
      | 92 => [92]
      | 34 => [34]
      | 8 => [98]
      | 12 => [102]
      | 10 => [110]
      | 13 => [114]
      | 9 => [116]
      | _ => [117, 48, 48] ++ hex2 b

/-- `print_string_ptr` -/
def printString (s : List UInt8) : List UInt8 := 34 :: s.flatMap escape ++ [34]

/-- The conversions `%d` and `%.0f` of an integer that is not negative. -/
def decimal (n : ℕ) : List UInt8 := (toDigits 10 n).map fun c => UInt8.ofNat c.toNat

/-- `print_number`, for an integer. -/
def printNumber (n : ℤ) : List UInt8 := if n < 0 then 45 :: decimal n.natAbs else decimal n.natAbs

/-- `print_value` -/
def printValue : Value → List UInt8
  | .num n => printNumber n
  | .str s => printString s

/-- The text of a member, without what follows it. -/
def printMember (member : List UInt8 × Value) : List UInt8 :=
  9 :: printString member.1 ++ [58, 9] ++ printValue member.2

def printMembers : Object → List UInt8
  | [] => [125]
  | [member] => printMember member ++ [10, 125]
  | member :: rest => printMember member ++ [44, 10] ++ printMembers rest

/-- `cJSON_Print` -/
def print (o : Object) : List UInt8 := [123, 10] ++ printMembers o

/-! ## Parsing -/

/-- The strings and integers that are C's. -/
def Value.InC : Value → Prop
  | .num n => -2 ^ 31 ≤ n ∧ n < 2 ^ 32
  | .str s => 0 ∉ s

/-- The names and values of the members are C's. -/
def InC (o : Object) : Prop := ∀ member ∈ o, 0 ∉ member.1 ∧ member.2.InC

/-- `parse` takes the text of an object for that object, and refuses a part of it. -/
structure Faithful (parse : List UInt8 → Option Object) : Prop where
  whole : ∀ o rest, InC o → parse (print o ++ rest) = some o
  cut : ∀ o part, InC o → part <+: print o → part ≠ print o → parse part = none

/-! ## What a text is made of -/

/-- The bytes that are printed behind a backslash. -/
def special : List UInt8 := [34, 92] ++ (List.range 32).map UInt8.ofNat

variable {b : UInt8} {n : ℕ}

theorem mem_special (h : ¬ (31 < b ∧ b ≠ 34 ∧ b ≠ 92)) : b ∈ special := by
  by_cases hsmall : 31 < b
  · have hquote : b = 34 ∨ b = 92 := by
      by_contra hother
      exact h ⟨hsmall, fun hb => hother (Or.inl hb), fun hb => hother (Or.inr hb)⟩
    rcases hquote with rfl | rfl <;> decide
  · have hlt : b.toNat < 32 := by
      have : b.toNat ≤ 31 := UInt8.le_iff_toNat_le.mp (UInt8.not_lt.mp hsmall)
      omega
    refine mem_append_right _ (List.mem_map.mpr ⟨b.toNat, mem_range.mpr hlt, ?_⟩)
    exact UInt8.ofNat_toNat

theorem escape_plain (h : 31 < b ∧ b ≠ 34 ∧ b ≠ 92) : escape b = [b] := if_pos h

theorem zero_notMem_escape (b : UInt8) : 0 ∉ escape b := by
  by_cases hplain : 31 < b ∧ b ≠ 34 ∧ b ≠ 92
  · rw [escape_plain hplain, mem_singleton]
    rintro rfl
    exact absurd hplain.1 (by decide)
  · have hspecial : ∀ b ∈ special, 0 ∉ escape b := by decide +kernel
    exact hspecial b (mem_special hplain)

theorem zero_notMem_printString (s : List UInt8) : 0 ∉ printString s := by
  have hchars : 0 ∉ s.flatMap escape := by
    intro hzero
    obtain ⟨b, -, hb⟩ := mem_flatMap.mp hzero
    exact zero_notMem_escape b hb
  simp [printString, hchars]

theorem digit_code {c : Char} (h : c ∈ toDigits 10 n) :
    (48 ≤ c.toNat ∧ c.toNat ≤ 57) ∧ (UInt8.ofNat c.toNat).toNat = c.toNat := by
  have hdigit := isDigit_of_mem_toDigits (by decide) (by decide) h
  have hcode : 48 ≤ c.toNat ∧ c.toNat ≤ 57 := Char.isDigit_iff_toNat.mp hdigit
  have hsize : c.toNat < UInt8.size := lt_of_le_of_lt hcode.2 (by decide)
  exact ⟨hcode, UInt8.toNat_ofNat_of_lt hsize⟩

theorem isDigit_of_mem_decimal (h : b ∈ decimal n) : isDigit b := by
  obtain ⟨c, hc, rfl⟩ := List.mem_map.mp h
  obtain ⟨⟨hlow, hhigh⟩, hcode⟩ := digit_code hc
  rw [isDigit, Bool.and_eq_true, decide_eq_true_eq, decide_eq_true_eq, UInt8.le_iff_toNat_le,
    UInt8.le_iff_toNat_le, hcode]
  exact ⟨hlow, hhigh⟩

theorem zero_notMem_printValue (value : Value) : 0 ∉ printValue value := by
  cases value with
  | str s => exact zero_notMem_printString s
  | num n =>
    have hdigits : 0 ∉ decimal n.natAbs := fun hzero =>
      absurd (isDigit_of_mem_decimal hzero) (by decide)
    rw [printValue, printNumber]
    split
    · simp [hdigits]
    · exact hdigits

theorem zero_notMem_printMember (member : List UInt8 × Value) : 0 ∉ printMember member := by
  simp [printMember, zero_notMem_printString, zero_notMem_printValue]

/-- The text of an object is a C string. -/
theorem zero_notMem_print (o : Object) : 0 ∉ print o := by
  have hmembers : 0 ∉ printMembers o := by
    induction o using printMembers.induct with
    | case1 => decide
    | case2 member => simp [printMembers, zero_notMem_printMember]
    | case3 member rest hrest ih =>
      rw [printMembers]
      · simp [zero_notMem_printMember, ih]
      · exact hrest
  simp [print, hmembers]

theorem printMembers_append_singleton (o : Object) (member : List UInt8 × Value) :
    ∃ front, printMembers (o ++ [member]) = front ++ (printMember member ++ [10, 125]) := by
  induction o with
  | nil => exact ⟨[], rfl⟩
  | cons first rest ih =>
    obtain ⟨front, hfront⟩ := ih
    rw [cons_append, printMembers, hfront]
    · exact ⟨printMember first ++ [44, 10] ++ front, by rw [append_assoc _ front]⟩
    · exact append_ne_nil_of_right_ne_nil _ (cons_ne_nil _ _)

/-! ## How long a text is -/

/-- The length that `print_string_ptr` counts for a byte. -/
def charSize (b : UInt8) : ℕ :=
  if b ∈ [34, 92, 8, 12, 10, 13, 9] then 2 else if b < 32 then 6 else 1

def Value.size : Value → ℕ
  | .num n => (if n < 0 then 1 else 0) + (toDigits 10 n.natAbs).length
  | .str s => 2 + (s.map charSize).sum

def memberSize (member : List UInt8 × Value) : ℕ := 5 + (Value.str member.1).size + member.2.size

theorem length_escape (b : UInt8) : (escape b).length = charSize b := by
  by_cases hplain : 31 < b ∧ b ≠ 34 ∧ b ≠ 92
  · have ⟨hlow, hquote, hslash⟩ := hplain
    have hnot : b ∉ ([34, 92, 8, 12, 10, 13, 9] : List UInt8) := by
      simp only [mem_cons, not_mem_nil, or_false, not_or]
      refine ⟨hquote, hslash, ?_, ?_, ?_, ?_, ?_⟩ <;> rintro rfl <;> exact absurd hlow (by decide)
    have hge : ¬ b < 32 := by
      have := UInt8.lt_iff_toNat_lt.mp hlow
      exact Nat.not_lt.mpr this
    rw [escape_plain hplain, charSize, if_neg hnot, if_neg hge]
    rfl
  · have hspecial : ∀ b ∈ special, (escape b).length = charSize b := by decide +kernel
    exact hspecial b (mem_special hplain)

theorem length_printString (s : List UInt8) : (printString s).length = (Value.str s).size := by
  have hchars : (s.flatMap escape).length = (s.map charSize).sum := by
    rw [length_flatMap]
    simp only [length_escape]
  rw [printString, length_append, length_cons, length_singleton, Value.size]
  omega

theorem length_printValue (value : Value) : (printValue value).length = value.size := by
  cases value with
  | str s => exact length_printString s
  | num n =>
    rw [printValue, printNumber, Value.size]
    split
    · rw [length_cons, decimal, length_map, add_comm]
    · rw [decimal, length_map, zero_add]

theorem length_printMember (member : List UInt8 × Value) :
    (printMember member).length + 2 = memberSize member := by
  simp only [printMember, memberSize, length_append, length_cons, length_nil,
    length_printString, length_printValue]
  omega

theorem length_print {o : Object} (h : o ≠ []) : (print o).length = 2 + (o.map memberSize).sum := by
  have hmembers : (printMembers o).length = (o.map memberSize).sum := by
    induction o using printMembers.induct with
    | case1 => exact absurd rfl h
    | case2 member =>
      rw [printMembers, length_append, map_singleton, ← length_printMember]
      rfl
    | case3 member rest hrest ih =>
      rw [printMembers, length_append, length_append, ih hrest, map_cons, ← length_printMember]
      · rfl
      · exact hrest
  rw [print, length_append, hmembers]
  rfl

end Easyio.Json
