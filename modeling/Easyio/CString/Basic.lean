import Mathlib.Algebra.Group.Int.Defs
import Mathlib.Algebra.Group.Nat.Defs
import Mathlib.Data.List.Basic
import Mathlib.Data.List.TakeWhile

/-!
# C strings

The functions of the C library on strings that are used by the code under
verification.  A string in memory is a list of bytes; as a C string it ends at
the first zero byte (`cString`).
-/

namespace Easyio.CString

open List Option

/-- The bytes of an ASCII literal. -/
def ascii (s : String) : List UInt8 := s.toList.map fun c => UInt8.ofNat c.toNat

section

variable (memory : List UInt8)

/-- The C string at the start of `memory`. -/
def cString : List UInt8 := memory.takeWhile fun b => b ≠ 0

/-- `strstr`: the offset of the first occurrence of `needle`. -/
def strstr (needle : List UInt8) : List UInt8 → Option ℕ
  | [] => if needle = [] then some 0 else none
  | c :: rest =>
    if needle.isPrefixOf (c :: rest) then some 0 else (strstr needle rest).map (· + 1)

/-- `isspace` -/
def isSpace (b : UInt8) : Bool := b == 32 || (9 ≤ b && b ≤ 13)

/-- `isdigit` -/
def isDigit (b : UInt8) : Bool := 48 ≤ b && b ≤ 57

/-- `tolower` -/
def toLower (b : UInt8) : UInt8 := if 65 ≤ b ∧ b ≤ 90 then b + 32 else b

/-- The number a list of digits stands for. -/
def digitsValue (digits : List UInt8) : ℕ :=
  digits.foldl (fun value d => 10 * value + (d.toNat - 48)) 0

/-- `atoi`: white space, an optional sign, and digits.  The result is not cut to an
`int`; beyond its range the C function is undefined. -/
def atoi : ℤ :=
  let number := fun digits : List UInt8 => digitsValue (digits.takeWhile isDigit)
  match memory.dropWhile isSpace with
  | 45 :: digits => -(number digits : ℤ)
  | 43 :: digits => number digits
  | digits => number digits

/-- The lower-case hexadecimal digit of `n`, for `n < 16`. -/
def hexDigit (n : ℕ) : UInt8 := if n < 10 then UInt8.ofNat (48 + n) else UInt8.ofNat (87 + n)

/-- The conversion `%02x`. -/
def hex2 (b : UInt8) : List UInt8 := [hexDigit (b.toNat / 16), hexDigit (b.toNat % 16)]

/-- `snprintf(dst, size, "%s", s)`: the string, cut so that it fits with its
terminating zero. -/
def snprintfS (size : ℕ) (s : List UInt8) : List UInt8 := s.take (size - 1)

/-- `strncat(dst, src, n)` on the memory at `dst`: at most `n` bytes of the string `src`
and a zero are stored behind the string that is there. -/
def strncat (dst src : List UInt8) (n : ℕ) : List UInt8 :=
  let text := cString dst ++ (cString src).take n
  text ++ 0 :: dst.drop (text.length + 1)

theorem length_cString_le : (cString memory).length ≤ memory.length :=
  IsPrefix.length_le ( takeWhile_prefix _)

theorem zero_notMem_cString : 0 ∉ cString memory := by
  intro hmem
  simpa using mem_takeWhile_imp hmem

end

variable {text memory needle hay : List UInt8} {i : ℕ}

theorem cString_append_of_notMem (h : 0 ∉ text) (rest : List UInt8) :
    cString (text ++ rest) = text ++ cString rest := by
  refine takeWhile_append_of_pos fun b hb => ?_
  simpa using fun hzero : b = 0 => h (hzero ▸ hb)

theorem cString_of_notMem (h : 0 ∉ text) : cString text = text := by
  have hnil : cString [] = [] := rfl
  have htext := cString_append_of_notMem h []
  rwa [hnil, append_nil] at htext

theorem cString_append_zero (h : 0 ∉ text) (rest : List UInt8) :
    cString (text ++ 0 :: rest) = text := by
  rw [cString_append_of_notMem h]
  exact append_nil text

theorem cString_append_of_mem (h : 0 ∈ memory) (rest : List UInt8) :
    cString (memory ++ rest) = cString memory := by
  obtain ⟨text, tail, rfl, htext⟩ := eq_append_cons_of_mem h
  rw [append_assoc, cons_append, cString_append_zero htext, cString_append_zero htext]

theorem cString_append_cons_zero (text rest : List UInt8) :
    cString (text ++ 0 :: rest) = cString text := by
  by_cases h : 0 ∈ text
  · exact cString_append_of_mem h _
  · rw [cString_append_zero h, cString_of_notMem h]

theorem length_cString_lt (h : 0 ∈ memory) : (cString memory).length < memory.length := by
  refine Nat.lt_of_le_of_ne (length_cString_le memory) fun hlen => ?_
  have hwhole : cString memory = memory := IsPrefix.eq_of_length ( takeWhile_prefix _) hlen
  have hzero : 0 ∈ cString memory := by
    rw [hwhole]
    exact h
  exact zero_notMem_cString memory hzero

theorem cString_set_zero (h : memory ≠ []) : cString (memory.set 0 0) = [] := by
  cases memory with
  | nil => exact absurd rfl h
  | cons b rest => rfl

theorem cString_strncat (dst src : List UInt8) (n : ℕ) :
    cString (strncat dst src n) = cString dst ++ (cString src).take n := by
  refine cString_append_zero ?_ _
  rw [mem_append]
  rintro (hdst | hsrc)
  · exact zero_notMem_cString dst hdst
  · exact zero_notMem_cString src (mem_of_mem_take hsrc)

/-- With enough room `strncat` stays inside the memory it is given. -/
theorem length_strncat {dst : List UInt8} (src : List UInt8) {n : ℕ}
    (h : (cString dst).length + n < dst.length) : (strncat dst src n).length = dst.length := by
  have hcut : ((cString src).take n).length ≤ n := length_take_le ..
  simp only [strncat, length_append, length_cons, length_drop]
  omega

theorem prefix_of_strstr (h : strstr needle hay = some i) : needle <+: hay.drop i := by
  induction hay generalizing i with
  | nil =>
    rw [strstr] at h
    split at h
    · next hnil => simp [hnil]
    · cases h
  | cons c rest ih =>
    rw [strstr] at h
    split at h
    · next hprefix =>
        obtain rfl : 0 = i := some.inj h
        exact isPrefixOf_iff_prefix.mp hprefix
    · obtain ⟨j, hj, rfl⟩ := map_eq_some_iff.mp h
      exact ih hj

theorem strstr_add_length_le (h : strstr needle hay = some i) (hne : needle ≠ []) :
    i + needle.length ≤ hay.length := by
  have hle := (prefix_of_strstr h).length_le
  have hpos := length_pos_iff.mpr hne
  rw [length_drop] at hle
  omega

theorem strstr_append (head needle rest : List UInt8) :
    (strstr needle (head ++ (needle ++ rest))).isSome := by
  induction head with
  | nil =>
    cases needle with
    | nil => cases rest <;> rfl
    | cons b needle =>
      rw [nil_append, cons_append, strstr, ← cons_append,
        if_pos ( isPrefixOf_iff_prefix.mpr (prefix_append _ _))]
      rfl
  | cons c head ih =>
    rw [cons_append, strstr]
    split
    · rfl
    · rwa [isSome_map]

theorem strstr_append_self (head needle : List UInt8) :
    (strstr needle (head ++ needle)).isSome := by
  have h := strstr_append head needle []
  rwa [append_nil] at h

/-- A string is found at the end of another one only if it is that end, provided that
it does not have the separator in front of it. -/
theorem eq_of_strstr {head : List UInt8} {sep : UInt8}
    (h : (strstr needle (head ++ sep :: text)).isSome) (hlen : needle.length = text.length)
    (hlong : head.length < needle.length) (hsep : sep ∉ needle) : needle = text := by
  obtain ⟨i, hi⟩ := isSome_iff_exists.mp h
  have hin := prefix_of_strstr hi
  have hroom := strstr_add_length_le hi (length_pos_iff.mp (by omega))
  rw [length_append, length_cons] at hroom
  rcases Nat.lt_or_ge head.length i with hafter | hbefore
  · -- found behind the separator
    obtain rfl : i = head.length + 1 := by omega
    rw [drop_append, drop_of_length_le (by omega), nil_append,
      Nat.add_sub_cancel_left, drop_one, tail_cons] at hin
    exact hin.eq_of_length hlen
  · -- found so that it covers the separator
    obtain ⟨rest, hrest⟩ := hin
    rw [drop_append_of_le_length hbefore] at hrest
    have hget : (needle ++ rest)[head.length - i]? = some sep := by
      rw [hrest, getElem?_append_right (by simp), length_drop, Nat.sub_self]
      rfl
    rw [getElem?_append_left (by omega)] at hget
    exact absurd (mem_of_getElem? hget) hsep

/-! ## Hexadecimal digits -/

/-- A lower-case hexadecimal digit. -/
def isHexDigit (b : UInt8) : Bool := isDigit b || (97 ≤ b && b ≤ 102)

theorem isHexDigit_hexDigit : ∀ n < 16, isHexDigit (hexDigit n) = true := by
  decide

theorem isHexDigit_of_mem_hex2 {b digit : UInt8} (h : digit ∈ hex2 b) : isHexDigit digit := by
  have hb := b.toNat_lt
  simp only [hex2, mem_cons, not_mem_nil, or_false] at h
  rcases h with rfl | rfl
  · exact isHexDigit_hexDigit _ (by omega)
  · exact isHexDigit_hexDigit _ (by omega)

theorem length_flatMap_hex2 (bytes : List UInt8) :
    (bytes.flatMap hex2).length = 2 * bytes.length := by
  simp [length_flatMap, hex2, Nat.mul_comm]

end Easyio.CString
