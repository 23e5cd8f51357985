import Easyio.CString.Basic
import Mathlib.Data.Int.Basic

/-!
# Formatted output

`rt_vsnprintf` of `src/kservice.c` with `print_number`, `skip_atoi` and `divide`, as
configured: with `RT_PRINTF_PRECISION`, without `RT_PRINTF_LONGLONG` and
`RT_PRINTF_SPECIAL`.

Every character is stored by the same two statements, `if (str <= end) *str = c; ++ str`
(`Out.put`), and one place looks at the test again: the sign of a number makes its field
shorter only if the sign itself is stored.  Pointers have 32 bits and wrap.  The
arithmetic of `int` is exact; where it would overflow, C leaves the result undefined.

`none` stands for an argument that does not match its conversion.
-/

namespace Easyio.Format

open CString Nat

/-! ## The output -/

/-- The memory, with `str`, `end` and the addresses that were written. -/
structure Out where
  mem : BitVec 32 → UInt8
  str : BitVec 32
  last : BitVec 32
  written : List (BitVec 32)

namespace Out

/-- `*p = c` -/
def store (o : Out) (p : BitVec 32) (c : UInt8) : Out :=
  { o with mem := Function.update o.mem p c, written := p :: o.written }

/-- `if (str <= end) *str = c; ++ str` -/
def put (o : Out) (c : UInt8) : Out :=
  let o' := if o.str ≤ o.last then o.store o.str c else o
  { o' with str := o.str + 1 }

/-- One character after the other. -/
def puts (o : Out) (text : List UInt8) : Out := text.foldl put o

/-- `while (lo < hi --)`, with the output of `c` as its body: `hi` after it comes with the
output. -/
def fill (o : Out) (c : UInt8) (lo hi : ℤ) : Out × ℤ :=
  if lo < hi then fill (o.put c) c lo (hi - 1) else (o, hi - 1)
termination_by (hi - lo).toNat

/-- `while (-- n > 0)`, in the same way. -/
def fillBefore (o : Out) (c : UInt8) (n : ℤ) : Out × ℤ :=
  if 0 < n - 1 then fillBefore (o.put c) c (n - 1) else (o, n - 1)
termination_by n.toNat

end Out

/-! ## Numbers -/

/-- The bits of `flags`. -/
structure Flags where
  zeropad : Bool
  sign : Bool
  plus : Bool
  space : Bool
  left : Bool
  special : Bool
  large : Bool

/-- The second operand of `divide`: 10, or 16 for every other base. -/
def divisor (base : ℕ) : ℕ := if base = 10 then 10 else 16

theorem one_lt_divisor (base : ℕ) : 1 < divisor base := by
  unfold divisor
  split <;> decide

/-- `digits[n]`, of `small_digits` or `large_digits`. -/
def digit (large : Bool) (n : ℕ) : UInt8 :=
  if n < 10 then UInt8.ofNat (48 + n)
  else if large then UInt8.ofNat (55 + n) else UInt8.ofNat (87 + n)

/-- `while (num != 0) tmp[i++] = digits[divide(&num, base)]` -/
def tmpLoop (large : Bool) (base num : ℕ) : List UInt8 :=
  if num = 0 then []
  else digit large (num % divisor base) :: tmpLoop large base (num / divisor base)
termination_by num
decreasing_by exact Nat.div_lt_self (Nat.pos_of_ne_zero ‹_›) (one_lt_divisor base)

/-- The digits in `tmp`, the last one first. -/
def tmp (large : Bool) (base : ℕ) (num : BitVec 32) : List UInt8 :=
  if num = 0#32 then ascii "0" else tmpLoop large base num.toNat

/-- `sign` -/
def signOf (type : Flags) (num : BitVec 32) : Option UInt8 :=
  if type.sign = true then
    if num.toInt < 0 then some 45
    else if type.plus = true then some 43
    else if type.space = true then some 32
    else none
  else none

/-- `num` after the sign was taken. -/
def magnitude (type : Flags) (num : BitVec 32) : BitVec 32 :=
  if type.sign = true ∧ num.toInt < 0 then -num else num

/-- `print_number` -/
def printNumber (o : Out) (num : BitVec 32) (base : ℕ) (s precision : ℤ) (type : Flags) : Out :=
  let zeropad := type.zeropad && !type.left
  let c : UInt8 := if zeropad then 48 else 32
  let sign := signOf type num
  let tmp := tmp type.large base (magnitude type num)
  let i : ℤ := tmp.length
  let precision := if precision < i then i else precision
  let size := s - precision
  let (o, size) :=
    if !(zeropad || type.left) then
      o.fill 32 0 (if sign.isSome = true ∧ 0 < size then size - 1 else size)
    else (o, size)
  let (o, size) :=
    match sign with
    | none => (o, size)
    | some sign => (o.put sign, if o.str ≤ o.last then size - 1 else size)
  let (o, size) := if !type.left then o.fill c 0 size else (o, size)
  let o := (o.fill 48 i precision).1
  let o := o.puts tmp.reverse
  (o.fill 32 0 size).1

/-! ## Conversions -/

/-- A variable argument: a word, or a string that may be `RT_NULL`. -/
inductive Arg where
  | word (v : BitVec 32)
  | text (s : Option (List UInt8))

/-- `skip_atoi` -/
def skipAtoi : ℤ → List UInt8 → ℤ × List UInt8
  | i, [] => (i, [])
  | i, c :: fmt => if isDigit c then skipAtoi (i * 10 + (c.toNat - 48)) fmt else (i, c :: fmt)

/-- The loop over the flags. -/
def readFlags : Flags → List UInt8 → Flags × List UInt8
  | flags, [] => (flags, [])
  | flags, c :: fmt =>
    if c = 45 then readFlags { flags with left := true } fmt
    else if c = 43 then readFlags { flags with plus := true } fmt
    else if c = 32 then readFlags { flags with space := true } fmt
    else if c = 35 then readFlags { flags with special := true } fmt
    else if c = 48 then readFlags { flags with zeropad := true } fmt
    else (flags, c :: fmt)

/-- The field width, -1 without one. -/
def readWidth (flags : Flags) (fmt : List UInt8) (args : List Arg) :
    Option (Flags × ℤ × List UInt8 × List Arg) :=
  match fmt with
  | [] => some (flags, -1, [], args)
  | c :: rest =>
    if isDigit c then
      let (width, fmt) := skipAtoi 0 fmt
      some (flags, width, fmt, args)
    else if c = 42 then
      match args with
      | .word v :: args =>
        if v.toInt < 0 then some ({ flags with left := true }, -v.toInt, rest, args)
        else some (flags, v.toInt, rest, args)
      | _ => none
    else some (flags, -1, fmt, args)

/-- What follows the `.` of a precision. -/
def readDigits (fmt : List UInt8) (args : List Arg) : Option (ℤ × List UInt8 × List Arg) :=
  match fmt with
  | [] => some (-1, [], args)
  | c :: rest =>
    if isDigit c then
      let (precision, fmt) := skipAtoi 0 fmt
      some (precision, fmt, args)
    else if c = 42 then
      match args with
      | .word v :: args => some (v.toInt, rest, args)
      | _ => none
    else some (-1, fmt, args)

/-- The precision, -1 without one. -/
def readPrecision (fmt : List UInt8) (args : List Arg) : Option (ℤ × List UInt8 × List Arg) :=
  match fmt with
  | [] => some (-1, [], args)
  | c :: rest =>
    if c = 46 then
      match readDigits rest args with
      | none => none
      | some (precision, fmt, args) =>
        some (if precision < 0 then 0 else precision, fmt, args)
    else some (-1, fmt, args)

/-- `qualifier` -/
inductive Qualifier where
  | none
  | h
  | l

def readQualifier : List UInt8 → Qualifier × List UInt8
  | [] => (.none, [])
  | c :: fmt => if c = 104 then (.h, fmt) else if c = 108 then (.l, fmt) else (.none, c :: fmt)

/-- What is put out at a place of the format. -/
inductive Item where
  | plain (c : UInt8)
  | char (flags : Flags) (fieldWidth : ℤ) (c : UInt8)
  | string (flags : Flags) (fieldWidth precision : ℤ) (s : List UInt8)
  | number (num : BitVec 32) (base : ℕ) (fieldWidth precision : ℤ) (flags : Flags)
  | other (c : Option UInt8)

/-- `num`, from the argument. -/
def readNum (qualifier : Qualifier) (sign : Bool) (v : BitVec 32) : BitVec 32 :=
  match qualifier with
  | .h => if sign then (v.truncate 16).signExtend 32 else (v.truncate 16).zeroExtend 32
  | _ => v

/-- An integer conversion. -/
def readInteger (flags : Flags) (base : ℕ) (fieldWidth precision : ℤ) (qualifier : Qualifier)
    (fmt : List UInt8) (args : List Arg) : Option (Item × List UInt8 × List Arg) :=
  match args with
  | .word v :: args =>
    some (.number (readNum qualifier flags.sign v) base fieldWidth precision flags, fmt, args)
  | _ => none

/-- The `switch` over the conversion character. -/
def readConversion (flags : Flags) (fieldWidth precision : ℤ) (qualifier : Qualifier)
    (fmt : List UInt8) (args : List Arg) : Option (Item × List UInt8 × List Arg) :=
  match fmt with
  | [] => some (.other none, [], args)
  | c :: fmt =>
    if c = 99 then
      match args with
      | .word v :: args => some (.char flags fieldWidth (UInt8.ofBitVec (v.truncate 8)), fmt, args)
      | _ => none
    else if c = 115 then
      match args with
      | .text s :: args =>
        some (.string flags fieldWidth precision (cString (s.getD (ascii "(NULL)"))), fmt, args)
      | _ => none
    else if c = 112 then
      match args with
      | .word v :: args =>
        if fieldWidth = -1 then
          some (.number v 16 8 precision { flags with zeropad := true }, fmt, args)
        else some (.number v 16 fieldWidth precision flags, fmt, args)
      | _ => none
    else if c = 37 then some (.plain c, fmt, args)
    else if c = 111 then readInteger flags 8 fieldWidth precision qualifier fmt args
    else if c = 88 then
      readInteger { flags with large := true } 16 fieldWidth precision qualifier fmt args
    else if c = 120 then readInteger flags 16 fieldWidth precision qualifier fmt args
    else if c = 100 ∨ c = 105 then
      readInteger { flags with sign := true } 10 fieldWidth precision qualifier fmt args
    else if c = 117 then readInteger flags 10 fieldWidth precision qualifier fmt args
    else some (.other (some c), fmt, args)

/-- What follows a `%`: the item it stands for, with the format and the arguments after
it. -/
def readItem (fmt : List UInt8) (args : List Arg) : Option (Item × List UInt8 × List Arg) :=
  let (flags, fmt) := readFlags ⟨false, false, false, false, false, false, false⟩ fmt
  match readWidth flags fmt args with
  | none => none
  | some (flags, fieldWidth, fmt, args) =>
    match readPrecision fmt args with
    | none => none
    | some (precision, fmt, args) =>
      let (qualifier, fmt) := readQualifier fmt
      readConversion flags fieldWidth precision qualifier fmt args

section Length

variable {fmt fmt' : List UInt8} {args args' : List Arg} {flags flags' : Flags}
  {width precision i : ℤ} {item : Item} {qualifier : Qualifier}

theorem length_skipAtoi : (skipAtoi i fmt).2.length ≤ fmt.length := by
  induction fmt generalizing i with
  | nil => exact le_refl _
  | cons c fmt ih =>
    unfold skipAtoi
    split_ifs
    · exact le_succ_of_le ih
    · exact le_refl _

theorem length_readFlags : (readFlags flags fmt).2.length ≤ fmt.length := by
  induction fmt generalizing flags with
  | nil => exact le_refl _
  | cons c fmt ih =>
    unfold readFlags
    split_ifs <;> first | exact le_succ_of_le ih | exact le_refl _

theorem length_readWidth (h : readWidth flags fmt args = some (flags', width, fmt', args')) :
    fmt'.length ≤ fmt.length := by
  unfold readWidth at h
  split at h
  · cases h
    exact le_refl _
  · split_ifs at h
    · obtain ⟨-, -, rfl, -⟩ : _ ∧ _ ∧ _ ∧ _ := by
        simpa only [Option.some.injEq, Prod.mk.injEq] using h
      exact length_skipAtoi
    · split at h
      · split_ifs at h <;> cases h <;> exact le_succ _
      · cases h
    · cases h
      exact le_refl _

theorem length_readDigits (h : readDigits fmt args = some (precision, fmt', args')) :
    fmt'.length ≤ fmt.length := by
  unfold readDigits at h
  split at h
  · cases h
    exact le_refl _
  · split_ifs at h
    · obtain ⟨-, rfl, -⟩ : _ ∧ _ ∧ _ := by
        simpa only [Option.some.injEq, Prod.mk.injEq] using h
      exact length_skipAtoi
    · split at h
      · cases h
        exact le_succ _
      · cases h
    · cases h
      exact le_refl _

theorem length_readPrecision (h : readPrecision fmt args = some (precision, fmt', args')) :
    fmt'.length ≤ fmt.length := by
  unfold readPrecision at h
  split at h
  · cases h
    exact le_refl _
  · split_ifs at h
    · split at h
      · cases h
      · rename_i hdigits
        cases h
        exact le_succ_of_le (length_readDigits hdigits)
    · cases h
      exact le_refl _

theorem length_readQualifier : (readQualifier fmt).2.length ≤ fmt.length := by
  cases fmt with
  | nil => exact le_refl _
  | cons c fmt =>
    rw [readQualifier]
    split_ifs
    · exact le_succ _
    · exact le_succ _
    · exact le_refl _

theorem length_readInteger {base : ℕ}
    (h : readInteger flags base width precision qualifier fmt args = some (item, fmt', args')) :
    fmt'.length ≤ fmt.length := by
  unfold readInteger at h
  split at h
  · cases h
    exact le_refl _
  · cases h

theorem length_readConversion
    (h : readConversion flags width precision qualifier fmt args = some (item, fmt', args')) :
    fmt'.length ≤ fmt.length := by
  unfold readConversion at h
  split at h
  · cases h
    exact le_refl _
  · refine le_succ_of_le ?_
    split_ifs at h
    -- what is not an integer takes one argument or none
    any_goals exact length_readInteger h
    any_goals split at h
    all_goals cases h <;> exact le_refl _

theorem length_readItem (h : readItem fmt args = some (item, fmt', args')) :
    fmt'.length ≤ fmt.length := by
  unfold readItem at h
  dsimp only at h
  split at h
  · cases h
  · rename_i hwidth
    split at h
    · cases h
    · rename_i hprecision
      exact le_trans (length_readConversion h) (le_trans length_readQualifier
        (le_trans (length_readPrecision hprecision)
          (le_trans (length_readWidth hwidth) length_readFlags)))

end Length

/-! ## The loop -/

/-- The output of one item. -/
def Item.emit (o : Out) : Item → Out
  | .plain c => o.put c
  | .char flags fieldWidth c =>
    let (o, fieldWidth) := if !flags.left then o.fillBefore 32 fieldWidth else (o, fieldWidth)
    let o := o.put c
    (o.fillBefore 32 fieldWidth).1
  | .string flags fieldWidth precision s =>
    let len : ℤ := if 0 < precision ∧ precision < s.length then precision else s.length
    let (o, fieldWidth) := if !flags.left then o.fill 32 len fieldWidth else (o, fieldWidth)
    let o := o.puts (s.take len.toNat)
    (o.fill 32 len fieldWidth).1
  | .number num base fieldWidth precision flags =>
    printNumber o num base fieldWidth precision flags
  | .other c => (o.put 37).puts c.toList

/-- The loop over the format. -/
def format (fmt : List UInt8) (args : List Arg) (o : Out) : Option Out :=
  match fmt with
  | [] => some o
  | c :: fmt =>
    if c ≠ 37 then format fmt args (o.put c)
    else
      match _h : readItem fmt args with
      | none => none
      | some (item, fmt', args') => format fmt' args' (item.emit o)
termination_by fmt.length
decreasing_by
  · exact Nat.lt_succ_self _
  · exact Nat.lt_succ_of_le (length_readItem _h)

/-- `end`, which is the last address if `buf + size - 1` is before `buf`. -/
def lastOf (buf size : BitVec 32) : BitVec 32 := if buf + size - 1 < buf then -1 else buf + size - 1

/-- The zero at the end. -/
def Out.terminate (o : Out) : Out := if o.str ≤ o.last then o.store o.str 0 else o.store o.last 0

/-- `rt_vsnprintf`: the result, and the output. -/
def rtVsnprintf (mem : BitVec 32 → UInt8) (buf size : BitVec 32) (fmt : List UInt8)
    (args : List Arg) : Option (BitVec 32 × Out) :=
  (format (cString fmt) args ⟨mem, buf, lastOf buf size, []⟩).map fun o =>
    (o.str - buf, o.terminate)

end Easyio.Format
