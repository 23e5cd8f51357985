import Easyio.Format.Vsnprintf

/-!
# The text of a format

What `rt_vsnprintf` puts out is a text, character by character (`format_eq`).  The text of
an item depends on the output in one point only: whether there is room for its first
character (`Item.text`).  A number that is padded behind its sign takes the sign off its
field if there is room for it, and is one character longer if there is none.
-/

namespace Easyio.Format

open CString Item List Option Out

/-! ## Loops -/

namespace Out

variable {o : Out} {c : UInt8} {text more : List UInt8} {lo hi n : ℤ}

theorem puts_append : o.puts (text ++ more) = (o.puts text).puts more := foldl_append

theorem puts_cons : o.puts (c :: text) = (o.put c).puts text := rfl

theorem puts_nil : o.puts [] = o := rfl

theorem fill_eq : o.fill c lo hi = (o.puts (replicate (hi - lo).toNat c), min hi lo - 1) := by
  fun_induction fill o c lo hi with
  | case1 o hi hlt ih =>
    have hsucc : (hi - lo).toNat = (hi - 1 - lo).toNat + 1 := by omega
    have hmin : min (hi - 1) lo = min hi lo := by omega
    rw [ih, hsucc, hmin]
    rfl
  | case2 o hi hge =>
    have hzero : (hi - lo).toNat = 0 := by omega
    have hmin : min hi lo = hi := by omega
    rw [hzero, hmin]
    rfl

theorem fillBefore_eq : o.fillBefore c n = (o.puts (replicate (n - 1).toNat c), min (n - 1) 0) := by
  fun_induction fillBefore o c n with
  | case1 o n hlt ih =>
    have hsucc : (n - 1).toNat = (n - 1 - 1).toNat + 1 := by omega
    have hmin : min (n - 1 - 1) 0 = min (n - 1) 0 := by omega
    rw [ih, hsucc, hmin]
    rfl
  | case2 o n hge =>
    have hzero : (n - 1).toNat = 0 := by omega
    have hmin : min (n - 1) 0 = n - 1 := by omega
    rw [hzero, hmin]
    rfl

end Out

/-! ## Items -/

/-- The digits of a number, with the zeros that the precision asks for. -/
def numberBody (num : BitVec 32) (base : ℕ) (precision : ℤ) (flags : Flags) : List UInt8 :=
  let digits := tmp flags.large base (magnitude flags num)
  replicate (precision - digits.length).toNat 48 ++ digits.reverse

/-- What the width leaves beside them. -/
def numberField (num : BitVec 32) (base : ℕ) (width precision : ℤ) (flags : Flags) : ℤ :=
  width - max precision (tmp flags.large base (magnitude flags num)).length

/-- The text of a number, given whether there is room for its first character. -/
def numberText (room : Bool) (num : BitVec 32) (base : ℕ) (width precision : ℤ) (flags : Flags) :
    List UInt8 :=
  let body := numberBody num base precision flags
  let field := numberField num base width precision flags
  match signOf flags num with
  | none =>
    if flags.left then body ++ replicate field.toNat 32
    else replicate field.toNat (if flags.zeropad then 48 else 32) ++ body
  | some sign =>
    let padding := field - if room then 1 else 0
    if flags.left then sign :: (body ++ replicate padding.toNat 32)
    else if flags.zeropad then sign :: (replicate padding.toNat 48 ++ body)
    else replicate (field - 1).toNat 32 ++ sign :: body

/-- A string, cut to the precision. -/
def cut (precision : ℤ) (s : List UInt8) : List UInt8 :=
  if 0 < precision then s.take precision.toNat else s

/-- The text of an item, given whether there is room for its first character. -/
def Item.text (room : Bool) : Item → List UInt8
  | .plain c => [c]
  | .char flags width c =>
    let padding := replicate (width - 1).toNat 32
    if flags.left then c :: padding else padding ++ [c]
  | .string flags width precision s =>
    let padding := replicate (width - (cut precision s).length).toNat 32
    if flags.left then cut precision s ++ padding else padding ++ cut precision s
  | .number num base width precision flags => numberText room num base width precision flags
  | .other c => 37 :: c.toList

section Items

variable {o : Out} {c : UInt8} {flags : Flags} {width precision : ℤ} {s : List UInt8}
  {num : BitVec 32} {base : ℕ}

theorem emit_char (room : Bool) :
    (char flags width c).emit o = o.puts ((char flags width c).text room) := by
  unfold emit text
  cases hleft : flags.left with
  | false =>
    have hdone : (min (width - 1) 0 - 1).toNat = 0 := by omega
    simp only [hleft, Bool.not_false, if_true, Bool.false_eq_true, if_false, fillBefore_eq,
      hdone, puts_append]
    rfl
  | true =>
    simp only [hleft, fillBefore_eq]
    rfl

theorem length_cut : (if 0 < precision ∧ precision < s.length then precision else (s.length : ℤ)) =
      (cut precision s).length := by
  unfold cut
  split_ifs with hboth hpos hpos
  · rw [length_take]
    omega
  · exact absurd hboth.1 hpos
  · rw [length_take]
    omega
  · rfl

theorem take_length_cut : s.take (cut precision s).length = cut precision s := by
  unfold cut
  split_ifs
  · rw [length_take, take_eq_take_iff]
    omega
  · exact take_length

theorem emit_string (room : Bool) : (string flags width precision s).emit o =
    o.puts ((string flags width precision s).text room) := by
  unfold emit text
  simp only [length_cut, Int.toNat_natCast, take_length_cut]
  generalize cut precision s = text
  cases hleft : flags.left with
  | false =>
    have hdone : (min width text.length - 1 - text.length : ℤ).toNat = 0 := by omega
    simp only [Bool.not_false, if_true, Bool.false_eq_true, if_false, fill_eq, hdone,
      puts_append]
    rfl
  | true =>
    simp only [Bool.not_true, Bool.false_eq_true, if_false, if_true, fill_eq, puts_append]

theorem printNumber_eq : printNumber o num base width precision flags =
    o.puts (numberText (decide (o.str ≤ o.last)) num base width precision flags) := by
  unfold printNumber numberText numberBody numberField
  generalize tmp flags.large base (magnitude flags num) = digits
  have hmax : (if precision < digits.length then (digits.length : ℤ) else precision) =
      max precision digits.length := by
    split_ifs <;> omega
  have hzeros : (max precision digits.length - digits.length : ℤ).toNat =
      (precision - digits.length).toNat := by omega
  simp only [hmax, fill_eq, hzeros, Int.sub_zero]
  generalize width - max precision (digits.length : ℤ) = field
  -- a field that was filled once has nothing left for the loops behind it
  have hdone : ∀ n : ℤ, (min n 0 - 1).toNat = 0 := fun n => by omega
  have hspent : ∀ n : ℤ, ∀ room : Prop, [Decidable room] →
      (if room then min n 0 - 1 - 1 else min n 0 - 1).toNat = 0 := by
    intro n room _
    split_ifs <;> omega
  have hlead : (if 0 < field then field - 1 else field).toNat = (field - 1).toNat := by
    split_ifs <;> omega
  have hpadding : (if o.str ≤ o.last then field - 1 else field) =
      field - if o.str ≤ o.last then 1 else 0 := by
    split_ifs <;> omega
  cases hleft : flags.left with
  | true =>
    cases signOf flags num with
    | none =>
      simp only [Bool.not_true, Bool.or_true, Bool.false_eq_true, if_false, if_true, puts_append]
    | some sign =>
      simp only [Bool.not_true, Bool.or_true, Bool.false_eq_true, if_false, if_true, puts_append,
        puts_cons, decide_eq_true_eq, hpadding]
  | false =>
    cases hzero : flags.zeropad with
    | true =>
      cases signOf flags num with
      | none =>
        simp only [Bool.not_false, Bool.not_true, Bool.and_true, Bool.or_false,
          Bool.false_eq_true, if_false, if_true, puts_append, hdone, replicate_zero,
          puts_nil]
      | some sign =>
        simp only [Bool.not_false, Bool.not_true, Bool.and_true, Bool.or_false,
          Bool.false_eq_true, if_false, if_true, puts_append, puts_cons,
          decide_eq_true_eq, hpadding, hdone, replicate_zero, puts_nil]
    | false =>
      cases signOf flags num with
      | none =>
        simp only [Bool.not_false, Bool.and_true, Bool.or_false, Bool.false_eq_true,
          if_false, if_true, isSome_none, false_and, puts_append, hdone,
          replicate_zero, puts_nil]
      | some sign =>
        simp only [Bool.not_false, Bool.and_true, Bool.or_false, Bool.false_eq_true,
          if_false, if_true, isSome_some, true_and, puts_append, puts_cons,
          hlead, hdone, hspent, replicate_zero, puts_nil]

theorem emit_eq (item : Item) : item.emit o = o.puts (item.text (decide (o.str ≤ o.last))) := by
  cases item with
  | plain c => rfl
  | char flags width c => exact emit_char _
  | string flags width precision s => exact emit_string _
  | number num base width precision flags => exact printNumber_eq
  | other c => rfl

end Items

/-! ## Formats -/

def items (fmt : List UInt8) (args : List Arg) : Option (List Item) :=
  match fmt with
  | [] => some []
  | c :: fmt =>
    if c ≠ 37 then (items fmt args).map (.plain c :: ·)
    else
      match _h : readItem fmt args with
      | none => none
      | some (item, fmt', args') => (items fmt' args').map (item :: ·)
termination_by fmt.length
decreasing_by
  · exact Nat.lt_succ_self _
  · exact Nat.lt_succ_of_le (length_readItem _h)

/-- The text of the items from the position `n` on, where `room` says at which positions
there is room for a character. -/
def textFrom (room : ℕ → Bool) : ℕ → List Item → List UInt8
  | _, [] => []
  | n, item :: rest =>
    item.text (room n) ++ textFrom room (n + (item.text (room n)).length) rest

def text (room : ℕ → Bool) (items : List Item) : List UInt8 := textFrom room 0 items

/-- There is room at the position `n` of the buffer. -/
def hasRoom (buf size : BitVec 32) (n : ℕ) : Bool :=
  decide (buf + .ofNat 32 n ≤ lastOf buf size)

section Formats

variable {o : Out} {c : UInt8} {fmt fmt' : List UInt8} {args args' : List Arg} {item : Item}
  {buf size : BitVec 32}

theorem items_plain (h : c ≠ 37) :
    items (c :: fmt) args = (items fmt args).map (.plain c :: ·) := by
  rw [items, if_pos h]

theorem items_item (h : readItem fmt args = some (item, fmt', args')) :
    items (37 :: fmt) args = (items fmt' args').map (item :: ·) := by
  rw [items, if_neg fun hne => hne rfl]
  split <;> simp_all

theorem items_none (h : readItem fmt args = none) : items (37 :: fmt) args = none := by
  rw [items, if_neg fun hne => hne rfl]
  split <;> simp_all

theorem format_eq_emit : format fmt args o =
    (items fmt args).map fun its => its.foldl (fun o item => item.emit o) o := by
  fun_induction format fmt args o with
  | case1 args o =>
    rw [items]
    rfl
  | case2 args o c fmt hc ih =>
    rw [ih, items_plain hc, Option.map_map]
    rfl
  | case3 args o c fmt hc hnone =>
    obtain rfl := not_not.mp hc
    rw [items_none hnone, map_none]
  | case4 args o c fmt hc item fmt' args' hitem ih =>
    obtain rfl := not_not.mp hc
    rw [ih, items_item hitem, Option.map_map]
    rfl

@[simp] theorem Out.puts_last (text : List UInt8) : (o.puts text).last = o.last := by
  induction text generalizing o with
  | nil => rfl
  | cons c text ih =>
    rw [puts_cons, ih]
    unfold Out.put
    split <;> rfl

@[simp] theorem Out.puts_str (text : List UInt8) :
    (o.puts text).str = o.str + .ofNat 32 text.length := by
  induction text generalizing o with
  | nil => exact (BitVec.add_zero _).symm
  | cons c text ih =>
    have hput : (o.put c).str = o.str + 1#32 := rfl
    rw [puts_cons, ih, hput, BitVec.add_assoc, length_cons, Nat.add_comm, BitVec.ofNat_add]

theorem foldl_emit {n : ℕ} (hstr : o.str = buf + .ofNat 32 n)
    (hlast : o.last = lastOf buf size) (its : List Item) :
    its.foldl (fun o item => item.emit o) o = o.puts (textFrom (hasRoom buf size) n its) := by
  induction its generalizing o n with
  | nil => rfl
  | cons item rest ih =>
    have hroom : decide (o.str ≤ o.last) = hasRoom buf size n := by
      rw [hstr, hlast]
      rfl
    rw [foldl_cons, emit_eq, hroom, textFrom, puts_append]
    refine ih ?_ ?_
    · rw [puts_str, hstr, BitVec.add_assoc, BitVec.ofNat_add]
    · rw [puts_last, hlast]

theorem format_eq {mem : BitVec 32 → UInt8} :
    format fmt args ⟨mem, buf, lastOf buf size, []⟩ =
      (items fmt args).map fun its =>
        puts ⟨mem, buf, lastOf buf size, []⟩ (text (hasRoom buf size) its) := by
  rw [format_eq_emit]
  refine map_congr fun its _ => foldl_emit ?_ rfl its
  exact (BitVec.add_zero _).symm

end Formats

end Easyio.Format
