import Easyio.Json.Reader
import Easyio.Json.Text

/-!
# A parser for printed objects

`parse` takes exactly what `print` writes, and nothing more general: strings and
integers as members, with the tabs and line breaks of `cJSON_Print`.  The result
is `faithful_parse`: a faithful parser exists, so what is proved for every
faithful parser is not empty.

The members are read one after the other, by readers that are put together with
`andThen`; `readMembers_printed` follows them along the members.
-/

namespace Easyio.Json

open CString List Nat Option

/-! ## The readers -/

/-- The number a hexadecimal digit stands for. -/
def hexValue (b : UInt8) : ℕ := if b ≤ 57 then b.toNat - 48 else b.toNat - 87

/-- The byte behind a backslash. -/
def unescape : UInt8 → UInt8
  | 98 => 8
  | 102 => 12
  | 110 => 10
  | 114 => 13
  | 116 => 9
  | b => b

/-- The bytes of a string up to the closing quote. -/
def readChars : Reader (List UInt8)
  | [] => none
  | b :: rest =>
    if b = 34 then some ([], rest)
    else if b ≠ 92 then (readChars rest).map fun result => (b :: result.1, result.2)
    else
      match rest with
      | [] => none
      | c :: rest =>
        if c ≠ 117 then
          (readChars rest).map fun result => (unescape c :: result.1, result.2)
        else
          match rest with
          | _ :: _ :: high :: low :: rest =>
            (readChars rest).map fun result =>
              (UInt8.ofNat (16 * hexValue high + hexValue low) :: result.1, result.2)
          | _ => none

def readString : Reader (List UInt8) := (expect [34]).andThen fun _ => readChars

/-- An integer that is not negative. -/
def readDigits : Reader ℕ := fun text =>
  let digits := text.takeWhile isDigit
  if digits = [] then none else some (digitsValue digits, text.dropWhile isDigit)

/-- A string or an integer. -/
def readValue : Reader Value
  | 34 :: rest => (readChars rest).map fun result => (.str result.1, result.2)
  | 45 :: rest => (readDigits rest).map fun result => (.num (-(result.1 : ℤ)), result.2)
  | text => (readDigits text).map fun result => (.num result.1, result.2)

/-- After a member: a comma and `more` members, or the end of the object. -/
def readNext (more : Reader Object) (member : List UInt8 × Value) : Reader Object :=
  anyByte.andThen fun b =>
    if b = 44 then
      (expect [10]).andThen fun _ => more.andThen fun rest => .give (member :: rest)
    else if b = 10 then (expect [125]).andThen fun _ => .give [member]
    else fun _ => none

/-- A member and what follows it. -/
def readMember (more : Reader Object) : Reader Object :=
  (expect [9]).andThen fun _ => readString.andThen fun name =>
    (expect [58, 9]).andThen fun _ => readValue.andThen fun value => readNext more (name, value)

/-- Up to `fuel` members. -/
def readMembers : ℕ → Reader Object
  | 0 => fun _ => none
  | fuel + 1 => readMember (readMembers fuel)

/-- The object behind its opening brace. -/
def readBody (fuel : ℕ) : Reader Object
  | 125 :: rest => some ([], rest)
  | text => readMembers fuel text

def parse (text : List UInt8) : Option Object :=
  ((expect [123, 10]).andThen fun _ => readBody text.length) text |>.map Prod.fst

/-! ## Strings -/

variable {b c : UInt8} {text rest : List UInt8} {more larger : Reader Object} {o : Object}
  {fuel bound : ℕ}

theorem readChars_escaped (hc : c ≠ 117) (rest : List UInt8) :
    readChars (92 :: c :: rest) =
      (readChars rest).map fun result => (unescape c :: result.1, result.2) := by
  rw [readChars.eq_def]
  exact if_pos hc

theorem readChars_code (high low : UInt8) (rest : List UInt8) :
    readChars ([92, 117, 48, 48, high, low] ++ rest) = (readChars rest).map fun result =>
      (UInt8.ofNat (16 * hexValue high + hexValue low) :: result.1, result.2) := by
  rfl

theorem escape_special : ∀ b ∈ special, (∃ c ∈ ([92, 34, 98, 102, 110, 114, 116] : List UInt8),
      escape b = [92, c] ∧ c ≠ 117 ∧ unescape c = b) ∨
      ∃ high ∈ (range 16).map hexDigit, ∃ low ∈ (range 16).map hexDigit,
        escape b = [92, 117, 48, 48, high, low] ∧
          UInt8.ofNat (16 * hexValue high + hexValue low) = b := by
  decide +kernel

theorem escape_cases (b : UInt8) : (escape b = [b] ∧ b ≠ 34 ∧ b ≠ 92) ∨
      (∃ c, escape b = [92, c] ∧ c ≠ 117 ∧ unescape c = b) ∨
      ∃ high low, escape b = [92, 117, 48, 48, high, low] ∧
        UInt8.ofNat (16 * hexValue high + hexValue low) = b := by
  by_cases hplain : 31 < b ∧ b ≠ 34 ∧ b ≠ 92
  · exact Or.inl ⟨if_pos hplain, hplain.2⟩
  · rcases escape_special b (mem_special hplain) with ⟨c, -, hc⟩ | ⟨high, -, low, -, hcode⟩
    · exact Or.inr (Or.inl ⟨c, hc⟩)
    · exact Or.inr (Or.inr ⟨high, low, hcode⟩)

theorem readChars_escape (b : UInt8) (rest : List UInt8) :
    readChars (escape b ++ rest) =
      (readChars rest).map fun result => (b :: result.1, result.2) := by
  rcases escape_cases b with ⟨hb, hquote, hslash⟩ | ⟨c, hb, hc, hvalue⟩ | ⟨high, low, hb, hvalue⟩
  · rw [hb, singleton_append, readChars.eq_def]
    simp only [hquote, if_false, if_pos hslash]
  · rw [hb, ← hvalue]
    exact readChars_escaped hc rest
  · rw [hb, ← hvalue]
    exact readChars_code high low rest

theorem readChars_printed (s rest : List UInt8) :
    readChars (s.flatMap escape ++ 34 :: rest) = some (s, rest) := by
  induction s with
  | nil =>
    rw [flatMap_nil, nil_append, readChars.eq_def]
    rfl
  | cons b s ih =>
    rw [flatMap_cons, append_assoc, readChars_escape, ih]
    rfl

theorem extends_readChars : Reader.Extends readChars readChars := by
  intro text s rest h more
  induction text using readChars.induct generalizing s rest with
  | case1 => cases h
  | case2 text =>
    rw [readChars.eq_def] at h
    cases h
    rw [cons_append, readChars.eq_def]
    rfl
  | case3 b text hquote hslash ih =>
    simp only [readChars.eq_def (b :: _), cons_append, hquote, if_false, if_pos hslash] at h ⊢
    exact map_extends (fun s => ih s rest) h
  | case4 b hquote hslash =>
    simp [readChars.eq_def [b], hquote, hslash] at h
  | case5 b hquote hslash c text hc ih =>
    simp only [readChars.eq_def (b :: _), cons_append, hquote, if_false, if_neg hslash, if_pos hc]
      at h ⊢
    exact map_extends (fun s => ih s rest) h
  | case6 b hquote hslash c hc _ _ high low text ih =>
    simp only [readChars.eq_def (b :: _), cons_append, hquote, if_false, if_neg hslash, if_neg hc]
      at h ⊢
    exact map_extends (fun s => ih s rest) h
  | case7 b hquote hslash c text hc hshort =>
    simp [readChars.eq_def (b :: _), hquote, hslash, hc] at h

/-! ## Numbers -/

theorem decimal_ne_nil (n : ℕ) : decimal n ≠ [] := by
  rw [decimal, ne_eq, map_eq_nil_iff]
  exact ne_nil_of_length_pos length_toDigits_pos

theorem digitsValue_decimal (n : ℕ) : digitsValue (decimal n) = n := by
  rw [digitsValue, decimal, foldl_map]
  calc (toDigits 10 n).foldl (fun value c => 10 * value + ((UInt8.ofNat c.toNat).toNat - 48)) 0
      = (toDigits 10 n).foldl (fun value c => 10 * value + (c.toNat - 48)) 0 := by
        refine foldl_ext _ _ 0 fun value c hc => ?_
        rw [(digit_code hc).2]
    _ = ofDigitChars 10 (toDigits 10 n) 0 := by
        rfl
    _ = n := ofDigitChars_toDigits (by decide) (by decide)

theorem readDigits_printed (n : ℕ) (hb : isDigit b = false) :
    readDigits (decimal n ++ b :: rest) = some (n, b :: rest) := by
  have htake : (decimal n ++ b :: rest).takeWhile isDigit = decimal n := by
    rw [takeWhile_append_of_pos fun _ => isDigit_of_mem_decimal,
      takeWhile_cons_of_neg (by rw [hb]; decide), append_nil]
  have hdrop : (decimal n ++ b :: rest).dropWhile isDigit = b :: rest := by
    rw [dropWhile_append_of_pos fun _ => isDigit_of_mem_decimal,
      dropWhile_cons_of_neg (by rw [hb]; decide)]
  rw [readDigits, htake, hdrop, if_neg (decimal_ne_nil n), digitsValue_decimal]

theorem extendsInside_readDigits : Reader.ExtendsInside readDigits readDigits := by
  intro text n b rest h more
  obtain ⟨hne, hread⟩ := ite_none_left_eq_some.mp h
  obtain ⟨hvalue, hdrop⟩ := Prod.mk.inj (some.inj hread)
  have htake : (text ++ more).takeWhile isDigit = text.takeWhile isDigit := by
    rw [takeWhile_append, if_neg]
    intro hlen
    have hwhole := ( takeWhile_prefix isDigit).eq_of_length hlen
    rw [dropWhile_eq_nil_iff.mpr (takeWhile_eq_self_iff.mp hwhole)] at hdrop
    cases hdrop
  rw [readDigits, htake, dropWhile_append, hdrop, if_neg hne, hvalue]
  rfl

theorem readValue_of_digits (h : ∀ b ∈ text.head?, b ≠ 34 ∧ b ≠ 45) :
    readValue text = (readDigits text).map fun result => (.num result.1, result.2) := by
  cases text with
  | nil => rfl
  | cons b rest =>
    obtain ⟨hquote, hminus⟩ := h b rfl
    rw [readValue]
    · exact fun _ heq => hquote (cons.inj heq).1
    · exact fun _ heq => hminus (cons.inj heq).1

theorem head_digits (h : ∀ b ∈ text, isDigit b) : ∀ b ∈ text.head?, b ≠ 34 ∧ b ≠ 45 := by
  intro b hb
  have hdigit := h b (mem_of_mem_head? hb)
  constructor
  · rintro rfl
    exact absurd hdigit (by decide)
  · rintro rfl
    exact absurd hdigit (by decide)

theorem readValue_printed (value : Value) (hb : isDigit b = false) :
    readValue (printValue value ++ b :: rest) = some (value, b :: rest) := by
  cases value with
  | str s =>
    have htext : printString s ++ b :: rest = 34 :: (s.flatMap escape ++ 34 :: (b :: rest)) := by
      simp [printString]
    rw [printValue, htext, readValue, readChars_printed]
    rfl
  | num n =>
    rw [printValue, printNumber]
    split
    · have hn : n = -(n.natAbs : ℤ) := by omega
      rw [cons_append, readValue, readDigits_printed _ hb, map_some, ← hn]
    · have hn : (n.natAbs : ℤ) = n := by omega
      have hhead : ∀ c ∈ (decimal n.natAbs ++ b :: rest).head?, c ≠ 34 ∧ c ≠ 45 := by
        rw [head?_append_of_ne_nil _ (decimal_ne_nil _)]
        exact head_digits fun _ => isDigit_of_mem_decimal
      rw [readValue_of_digits hhead, readDigits_printed _ hb, map_some, hn]

theorem extendsInside_readValue : Reader.ExtendsInside readValue readValue := by
  intro text value b rest h more
  rw [readValue.eq_def] at h
  split at h
  · exact map_extends (fun _ hread => extends_readChars _ _ _ hread more) h
  · exact map_extends (f := fun n : ℕ => Value.num (-n))
      (fun _ hread => extendsInside_readDigits _ _ _ _ hread more) h
  · next hquote hminus =>
    cases text with
    | nil => cases h
    | cons c text =>
      rw [readValue_of_digits]
      · exact map_extends (f := fun n : ℕ => Value.num n)
          (fun _ hread => extendsInside_readDigits _ _ _ _ hread more) h
      · rintro _ ⟨⟩
        exact ⟨fun heq => hquote text (heq ▸ rfl), fun heq => hminus text (heq ▸ rfl)⟩

/-! ## Members -/

theorem readMember_printed (more : Reader Object) (member : List UInt8 × Value)
    (hb : isDigit b = false) :
    readMember more (printMember member ++ b :: rest) = readNext more member (b :: rest) := by
  have htext : printMember member ++ b :: rest = [9] ++ ([34] ++ (member.1.flatMap escape ++
      34 :: ([58, 9] ++ (printValue member.2 ++ b :: rest)))) := by
    simp [printMember, printString]
  have hname (tail) : readString ([34] ++ (member.1.flatMap escape ++ 34 :: tail)) =
      some (member.1, tail) := by
    rw [readString, andThen_eq (expect_append ..), readChars_printed]
  rw [htext, readMember, andThen_eq (expect_append ..), andThen_eq (hname _),
    andThen_eq (expect_append ..), andThen_eq (readValue_printed _ hb)]

theorem readMembers_printed : ∀ {o : Object} {fuel : ℕ}, o ≠ [] → o.length ≤ fuel →
    readMembers fuel (printMembers o ++ rest) = some (o, rest)
  | [member], fuel + 1, _, _ => by
      rw [printMembers, append_assoc, cons_append, readMembers, readMember_printed _ _ (by decide)]
      rfl
  | member :: next :: others, fuel + 1, _, hfuel => by
      have hrest := @readMembers_printed (next :: others) fuel (cons_ne_nil _ _)
        (le_of_succ_le_succ hfuel)
      rw [printMembers, append_assoc, append_assoc, cons_append, readMembers,
        readMember_printed _ _ (by decide)]
      · have h : ((readMembers fuel).andThen fun others => .give (member :: others))
            (printMembers (next :: others) ++ rest) = some (member :: next :: others, rest) :=
          andThen_eq hrest
        exact h
      · exact cons_ne_nil next others

theorem extends_readNext (member : List UInt8 × Value) (h : more.Extends larger) :
    (readNext more member).Extends (readNext larger member) := by
  refine extends_anyByte.andThen fun b => ?_
  split
  · exact (extends_expect _).andThen fun _ => h.andThen fun _ => extends_give _
  · split
    · exact (extends_expect _).andThen fun _ => extends_give _
    · exact fun _ _ _ hread => absurd hread nofun

theorem extends_readMember (h : more.Extends larger) :
    (readMember more).Extends (readMember larger) :=
  (extends_expect _).andThen fun _ =>
    ((extends_expect _).andThen fun _ => extends_readChars).andThen fun name =>
      (extends_expect _).andThen fun _ => extendsInside_readValue.andThen
      (fun value => extends_readNext (name, value) h) fun _ => rfl

theorem extends_readMembers (h : fuel ≤ bound) :
    (readMembers fuel).Extends (readMembers bound) := by
  induction fuel generalizing bound with
  | zero => exact fun _ _ _ hread => absurd hread nofun
  | succ fuel ih =>
    obtain ⟨bound, rfl⟩ : ∃ m, bound = m + 1 := ⟨bound - 1, by omega⟩
    exact extends_readMember (ih (le_of_succ_le_succ h))

theorem length_le_printMembers : ∀ o : Object, o.length ≤ (printMembers o).length
  | [] => zero_le _
  | [member] => by
      rw [printMembers, length_append, length_singleton, length_cons]
      omega
  | member :: next :: rest => by
      have h := length_le_printMembers (next :: rest)
      rw [printMembers, append_assoc, length_append, length_append]
      · simp only [length_cons, length_nil] at h ⊢
        omega
      · exact cons_ne_nil next rest

/-! ## Objects -/

theorem readBody_of_member (fuel : ℕ) (h : ∀ b ∈ text.head?, b ≠ 125) :
    readBody fuel text = readMembers fuel text := by
  cases text with
  | nil => rfl
  | cons b rest =>
    rw [readBody]
    exact fun _ heq => h b rfl (cons.inj heq).1

theorem head_printMembers (h : o ≠ []) : ∃ tail, printMembers o = 9 :: tail := by
  match o, h with
  | [member], _ => exact ⟨_, rfl⟩
  | member :: next :: rest, _ =>
    rw [printMembers]
    · exact ⟨_, rfl⟩
    · exact cons_ne_nil next rest

theorem readBody_printed (hfuel : o.length ≤ fuel) :
    readBody fuel (printMembers o ++ rest) = some (o, rest) := by
  by_cases hempty : o = []
  · subst hempty
    rfl
  · obtain ⟨tail, htail⟩ := head_printMembers hempty
    rw [readBody_of_member]
    · exact readMembers_printed hempty hfuel
    · rw [htail]
      rintro b ⟨⟩
      decide

theorem extends_readBody (h : fuel ≤ bound) : (readBody fuel).Extends (readBody bound) := by
  intro text o rest hread more
  rw [readBody.eq_def] at hread
  split at hread
  · cases hread
    rfl
  · next hbrace =>
    rw [readBody_of_member]
    · exact extends_readMembers h _ _ _ hread more
    · cases text with
      | nil => cases fuel <;> cases hread
      | cons b text =>
        rintro _ ⟨⟩ rfl
        exact hbrace text rfl

/-- `parse` is a parser for the texts of `print`. -/
theorem faithful_parse : Faithful parse := by
  have hwhole : ∀ {o : Object} {fuel : ℕ} (rest : List UInt8), o.length ≤ fuel →
      ((expect [123, 10]).andThen fun _ => readBody fuel) (print o ++ rest) = some (o, rest) := by
    intro o fuel rest hfuel
    rw [print, append_assoc, andThen_eq (expect_append ..), readBody_printed hfuel]
  constructor
  · intro o rest _
    have hfuel : o.length ≤ (print o ++ rest).length := by
      have h := length_le_printMembers o
      rw [print, length_append, length_append]
      omega
    rw [parse, hwhole rest hfuel]
    rfl
  · rintro o part - ⟨more, hmore⟩ hne
    -- the bound may be too low for the object, but a higher one reads what a lower one does
    rw [parse, map_eq_none_iff, eq_none_iff_forall_ne_some]
    intro result hread
    have hextends := (extends_expect [123, 10]).andThen fun _ =>
      extends_readBody (le_max_left part.length o.length)
    have h := hextends _ _ _ hread more
    rw [hmore, ← append_nil (print o), hwhole [] (le_max_right ..)] at h
    have hrest := (Prod.mk.inj (some.inj h)).2
    rw [(append_eq_nil_iff.mp hrest.symm).2, append_nil] at hmore
    exact hne hmore

end Easyio.Json
