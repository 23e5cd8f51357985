import Easyio.CString.Basic

/-!
# The parameters of a command

`get_parma_count`, `get_parma` and `get_parma_2` of `my_stdc_func/my_stdc_func.c`, for commands
such as `name=f1,f2`.  The last two work on a copy of 127 bytes and take it apart with `strtok`,
which never gives an empty parameter.

`get_parma` has the statement `body = body ++;`, which C leaves undefined; `incremented` says
whether the pointer that the compiled code stores is the incremented one.
-/

namespace Easyio.CString

open List Option

/-- `get_parma_count` -/
def getParmaCount (str : List UInt8) : ℤ :=
  match strstr [61] str with
  | none => -1
  | some pos => 1 + (str.drop (pos + 1)).count 44

/-- What calls of `strtok` with a comma give one after the other, before the null pointer. -/
def tokens (s : List UInt8) : List (List UInt8) := (s.splitOn 44).filter (· ≠ [])

/-- `checkstr` -/
def checkstr (s : List UInt8) : List UInt8 := s.takeWhile fun b => 33 ≤ b ∧ b ≤ 126

/-- What `strtok` is given: the copy from the equals sign on, or behind it.  Without the sign it
is given a null pointer or the address behind it. -/
def body (incremented : Bool) (instr : List UInt8) : Option (List UInt8) :=
  (strstr [61] (snprintfS 128 instr)).map fun pos =>
    (snprintfS 128 instr).drop (if incremented then pos + 1 else pos)

/-- `get_parma` -/
def getParma (incremented : Bool) (index : ℕ) (instr : List UInt8) : Option (List UInt8) :=
  ((body incremented instr).bind fun body => (tokens body)[index - 1]?).map checkstr

/-- `get_parma_2` -/
def getParma2 (index : ℕ) (instr : List UInt8) : Option (List UInt8) :=
  (body true instr).bind fun body => (tokens body)[index - 1]?

/-- The command `name=f1,...,fn` -/
def command (name : List UInt8) (fields : List (List UInt8)) : List UInt8 :=
  name ++ 61 :: [44].intercalate fields

/-- A name, and at least one field, of printable characters. -/
structure Command (name : List UInt8) (fields : List (List UInt8)) : Prop where
  name : 61 ∉ name
  ne_nil : fields ≠ []
  printable : ∀ f ∈ fields, ∀ b ∈ f, (33 ≤ b ∧ b ≤ 126) ∧ b ≠ 44 ∧ b ≠ 61

/-- Each function gives what the command says. -/
structure Parameters (incremented : Bool) (name : List UInt8) (fields : List (List UInt8)) :
    Prop where
  count : getParmaCount (command name fields) = fields.length
  parma : ∀ i < fields.length, getParma incremented (i + 1) (command name fields) = fields[i]?
  parma2 : ∀ i < fields.length, getParma2 (i + 1) (command name fields) = fields[i]?

variable {name : List UInt8} {fields : List (List UInt8)} {incremented : Bool}

theorem strstr_of_notMem {c : UInt8} (h : c ∉ name) (s : List UInt8) :
    strstr [c] (name ++ c :: s) = some name.length := by
  induction name with
  | nil => simp [strstr]
  | cons b name ih =>
    rw [mem_cons, not_or] at h
    simp [strstr, isPrefixOf, h.1, ih h.2]

theorem length_splitOn (s : List UInt8) : (s.splitOn 44).length = s.count 44 + 1 := by
  induction s with
  | nil => rfl
  | cons b s ih =>
    rw [splitOn_cons_eq_if_modifyHead, count_cons]
    split <;> simp [ih]

section

variable (h : Command name fields)
include h

theorem splitOn_fields : ([44].intercalate fields).splitOn 44 = fields :=
  splitOn_intercalate 44 (fun f hf hmem => (h.printable f hf 44 hmem).2.1 rfl) h.ne_nil

theorem count_fields : ([44].intercalate fields).count 44 + 1 = fields.length := by
  rw [← length_splitOn, splitOn_fields h]

theorem body_command (incremented : Bool) : body incremented (command name fields) =
    if name.length < 127 then
      some ((if incremented then [] else [61]) ++
        ([44].intercalate fields).take (126 - name.length))
    else none := by
  rw [body, snprintfS, command]
  by_cases hlt : name.length < 127
  · have hroom : 128 - 1 - name.length = 126 - name.length + 1 := by omega
    rw [take_append, take_of_length_le (by omega), hroom, take_succ_cons, strstr_of_notMem h.name,
      if_pos hlt]
    cases incremented <;> simp
  · rw [if_neg hlt, take_append_of_le_length (by omega), map_eq_none_iff,
      eq_none_iff_forall_ne_some]
    intro pos hpos
    have hmem := (prefix_of_strstr hpos).subset mem_cons_self
    exact h.name (mem_of_mem_take (mem_of_mem_drop hmem))

theorem parameters_copied {n : ℕ} (hpre : fields <+: tokens (([44].intercalate fields).take n)) :
    (∀ f ∈ fields, f ≠ []) ∧ ([44].intercalate fields).length ≤ n := by
  refine ⟨fun f hf => of_decide_eq_true (mem_filter.mp (hpre.subset hf)).2, ?_⟩
  have hsub : fields <+ (([44].intercalate fields).take n).splitOn 44 :=
    hpre.sublist.trans filter_sublist
  have hcount := ( take_sublist n ([44].intercalate fields)).count_le 44
  have hlen := length_splitOn (([44].intercalate fields).take n)
  have hall := count_fields h
  have heq := congrArg [44].intercalate (hsub.eq_of_length_le (by omega))
  rw [intercalate_splitOn] at heq
  have hcut := congrArg length heq
  rw [length_take] at hcut
  omega

end

/-- The three functions are right exactly for commands of at most 127 characters without an empty
field, if the increment takes place. -/
theorem parameters_iff (h : Command name fields) : Parameters incremented name fields ↔
    incremented ∧ (∀ f ∈ fields, f ≠ []) ∧ (command name fields).length ≤ 127 := by
  have hlen : (command name fields).length =
      name.length + ([44].intercalate fields).length + 1 := by
    rw [command, length_append, length_cons, Nat.add_assoc]
  have hpos := length_pos_iff.mpr h.ne_nil
  constructor
  · rintro ⟨-, hparma, hparma2⟩
    simp only [getParma2, body_command h, if_true, nil_append, Nat.add_sub_cancel] at hparma2
    by_cases hlt : name.length < 127
    · simp only [if_pos hlt, bind_some] at hparma2
      obtain ⟨hne, hle⟩ := parameters_copied h
        (prefix_iff_getElem?.mpr fun i hi => (hparma2 i hi).trans (getElem?_eq_getElem hi))
      refine ⟨?_, hne, by omega⟩
      -- otherwise the first token starts with the equals sign, and no field has one
      by_contra hkept
      have hfirst := hparma 0 hpos
      obtain ⟨f, more, hsplit⟩ := exists_cons_of_ne_nil
        (splitOn_ne_nil 44 (([44].intercalate fields).take (126 - name.length)))
      simp [getParma, body_command h, hlt, hkept, tokens, splitOn_cons_eq_if_modifyHead, hsplit,
        checkstr, getElem?_eq_getElem hpos] at hfirst
      exact (h.printable _ (getElem_mem hpos) 61 (hfirst ▸ mem_cons_self)).2.2 rfl
    · have hfirst := hparma2 0 hpos
      rw [if_neg hlt, bind_none, getElem?_eq_getElem hpos] at hfirst
      cases hfirst
  · rintro ⟨rfl, hne, hle⟩
    have hbody : body true (command name fields) = some ([44].intercalate fields) := by
      rw [body_command h, if_pos (by omega), if_pos rfl, take_of_length_le (by omega), nil_append]
    have htokens : tokens ([44].intercalate fields) = fields := by
      rw [tokens, splitOn_fields h]
      exact filter_eq_self.mpr fun f hf => decide_eq_true (hne f hf)
    refine ⟨?_, fun i hi => ?_, fun i hi => ?_⟩
    · have hcount := count_fields h
      simp [getParmaCount, command, strstr_of_notMem h.name]
      omega
    · rw [getParma, hbody, bind_some, Nat.add_sub_cancel, htokens, getElem?_eq_getElem hi,
        map_some, some_inj, checkstr, takeWhile_eq_self_iff]
      exact fun b hb => decide_eq_true (h.printable _ (getElem_mem hi) b hb).1
    · rw [getParma2, hbody, bind_some, Nat.add_sub_cancel, htokens]

theorem parameters_iff_three : Parameters true (ascii "a") [ascii "b", ascii "10", ascii "c"] :=
  (parameters_iff ⟨by decide, by decide, by decide +kernel⟩).mpr ⟨rfl, by decide, by decide⟩

/-- Of the command `a=b,,c` the second parameter is taken to be the third. -/
theorem parameters_of_empty : getParma2 2 (ascii "a=b,,c") = some (ascii "c") ∧
    ¬Parameters true (ascii "a") [ascii "b", [], ascii "c"] := by
  refine ⟨by decide, fun h => ?_⟩
  have hsecond := h.parma2 1 (by decide)
  revert hsecond
  decide

end Easyio.CString
