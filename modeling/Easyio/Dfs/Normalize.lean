import Easyio.CString.Basic
import Easyio.Paths.Components

/-!
# Normalising paths

`dfs_normalize_path` of `components/dfs/src/dfs.c`, without `DFS_USING_WORKDIR`.

The path is rewritten in its buffer.  Pointers are offsets from `fullpath`; the pointer
before the start of the buffer, which both `dst --` can give, is the case where there is
no predecessor.  An access outside of the buffer ends the function with `outside`.
Memory is assumed to be available.
-/

namespace Easyio.Dfs

open CString List Nat Option Paths

/-- `'/'` -/
def slash : UInt8 := 47

/-- `'.'` -/
def dot : UInt8 := 46

/-- How `dfs_normalize_path` ends. -/
inductive Normalized where
  | path (fullpath : List UInt8)
  | null
  | outside
  deriving DecidableEq

/-- The buffer, with the two pointers into it. -/
structure Cursor where
  fullpath : List UInt8
  src : ℕ
  dst : ℕ

/-- How the body of the loop ends: with `continue`, `break` or a `return`. -/
inductive Pass where
  | next (s : Cursor)
  | done (s : Cursor)
  | null
  | outside

/-- `while (*src == '/') src ++`: the value of `src` after it. -/
def skipSlash (fullpath : List UInt8) (src : ℕ) : Option ℕ :=
  match h : fullpath[src]? with
  | none => none
  | some c => if c = slash then skipSlash fullpath (src + 1) else some src
termination_by fullpath.length - src
decreasing_by
  have := (List.getElem?_eq_some_iff.mp h).1
  omega

/-- `while ((c = *src++) != '\0' && c != '/') *dst ++ = c`: the value of `c`, and the
buffer with its pointers. -/
def copyName (s : Cursor) : Option (UInt8 × Cursor) :=
  match h : s.fullpath[s.src]? with
  | none => none
  | some c =>
    if c ≠ 0 ∧ c ≠ slash then
      if s.dst < s.fullpath.length then
        copyName ⟨s.fullpath.set s.dst c, s.src + 1, s.dst + 1⟩
      else none
    else some (c, { s with src := s.src + 1 })
termination_by s.fullpath.length - s.src
decreasing_by
  have := (List.getElem?_eq_some_iff.mp h).1
  rw [length_set]
  omega

/-- `while (dst0 < dst && dst[-1] != '/') dst --`: the value of `dst` after it. -/
def back (fullpath : List UInt8) : ℕ → Option ℕ
  | 0 => some 0
  | dst + 1 =>
    match fullpath[dst]? with
    | none => none
    | some c => if c ≠ slash then back fullpath dst else some (dst + 1)

/-- The code at the label `up_one`. -/
def upOne (s : Cursor) : Pass :=
  match s.dst with
  | 0 => .null
  | dst + 1 =>
    match back s.fullpath dst with
    | none => .outside
    | some dst => .next { s with dst }

/-- Copy up to the next `'/'`, and erase all further ones. -/
def copyUp (s : Cursor) : Pass :=
  match copyName s with
  | none => .outside
  | some (c, s) =>
    if c = slash then
      if s.dst < s.fullpath.length then
        match skipSlash (s.fullpath.set s.dst slash) s.src with
        | none => .outside
        | some src => .next ⟨s.fullpath.set s.dst slash, src, s.dst + 1⟩
      else .outside
    else .done s

/-- The body of the loop. -/
def pass (s : Cursor) : Pass :=
  match s.fullpath[s.src]? with
  | none => .outside
  | some c =>
    if c = dot then
      match s.fullpath[s.src + 1]? with
      | none => .outside
      | some c =>
        if c = 0 then copyUp { s with src := s.src + 1 }
        else if c = slash then
          match skipSlash s.fullpath (s.src + 2) with
          | none => .outside
          | some src => .next { s with src }
        else if c = dot then
          match s.fullpath[s.src + 2]? with
          | none => .outside
          | some c =>
            if c = 0 then upOne { s with src := s.src + 2 }
            else if c = slash then
              match skipSlash s.fullpath (s.src + 3) with
              | none => .outside
              | some src => upOne { s with src }
            else copyUp s
        else copyUp s
    else copyUp s

/-- The end of the function: the text is terminated, and a `'/'` at its end removed. -/
def finish (s : Cursor) : Normalized :=
  if s.dst < s.fullpath.length then
    let fullpath := s.fullpath.set s.dst 0
    match s.dst with
    | 0 => .outside
    | dst + 1 =>
      if dst ≠ 0 ∧ fullpath[dst]? = some slash then .path (cString (fullpath.set dst 0))
      else .path (cString fullpath)
  else .outside

/-! ## Termination -/

section Termination

variable {s s' : Cursor} {fullpath : List UInt8} {src src' : ℕ} {c : UInt8}

theorem skipSlash_ge (h : skipSlash fullpath src = some src') : src ≤ src' := by
  fun_induction skipSlash fullpath src with
  | case1 => cases h
  | case2 src _ ih => exact le_of_succ_le (ih h)
  | case3 => exact le_of_eq (some.inj h)

/-- `s'` is further along the same buffer. -/
def Ahead (s s' : Cursor) : Prop := s'.fullpath.length = s.fullpath.length ∧ s.src < s'.src

theorem copyName_ahead (h : copyName s = some (c, s')) : Ahead s s' := by
  fun_induction copyName s with
  | case1 => cases h
  | case2 s _ _ _ _ ih =>
    obtain ⟨hlength, hsrc⟩ := ih h
    exact ⟨hlength.trans length_set, lt_of_succ_lt hsrc⟩
  | case3 => cases h
  | case4 s _ _ _ =>
    obtain ⟨-, rfl⟩ := Prod.mk.inj (some.inj h)
    exact ⟨rfl, lt_succ_self _⟩

theorem upOne_eq (h : upOne s = .next s') : s'.fullpath = s.fullpath ∧ s'.src = s.src := by
  unfold upOne at h
  split at h
  · cases h
  · split at h
    · cases h
    · obtain rfl := Pass.next.inj h
      exact ⟨rfl, rfl⟩

theorem copyUp_ahead (h : copyUp s = .next s') : Ahead s s' := by
  unfold copyUp at h
  split at h
  · cases h
  · rename_i c₁ s₁ hcopy
    obtain ⟨hlength, hsrc⟩ := copyName_ahead hcopy
    split_ifs at h
    split at h
    · cases h
    · rename_i src hskip
      obtain rfl := Pass.next.inj h
      exact ⟨length_set.trans hlength, lt_of_lt_of_le hsrc (skipSlash_ge hskip)⟩

theorem pass_ahead (h : pass s = .next s') : s.src < s.fullpath.length ∧ Ahead s s' := by
  unfold pass at h
  split at h
  · cases h
  · rename_i c hc
    refine ⟨(List.getElem?_eq_some_iff.mp hc).1, ?_⟩
    split_ifs at h
    · split at h
      · cases h
      · split_ifs at h
        · obtain ⟨hlength, hsrc⟩ := copyUp_ahead h
          exact ⟨hlength, lt_of_succ_lt hsrc⟩
        · split at h
          · cases h
          · rename_i src hskip
            obtain rfl := Pass.next.inj h
            exact ⟨rfl, Nat.lt_of_lt_of_le (Nat.lt_add_of_pos_right Nat.two_pos)
              (skipSlash_ge hskip)⟩
        · split at h
          · cases h
          · split_ifs at h
            · obtain ⟨hbuffer, hsrc⟩ := upOne_eq h
              exact ⟨congrArg length hbuffer, hsrc ▸ Nat.lt_add_of_pos_right Nat.two_pos⟩
            · split at h
              · cases h
              · rename_i src hskip
                obtain ⟨hbuffer, hsrc⟩ := upOne_eq h
                exact ⟨congrArg length hbuffer, hsrc ▸ lt_of_lt_of_le
                  (Nat.lt_add_of_pos_right (Nat.succ_pos 2)) (skipSlash_ge hskip)⟩
            · exact copyUp_ahead h
        · exact copyUp_ahead h
    · exact copyUp_ahead h

end Termination

/-- The loop, and what follows. -/
def rewrite (s : Cursor) : Normalized :=
  match _h : pass s with
  | .next s' => rewrite s'
  | .done s' => finish s'
  | .null => .null
  | .outside => .outside
termination_by s.fullpath.length - s.src
decreasing_by
  obtain ⟨hsrc, hlength, hlt⟩ := pass_ahead _h
  omega

/-- The path that is normalised. -/
def joined (directory filename : List UInt8) : List UInt8 :=
  if filename.head? ≠ some slash then directory ++ slash :: filename else filename

/-- `dfs_normalize_path` -/
def dfsNormalizePath (directory : Option (List UInt8)) (filename : List UInt8) : Normalized :=
  match directory with
  | none =>
    if filename.head? ≠ some slash then .null else rewrite ⟨filename ++ [0], 0, 0⟩
  | some directory => rewrite ⟨joined directory filename ++ [0], 0, 0⟩

/-! ## The buffer

`dst` never overtakes `src`, so that the part that is still to be read is as it was. -/

/-- The buffer starts with the text `out` up to `dst`, and ends with the text `rest` from
`src` on. -/
structure At (s : Cursor) (out rest : List UInt8) : Prop where
  buffer : ∃ gap, s.fullpath = out ++ (gap ++ (rest ++ [0])) ∧ s.src = out.length + gap.length
  dst : s.dst = out.length

namespace At

variable {s : Cursor} {out more rest : List UInt8} {c : UInt8}

theorem read (h : At s out rest) (i : ℕ) : s.fullpath[s.src + i]? = (rest ++ [0])[i]? := by
  obtain ⟨gap, hbuffer, hsrc⟩ := h.buffer
  rw [hbuffer, hsrc, Nat.add_assoc, getElem?_append_right (Nat.le_add_right ..),
    Nat.add_sub_cancel_left, getElem?_append_right (Nat.le_add_right ..),
    Nat.add_sub_cancel_left]

theorem dst_lt (h : At s out rest) : s.dst < s.fullpath.length := by
  obtain ⟨gap, hbuffer, -⟩ := h.buffer
  rw [hbuffer, h.dst]
  simp only [length_append, length_singleton]
  omega

theorem skip (front : List UInt8) (h : At s out (front ++ rest)) :
    At { s with src := s.src + front.length } out rest := by
  obtain ⟨gap, hbuffer, hsrc⟩ := h.buffer
  refine ⟨⟨gap ++ front, ?_, ?_⟩, h.dst⟩
  · rw [hbuffer]
    simp only [append_assoc]
  · rw [length_append, hsrc, Nat.add_assoc]

theorem retreat (h : At s (out ++ more) rest) : At { s with dst := out.length } out rest := by
  obtain ⟨gap, hbuffer, hsrc⟩ := h.buffer
  refine ⟨⟨more ++ gap, ?_, ?_⟩, rfl⟩
  · rw [hbuffer]
    simp only [append_assoc]
  · rw [hsrc]
    simp only [length_append, add_assoc]

/-- The next character is copied.  It is written over the gap, or over itself. -/
theorem copy (h : At s out (c :: rest)) :
    At ⟨s.fullpath.set s.dst c, s.src + 1, s.dst + 1⟩ (out ++ [c]) rest := by
  obtain ⟨gap, hbuffer, hsrc⟩ := h.buffer
  refine ⟨?_, by rw [h.dst, length_append, length_singleton]⟩
  rw [hbuffer, hsrc, h.dst]
  cases gap with
  | nil => exact ⟨[], by simp, by simp⟩
  | cons g gap => exact ⟨gap ++ [c], by simp, by simp; omega⟩

end At

variable {s : Cursor} {out rest name tail : List UInt8} {c : UInt8}

theorem skipSlash_of_read {fullpath : List UInt8} {src : ℕ} (h : fullpath[src]? = some c) :
    skipSlash fullpath src = if c = slash then skipSlash fullpath (src + 1) else some src := by
  rw [skipSlash]
  split
  · rename_i hnone
    rw [h] at hnone
    cases hnone
  · rename_i c' hc'
    obtain rfl := some.inj (h.symm.trans hc')
    rfl

theorem skipSlash_eq (h : At s out rest) :
    ∃ src, skipSlash s.fullpath s.src = some src ∧
      At { s with src } out (rest.dropWhile (· == slash)) := by
  induction rest generalizing s with
  | nil =>
    have hread : s.fullpath[s.src]? = some 0 := h.read 0
    exact ⟨s.src, (skipSlash_of_read hread).trans (if_neg (by decide)), h⟩
  | cons c rest ih =>
    have hread : s.fullpath[s.src]? = some c := h.read 0
    rw [skipSlash_of_read hread]
    by_cases hc : c = slash
    · have hdrop : (c :: rest).dropWhile (· == slash) = rest.dropWhile (· == slash) :=
        dropWhile_cons_of_pos (beq_iff_eq.mpr hc)
      rw [if_pos hc, hdrop]
      exact ih (h.skip [c])
    · have hdrop : (c :: rest).dropWhile (· == slash) = c :: rest :=
        dropWhile_cons_of_neg (beq_iff_eq.not.mpr hc)
      rw [if_neg hc, hdrop]
      exact ⟨s.src, rfl, h⟩

theorem copyName_of_read (h : s.fullpath[s.src]? = some c) :
    copyName s =
      if c ≠ 0 ∧ c ≠ slash then
        if s.dst < s.fullpath.length then
          copyName ⟨s.fullpath.set s.dst c, s.src + 1, s.dst + 1⟩
        else none
      else some (c, { s with src := s.src + 1 }) := by
  rw [copyName]
  split
  · rename_i hnone
    rw [h] at hnone
    cases hnone
  · rename_i c' hc'
    obtain rfl := some.inj (h.symm.trans hc')
    rfl

theorem copyName_append (h : At s out (name ++ tail)) (hzero : 0 ∉ name) (hslash : slash ∉ name) :
    ∃ s', copyName s = copyName s' ∧ At s' (out ++ name) tail := by
  induction name generalizing s out with
  | nil => exact ⟨s, rfl, (append_nil out).symm ▸ h⟩
  | cons c name ih =>
    have hread : s.fullpath[s.src]? = some c := h.read 0
    have hc : c ≠ 0 ∧ c ≠ slash :=
      ⟨(ne_of_not_mem_cons hzero).symm, (ne_of_not_mem_cons hslash).symm⟩
    obtain ⟨s', hcopy, hat⟩ := ih h.copy (not_mem_of_not_mem_cons hzero)
      (not_mem_of_not_mem_cons hslash)
    refine ⟨s', ?_, ?_⟩
    · rw [copyName_of_read hread, if_pos hc, if_pos h.dst_lt, hcopy]
    · rwa [append_assoc] at hat

theorem copyUp_end (h : At s out name) (hzero : 0 ∉ name) (hslash : slash ∉ name) :
    ∃ s', copyUp s = .done { s' with src := s'.src + 1 } ∧ At s' (out ++ name) [] := by
  rw [← append_nil name] at h
  obtain ⟨s', hcopy, hat⟩ := copyName_append h hzero hslash
  have hread : s'.fullpath[s'.src]? = some 0 := hat.read 0
  refine ⟨s', ?_, hat⟩
  unfold copyUp
  rw [hcopy, copyName_of_read hread]
  rfl

theorem copyUp_slash (h : At s out (name ++ slash :: tail)) (hzero : 0 ∉ name)
    (hslash : slash ∉ name) :
    ∃ s', copyUp s = .next s' ∧
      At s' (out ++ name ++ [slash]) (tail.dropWhile (· == slash)) := by
  obtain ⟨s', hcopy, hat⟩ := copyName_append h hzero hslash
  have hread : s'.fullpath[s'.src]? = some slash := hat.read 0
  obtain ⟨src, hskip, hat'⟩ := skipSlash_eq hat.copy
  refine ⟨_, ?_, hat'⟩
  unfold copyUp
  rw [hcopy, copyName_of_read hread, if_neg (by decide)]
  dsimp only
  rw [if_pos rfl, if_pos hat.dst_lt, hskip]

/-! ## The end -/

section Finish

variable {out : List UInt8}

theorem At.set_dst (h : At s out []) (v : UInt8) :
    ∃ more, s.fullpath.set s.dst v = out ++ v :: more := by
  obtain ⟨gap, hbuffer, -⟩ := h.buffer
  rw [hbuffer, h.dst, set_append_right _ _ (Nat.le_refl _), Nat.sub_self]
  cases gap with
  | nil => exact ⟨[], rfl⟩
  | cons g gap => exact ⟨gap ++ ([] ++ [0]), rfl⟩

/-- An empty text: the character before the buffer is read. -/
theorem finish_nil (h : At s [] []) : finish s = .outside := by
  have hdst : s.dst = 0 := h.dst
  unfold finish
  rw [if_pos h.dst_lt, hdst]

/-- The last character is kept if it is not `'/'`, or if it is the first one too. -/
theorem finish_keep (h : At s (out ++ [c]) []) (hzero : 0 ∉ out ++ [c])
    (hc : out = [] ∨ c ≠ slash) : finish s = .path (out ++ [c]) := by
  obtain ⟨more, hset⟩ := h.set_dst 0
  have hdst : s.dst = out.length + 1 := h.dst.trans length_append
  have hkeep : ¬(out.length ≠ 0 ∧ (out ++ [c] ++ 0 :: more)[out.length]? = some slash) := by
    rw [append_assoc, getElem?_append_right (Nat.le_refl _), Nat.sub_self]
    rintro ⟨hlength, hslash⟩
    rcases hc with hnil | hc
    · exact hlength (congrArg length hnil)
    · exact hc (some.inj hslash)
  unfold finish
  rw [if_pos h.dst_lt, hset]
  rw [hdst]
  dsimp only
  rw [if_neg hkeep, cString_append_zero hzero]

theorem finish_slash (h : At s (out ++ [slash]) []) (hzero : 0 ∉ out) (hout : out ≠ []) :
    finish s = .path out := by
  obtain ⟨more, hset⟩ := h.set_dst 0
  have hdst : s.dst = out.length + 1 := h.dst.trans length_append
  have hlast : (out ++ [slash] ++ 0 :: more)[out.length]? = some slash := by
    rw [append_assoc, getElem?_append_right (Nat.le_refl _), Nat.sub_self]
    rfl
  have hremove : (out ++ [slash] ++ 0 :: more).set out.length 0 = out ++ 0 :: 0 :: more := by
    rw [append_assoc, set_append_right _ _ (Nat.le_refl _), Nat.sub_self]
    rfl
  unfold finish
  rw [if_pos h.dst_lt, hset]
  rw [hdst]
  dsimp only
  rw [if_pos ⟨length_eq_zero_iff.not.mpr hout, hlast⟩, hremove, cString_append_zero hzero]

end Finish

end Easyio.Dfs
