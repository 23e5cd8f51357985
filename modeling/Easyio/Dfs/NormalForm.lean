import Easyio.Dfs.Normalize
import Mathlib.Data.List.Induction

/-!
# What normalising a path gives

The text in front of `dst` is a list of segments, each with a `'/'` after it.  The `'/'`
at the start of an absolute path is such a segment too, the empty one, and `up_one`
removes it like any other: from the root it does not lead to an error but to an empty
text.  So the function resolves the components of the path on a stack that has one name
more than it should (`dfsNormalizePath_eq`).
-/

namespace Easyio.Dfs

open CString List Nat Paths

/-- The segments in front of `dst`, the last first. -/
def text : List (List UInt8) → List UInt8
  | [] => []
  | name :: below => text below ++ (name ++ [slash])

/-- What is returned when these segments are left. -/
def outcome : Option (List (List UInt8)) → Normalized
  | none => .null
  | some [] => .outside
  | some (name :: below) =>
    .path (if below = [] ∧ name = [] then [slash] else text below ++ name)

/-- A text without `'/'` and without the end of a string. -/
structure Segment (name : List UInt8) : Prop where
  zero : 0 ∉ name
  slash : slash ∉ name

variable {s s' : Cursor} {segs names : List (List UInt8)} {out rest name tail : List UInt8}
  {c : UInt8}

theorem zero_notMem_text (h : ∀ x ∈ segs, Segment x) : 0 ∉ text segs := by
  induction segs with
  | nil => exact not_mem_nil
  | cons name below ih =>
    obtain ⟨hname, hbelow⟩ := forall_mem_cons.mp h
    simp only [text, mem_append, not_or]
    exact ⟨ih hbelow, hname.zero, by decide⟩

/-! ## Going up -/

theorem back_eq {more : List UInt8} (hname : slash ∉ name) :
    back (text segs ++ (name ++ more)) ((text segs).length + name.length) =
      some (text segs).length := by
  induction name using reverseRecOn generalizing more with
  | nil =>
    cases segs with
    | nil => rfl
    | cons top below =>
      have hlast : (text (top :: below) ++ more)[(text below).length + top.length]? =
          some slash := by
        simp [text]
      have hlength : (text (top :: below)).length = (text below).length + top.length + 1 := by
        simp [text, add_assoc]
      rw [nil_append, length_nil, hlength, back, hlast]
      exact if_neg fun h => h rfl
  | append_singleton front c ih =>
    obtain ⟨hfront, hc⟩ := not_or.mp (mem_append.not.mp hname)
    have hread : (text segs ++ (front ++ [c] ++ more))[(text segs).length + front.length]? =
        some c := by
      simp
    have hne : c ≠ slash := fun h => hc (mem_singleton.mpr h.symm)
    rw [length_append, length_singleton, ← add_assoc, back, hread]
    refine (if_pos hne).trans ?_
    rw [append_assoc]
    exact ih hfront

theorem upOne_nil (h : At s (text []) rest) : upOne s = .null := by
  have hdst : s.dst = 0 := h.dst
  unfold upOne
  rw [hdst]

theorem upOne_cons (h : At s (text (name :: segs)) rest) (hname : slash ∉ name) :
    ∃ s', upOne s = .next s' ∧ At s' (text segs) rest := by
  obtain ⟨gap, hbuffer, -⟩ := h.buffer
  have hdst : s.dst = (text segs).length + name.length + 1 := by
    rw [h.dst]
    simp [text, add_assoc]
  have hback : back s.fullpath ((text segs).length + name.length) = some (text segs).length := by
    rw [hbuffer, text, append_assoc, append_assoc]
    exact back_eq hname
  refine ⟨_, ?_, h.retreat⟩
  unfold upOne
  rw [hdst]
  dsimp only
  rw [hback]

/-! ## One pass -/

section Passes

theorem pass_of_ne_dot (h : s.fullpath[s.src]? = some c) (hc : c ≠ dot) : pass s = copyUp s := by
  unfold pass
  rw [h]
  exact if_neg hc

theorem pass_of_dot (h₀ : s.fullpath[s.src]? = some dot) (h₁ : s.fullpath[s.src + 1]? = some c)
    (hzero : c ≠ 0) (hslash : c ≠ slash) (hdot : c ≠ dot) : pass s = copyUp s := by
  unfold pass
  rw [h₀, h₁]
  exact (if_pos rfl).trans ((if_neg hzero).trans ((if_neg hslash).trans (if_neg hdot)))

theorem pass_of_dots (h₀ : s.fullpath[s.src]? = some dot)
    (h₁ : s.fullpath[s.src + 1]? = some dot) (h₂ : s.fullpath[s.src + 2]? = some c)
    (hzero : c ≠ 0) (hslash : c ≠ slash) : pass s = copyUp s := by
  unfold pass
  rw [h₀, h₁, h₂]
  exact (if_neg hzero).trans (if_neg hslash)

/-- A component that is neither `.` nor `..` is copied. -/
theorem pass_copy (h : At s out (name ++ tail)) (hname : Segment name)
    (htail : tail = [] ∨ ∃ more, tail = slash :: more) (hdot : name ≠ [dot])
    (hup : name ≠ [dot, dot]) : pass s = copyUp s := by
  have hinner : ∀ c ∈ name, c ≠ 0 ∧ c ≠ slash := fun c hc =>
    ⟨fun h0 => hname.zero (h0 ▸ hc), fun h1 => hname.slash (h1 ▸ hc)⟩
  have h₀ := h.read 0
  have h₁ := h.read 1
  have h₂ := h.read 2
  match name with
  | [] =>
    rcases htail with rfl | ⟨more, rfl⟩
    · exact pass_of_ne_dot h₀ (by decide)
    · exact pass_of_ne_dot h₀ (by decide)
  | c₀ :: name =>
    by_cases hc₀ : c₀ = dot
    · subst hc₀
      match name with
      | [] => exact absurd rfl hdot
      | c₁ :: name =>
        obtain ⟨hzero₁, hslash₁⟩ := hinner c₁ (by simp)
        by_cases hc₁ : c₁ = dot
        · subst hc₁
          match name with
          | [] => exact absurd rfl hup
          | c₂ :: name =>
            obtain ⟨hzero₂, hslash₂⟩ := hinner c₂ (by simp)
            exact pass_of_dots h₀ h₁ h₂ hzero₂ hslash₂
        · exact pass_of_dot h₀ h₁ hzero₁ hslash₁ hc₁
    · exact pass_of_ne_dot h₀ hc₀

theorem pass_dot_end (h : At s out [dot]) : pass s = copyUp { s with src := s.src + 1 } := by
  have h₀ : s.fullpath[s.src]? = some dot := h.read 0
  have h₁ : s.fullpath[s.src + 1]? = some 0 := h.read 1
  unfold pass
  rw [h₀, h₁]
  rfl

theorem pass_dot_slash (h : At s out (dot :: slash :: tail)) :
    ∃ s', pass s = .next s' ∧ At s' out (tail.dropWhile (· == slash)) := by
  have h₀ : s.fullpath[s.src]? = some dot := h.read 0
  have h₁ : s.fullpath[s.src + 1]? = some slash := h.read 1
  obtain ⟨src, hskip, hat⟩ := skipSlash_eq (h.skip [dot, slash])
  replace hskip : skipSlash s.fullpath (s.src + 2) = some src := hskip
  refine ⟨_, ?_, hat⟩
  unfold pass
  rw [h₀, h₁, hskip]
  rfl

theorem pass_up_end (h : At s out [dot, dot]) : pass s = upOne { s with src := s.src + 2 } := by
  have h₀ : s.fullpath[s.src]? = some dot := h.read 0
  have h₁ : s.fullpath[s.src + 1]? = some dot := h.read 1
  have h₂ : s.fullpath[s.src + 2]? = some 0 := h.read 2
  unfold pass
  rw [h₀, h₁, h₂]
  rfl

theorem pass_up_slash (h : At s out (dot :: dot :: slash :: tail)) :
    ∃ s', pass s = upOne s' ∧ At s' out (tail.dropWhile (· == slash)) := by
  have h₀ : s.fullpath[s.src]? = some dot := h.read 0
  have h₁ : s.fullpath[s.src + 1]? = some dot := h.read 1
  have h₂ : s.fullpath[s.src + 2]? = some slash := h.read 2
  obtain ⟨src, hskip, hat⟩ := skipSlash_eq (h.skip [dot, dot, slash])
  replace hskip : skipSlash s.fullpath (s.src + 3) = some src := hskip
  refine ⟨_, ?_, hat⟩
  unfold pass
  rw [h₀, h₁, h₂, hskip]
  rfl

end Passes

/-! ## All passes -/

theorem rewrite_next (h : pass s = .next s') : rewrite s = rewrite s' := by
  rw [rewrite]
  split <;> simp_all

/-- The end does not depend on `src`. -/
theorem rewrite_done {src : ℕ} (h : pass s = .done { s' with src }) : rewrite s = finish s' := by
  have hfinish : finish { s' with src } = finish s' := rfl
  rw [rewrite]
  split <;> simp_all

theorem rewrite_null (h : pass s = .null) : rewrite s = .null := by
  rw [rewrite]
  split <;> simp_all

theorem finish_text (h : At s (text segs) []) (hsegs : ∀ x ∈ segs, Segment x) :
    finish s = outcome (some segs) := by
  cases segs with
  | nil => exact finish_nil h
  | cons name below =>
    rw [text, ← append_assoc] at h
    have hzero : 0 ∉ text (name :: below) := zero_notMem_text hsegs
    rw [text, ← append_assoc] at hzero
    rw [outcome]
    split_ifs with hroot
    · obtain ⟨rfl, rfl⟩ := hroot
      exact finish_keep h hzero (Or.inl rfl)
    · refine finish_slash h (fun hmem => hzero (mem_append_left _ hmem)) fun hnil => ?_
      obtain ⟨hbelow, hname⟩ := append_eq_nil_iff.mp hnil
      refine hroot ⟨?_, hname⟩
      cases below with
      | nil => rfl
      | cons top below => simp [text] at hbelow

theorem finish_name (h : At s (text segs ++ name) []) (hsegs : ∀ x ∈ segs, Segment x)
    (hname : Segment name) (hne : name ≠ []) : finish s = outcome (some (name :: segs)) := by
  have hzero : 0 ∉ text segs ++ name :=
    fun hmem => (mem_append.mp hmem).elim (zero_notMem_text hsegs) hname.zero
  obtain ⟨front, c, rfl⟩ := (eq_nil_or_concat name).resolve_left hne
  have hc : c ≠ slash := fun hc => hname.slash (by simp [hc])
  rw [outcome, if_neg fun hroot => hne hroot.2]
  rw [concat_eq_append, ← append_assoc] at h hzero ⊢
  exact finish_keep h hzero (Or.inr hc)

theorem resolve_dropWhile : resolve dot segs ((tail.dropWhile (· == slash)).splitOn slash) =
    resolve dot segs (tail.splitOn slash) := by
  induction tail with
  | nil => rfl
  | cons c rest ih =>
    by_cases hc : c = slash
    · subst hc
      exact ih
    · have hdrop : (c :: rest).dropWhile (· == slash) = c :: rest :=
        dropWhile_cons_of_neg (beq_iff_eq.not.mpr hc)
      rw [hdrop]

/-- A path that is not empty starts with a name, which is all of it or is followed by a
`'/'`. -/
theorem exists_segment (hzero : 0 ∉ rest) :
    ∃ name tail, Segment name ∧ rest = name ++ tail ∧
      (tail = [] ∨ ∃ more, tail = slash :: more) := by
  induction rest with
  | nil => exact ⟨[], [], ⟨not_mem_nil, not_mem_nil⟩, rfl, Or.inl rfl⟩
  | cons c rest ih =>
    by_cases hc : c = slash
    · exact ⟨[], c :: rest, ⟨not_mem_nil, not_mem_nil⟩, rfl, Or.inr ⟨rest, hc ▸ rfl⟩⟩
    · obtain ⟨name, tail, hname, rfl, htail⟩ := ih (not_mem_of_not_mem_cons hzero)
      refine ⟨c :: name, tail, ⟨?_, ?_⟩, rfl, htail⟩
      · exact not_mem_cons_of_ne_of_not_mem (ne_of_not_mem_cons hzero) hname.zero
      · exact not_mem_cons_of_ne_of_not_mem (Ne.symm hc) hname.slash

/-- One pass over the component `name`, with the text `after` left to read. -/
inductive Leads (s : Cursor) (segs : List (List UInt8)) (name after : List UInt8) : Prop where
  | next (s' : Cursor) (segs' : List (List UInt8)) (pass : pass s = .next s')
      (at_ : At s' (text segs') after) (segments : ∀ x ∈ segs', Segment x)
      (resolve : ∀ comps, resolve dot segs (name :: comps) = resolve dot segs' comps)
  | null (pass : pass s = .null) (resolve : ∀ comps, resolve dot segs (name :: comps) = none)

section Leads

variable {s' : Cursor} {after more : List UInt8}

theorem Leads.rewrite (h : Leads s segs name after) {comps : List (List UInt8)}
    (ih : ∀ s' segs', At s' (text segs') after → (∀ x ∈ segs', Segment x) →
      rewrite s' = outcome (resolve dot segs' comps)) :
    rewrite s = outcome (resolve dot segs (name :: comps)) := by
  cases h with
  | next s' segs' hpass hat hsegs' hresolve =>
    rw [rewrite_next hpass, hresolve]
    exact ih s' segs' hat hsegs'
  | null hpass hresolve =>
    rw [rewrite_null hpass, hresolve]
    rfl

theorem leads_up (hpass : pass s = upOne s') (h : At s' (text segs) after)
    (hsegs : ∀ x ∈ segs, Segment x) : Leads s segs [dot, dot] after := by
  cases segs with
  | nil => exact .null (hpass.trans (upOne_nil h)) fun _ => resolve_up_nil
  | cons top below =>
    obtain ⟨htop, hbelow⟩ := forall_mem_cons.mp hsegs
    obtain ⟨s'', hup, hat⟩ := upOne_cons h htop.slash
    exact .next s'' below (hpass.trans hup) hat hbelow fun _ => resolve_up top

theorem leads_slash (h : At s (text segs) (name ++ slash :: more)) (hsegs : ∀ x ∈ segs, Segment x)
    (hname : Segment name) (hne : name ≠ []) : Leads s segs name (more.dropWhile (· == slash)) := by
  by_cases hdot : name = [dot]
  · subst hdot
    obtain ⟨s', hpass, hat⟩ := pass_dot_slash h
    exact .next s' segs hpass hat hsegs fun _ => resolve_stays (Or.inr rfl)
  by_cases hup : name = [dot, dot]
  · subst hup
    obtain ⟨s', hpass, hat⟩ := pass_up_slash h
    exact leads_up hpass hat hsegs
  obtain ⟨s', hcopy, hat⟩ := copyUp_slash h hname.zero hname.slash
  rw [append_assoc] at hat
  have hpass := pass_copy h hname (Or.inr ⟨more, rfl⟩) hdot hup
  exact .next s' (name :: segs) (hpass.trans hcopy) hat (forall_mem_cons.mpr ⟨hname, hsegs⟩)
    fun _ => resolve_name (fun hstays => hstays.elim hne hdot) hup

theorem rewrite_last (h : At s (text segs) name) (hsegs : ∀ x ∈ segs, Segment x)
    (hname : Segment name) (hup : name ≠ [dot, dot]) :
    rewrite s = outcome (resolve dot segs [name]) := by
  by_cases hdot : name = [dot]
  · subst hdot
    obtain ⟨s', hcopy, hat⟩ := copyUp_end (h.skip [dot]) not_mem_nil not_mem_nil
    rw [append_nil] at hat
    rw [rewrite_done ((pass_dot_end h).trans hcopy)]
    exact finish_text hat hsegs
  have hpass : pass s = copyUp s := by
    rw [← append_nil name] at h
    exact pass_copy h hname (Or.inl rfl) hdot hup
  obtain ⟨s', hcopy, hat⟩ := copyUp_end h hname.zero hname.slash
  rw [rewrite_done (hpass.trans hcopy)]
  by_cases hnil : name = []
  · rw [hnil, append_nil] at hat
    rw [resolve_stays (Or.inl hnil)]
    exact finish_text hat hsegs
  · rw [resolve_name (fun hstays => hstays.elim hnil hdot) hup]
    exact finish_name hat hsegs hname hnil

end Leads

theorem head_dropWhile (tail : List UInt8) : (tail.dropWhile (· == slash)).head? ≠ some slash := by
  intro h
  have hhead := head?_dropWhile_not (· == slash) tail
  rw [h] at hhead
  exact absurd hhead (by decide)

/-- The rest of the path is resolved on the segments in front of `dst`. -/
theorem rewrite_eq (h : At s (text segs) rest) (hsegs : ∀ x ∈ segs, Segment x)
    (hzero : 0 ∉ rest) (hhead : rest.head? ≠ some slash) :
    rewrite s = outcome (resolve dot segs (rest.splitOn slash)) := by
  -- on the length of the path, because a pass also skips the slashes behind a component
  induction hlength : rest.length using Nat.strongRecOn generalizing s segs rest with
  | ind n ih =>
    obtain ⟨name, tail, hname, rfl, htail⟩ := exists_segment hzero
    rcases htail with rfl | ⟨more, rfl⟩
    · rw [append_nil] at h hlength ⊢
      rw [splitOn_eq_singleton hname.slash]
      by_cases hup : name = [dot, dot]
      · subst hup
        have hlast : Leads s segs [dot, dot] [] :=
          leads_up (pass_up_end h) (h.skip [dot, dot]) hsegs
        refine hlast.rewrite fun s' segs' hat hsegs' => ?_
        rw [ih 0 (hlength ▸ Nat.two_pos) hat hsegs' not_mem_nil nofun rfl,
          splitOn_nil, resolve_stays (Or.inl rfl)]
      · exact rewrite_last h hsegs hname hup
    · have hne : name ≠ [] := fun hnil => hhead (by rw [hnil]; rfl)
      have hmore : 0 ∉ more.dropWhile (· == slash) := fun hmem =>
        hzero (mem_append_right _
          (mem_cons_of_mem _ ((dropWhile_suffix _).subset hmem)))
      have hshort : (more.dropWhile (· == slash)).length < n := by
        have := (dropWhile_suffix (· == slash) (l := more)).length_le
        rw [length_append, length_cons] at hlength
        omega
      rw [splitOn_append_cons_self_of_not_mem hname.slash]
      refine (leads_slash h hsegs hname hne).rewrite fun s' segs' hat hsegs' => ?_
      rw [ih _ hshort hat hsegs' hmore (head_dropWhile more) rfl, resolve_dropWhile]

variable {directory filename : List UInt8}

theorem zero_notMem_joined (hzero : 0 ∉ directory) (hzero' : 0 ∉ filename) :
    0 ∉ joined directory filename := by
  unfold joined
  split_ifs
  · simp only [mem_append, mem_cons, not_or]
    exact ⟨hzero, by decide, hzero'⟩
  · exact hzero'

/-- The function resolves the path on a stack that holds the root as a name. -/
theorem dfsNormalizePath_eq (hdirectory : directory.head? = some slash) (hzero : 0 ∉ directory)
    (hzero' : 0 ∉ filename) :
    dfsNormalizePath (some directory) filename =
      outcome (resolve dot [[]] ((joined directory filename).splitOn slash)) := by
  have hjoined := zero_notMem_joined hzero hzero'
  obtain ⟨path, hpath⟩ : ∃ path, joined directory filename = slash :: path := by
    unfold joined
    split_ifs with habsolute
    · obtain ⟨rest, rfl⟩ := head?_eq_some_iff.mp hdirectory
      exact ⟨_, rfl⟩
    · exact head?_eq_some_iff.mp (not_not.mp habsolute)
  have hstep : dfsNormalizePath (some directory) filename =
      rewrite ⟨joined directory filename ++ [0], 0, 0⟩ := rfl
  rw [hstep, hpath]
  rw [hpath] at hjoined
  have hstart : At ⟨slash :: path ++ [0], 0, 0⟩ (text []) ([] ++ slash :: path) :=
    ⟨⟨[], rfl, rfl⟩, rfl⟩
  have hempty : Segment [] := ⟨not_mem_nil, not_mem_nil⟩
  have hpass := pass_copy hstart hempty (Or.inr ⟨path, rfl⟩) nofun nofun
  obtain ⟨s', hcopy, hat⟩ := copyUp_slash hstart hempty.zero hempty.slash
  have hroot : At s' (text [[]]) (path.dropWhile (· == slash)) := hat
  have hrest : 0 ∉ path.dropWhile (· == slash) := fun hmem =>
    hjoined (mem_cons_of_mem _ ((dropWhile_suffix _).subset hmem))
  have hsplit : (slash :: path).splitOn slash = [] :: path.splitOn slash :=
    splitOn_append_cons_self_of_not_mem not_mem_nil path
  rw [rewrite_next (hpass.trans hcopy), rewrite_eq hroot (forall_mem_singleton.mpr hempty)
    hrest (head_dropWhile path), resolve_dropWhile, hsplit, resolve_stays (Or.inl rfl)]

/-! ## The normal form -/

theorem text_root (names : List (List UInt8)) :
    text (names ++ [[]]) = names.reverse.flatMap (slash :: ·) ++ [slash] := by
  induction names with
  | nil => rfl
  | cons name names ih =>
    rw [cons_append, text, ih]
    simp

theorem outcome_root (names : List (List UInt8)) :
    outcome (some (names ++ [[]])) = .path (render slash names.reverse) := by
  cases names with
  | nil => rfl
  | cons name names =>
    rw [cons_append, outcome, text_root, render]
    simp

/-- What the function is for: the result is the normal form of the path, or an error if the
path leads above the root; it is made of names only; and it is its own normal form. -/
structure Normalizes (directory filename : List UInt8) : Prop where
  result : dfsNormalizePath (some directory) filename =
    (normalize slash dot (joined directory filename)).elim .null .path
  names : ∀ path, dfsNormalizePath (some directory) filename = .path path →
    ∃ names, (∀ name ∈ names, Name slash dot name) ∧ path = render slash names
  idempotent : ∀ path, dfsNormalizePath (some directory) filename = .path path →
    ∀ other : List UInt8, other.head? = some slash → 0 ∉ other →
      dfsNormalizePath (some other) path = .path path

theorem result_iff (hdirectory : directory.head? = some slash) (hzero : 0 ∉ directory)
    (hzero' : 0 ∉ filename) :
    dfsNormalizePath (some directory) filename =
        (normalize slash dot (joined directory filename)).elim .null .path ↔
      climb dot ((joined directory filename).splitOn slash) ≠ 1 := by
  rw [dfsNormalizePath_eq hdirectory hzero hzero', resolve_eq, Paths.normalize_eq, length_singleton]
  generalize (joined directory filename).splitOn slash = comps
  rcases lt_trichotomy (climb dot comps) 1 with hlt | hone | hgt
  · have hnone : climb dot comps = 0 := lt_one_iff.mp hlt
    rw [hnone]
    exact iff_of_true (outcome_root _) Nat.zero_ne_one
  · rw [hone]
    refine iff_of_false ?_ fun h => h rfl
    intro h
    cases hleft : left dot comps <;> rw [hleft] at h <;> cases h
  · rw [if_neg (Nat.not_le_of_lt hgt), if_neg (Nat.ne_of_gt (Nat.lt_of_succ_lt hgt))]
    exact iff_of_true rfl (ne_of_gt hgt)

theorem head_render (names : List (List UInt8)) : (render slash names).head? = some slash := by
  unfold render
  split_ifs with hnil
  · rfl
  · obtain ⟨name, rest, rfl⟩ := exists_cons_of_ne_nil hnil
    rfl

theorem zero_notMem_render (h : ∀ name ∈ names, 0 ∉ name) : 0 ∉ render slash names := by
  unfold render
  split_ifs
  · decide
  · intro hmem
    obtain ⟨name, hname, hzero⟩ := mem_flatMap.mp hmem
    rcases mem_cons.mp hzero with hslash | hzero
    · exact absurd hslash (by decide)
    · exact h name hname hzero

theorem dfsNormalizePath_render (hdirectory : directory.head? = some slash) (hzero : 0 ∉ directory)
    (hnames : ∀ name ∈ names, Name slash dot name) (hzero' : ∀ name ∈ names, 0 ∉ name) :
    dfsNormalizePath (some directory) (render slash names) = .path (render slash names) := by
  have hjoined : joined directory (render slash names) = render slash names :=
    if_neg (not_not.mpr (head_render names))
  have hnormal := normalize_render hnames
  have hclimb : climb dot ((render slash names).splitOn slash) = 0 := by
    rw [Paths.normalize_eq] at hnormal
    exact (Option.ite_none_right_eq_some.mp hnormal).1
  have hresult := result_iff hdirectory hzero (zero_notMem_render hzero')
  rw [hjoined, hclimb, hnormal] at hresult
  exact hresult.mpr Nat.zero_ne_one

/-- For every absolute directory and every file name, `dfs_normalize_path` normalises the
path if and only if the path does not lead exactly one level above the root. -/
theorem dfs_normalizes_iff (hdirectory : directory.head? = some slash) (hzero : 0 ∉ directory)
    (hzero' : 0 ∉ filename) :
    Normalizes directory filename ↔
      climb dot ((joined directory filename).splitOn slash) ≠ 1 := by
  have hiff := result_iff hdirectory hzero hzero'
  refine ⟨fun h => hiff.mp h.result, fun h => ?_⟩
  have hresult := hiff.mpr h
  have hnames : ∀ path, dfsNormalizePath (some directory) filename = .path path →
      ∃ names, (∀ name ∈ names, Name slash dot name ∧ name ⊆ joined directory filename) ∧
        path = render slash names := by
    intro path hpath
    cases hnormal : normalize slash dot (joined directory filename) with
    | none =>
      rw [hresult, hnormal] at hpath
      cases hpath
    | some normal =>
      rw [hresult, hnormal] at hpath
      obtain rfl := Normalized.path.inj hpath
      exact names_of_normalize hnormal
  refine ⟨hresult, fun path hpath => ?_, fun path hpath other hother hother' => ?_⟩
  · obtain ⟨names, hall, hrender⟩ := hnames path hpath
    exact ⟨names, fun name hname => (hall name hname).1, hrender⟩
  · obtain ⟨names, hall, rfl⟩ := hnames path hpath
    exact dfsNormalizePath_render hother hother' (fun name hname => (hall name hname).1)
      fun name hname hmem => zero_notMem_joined hzero hzero' ((hall name hname).2 hmem)

/-- From `/a`, the file `../b/` is `/b`. -/
theorem dfs_normalizes_iff_up : Normalizes (ascii "/a") (ascii "../b/") :=
  (dfs_normalizes_iff (by decide) (by decide) (by decide)).mpr (by decide)

/-- `..` in the root: the text becomes empty, and the character before it is read. -/
theorem dfs_leaves_buffer :
    dfsNormalizePath (some (ascii "/")) (ascii "..") = .outside ∧
      ¬Normalizes (ascii "/") (ascii "..") := by
  have hresult : dfsNormalizePath (some (ascii "/")) (ascii "..") = .outside := by
    rw [dfsNormalizePath_eq (by decide) (by decide) (by decide)]
    decide
  refine ⟨hresult, fun h => ?_⟩
  have hnull := h.result
  rw [hresult] at hnull
  exact absurd hnull (by decide)

end Easyio.Dfs
