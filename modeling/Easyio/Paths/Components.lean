import Mathlib.Algebra.Group.Nat.Defs
import Mathlib.Data.List.Basic

/-!
# Resolving paths by components

A path is a text whose components are separated by `sep`.  An empty component and the
component `dot` stand for the directory itself, `dot dot` for the one above, and every
other component is a name.

`resolve` walks along the components with a stack of names.  What a list of components
does to a stack is summed up by two values: how far it climbs below where it started
(`climb`), and the names it leaves on top (`left`).  `resolve_eq` says so, and the facts
about absolute paths follow from it.
-/

namespace Easyio.Paths

open List Nat Option

variable {α : Type*} [DecidableEq α] (sep dot : α)

/-- A component that stands for the directory itself. -/
def Stays (component : List α) : Prop := component = [] ∨ component = [dot]

instance (component : List α) : Decidable (Stays dot component) := instDecidableOr

/-- Follow the components from the directory with the names `stack`, the innermost first;
`none` if this leads above the outermost. -/
def resolve : List (List α) → List (List α) → Option (List (List α))
  | stack, [] => some stack
  | stack, component :: rest =>
    if Stays dot component then resolve stack rest
    else if component = [dot, dot] then
      match stack with
      | [] => none
      | _ :: below => resolve below rest
    else resolve (component :: stack) rest

/-- How many levels the components lead above where they start. -/
def climb : List (List α) → ℕ
  | [] => 0
  | component :: rest =>
    if Stays dot component then climb rest
    else if component = [dot, dot] then climb rest + 1
    else climb rest - 1

/-- The names that the components add, the innermost first. -/
def left : List (List α) → List (List α)
  | [] => []
  | component :: rest =>
    if Stays dot component then left rest
    else if component = [dot, dot] then left rest
    else if climb dot rest = 0 then left rest ++ [component]
    else left rest

/-- The absolute path with the given names, the outermost first. -/
def render (names : List (List α)) : List α :=
  if names = [] then [sep] else names.flatMap (sep :: ·)

/-- The normal form of an absolute path; `none` if it leads above the root. -/
def normalize (path : List α) : Option (List α) :=
  (resolve dot [] (path.splitOn sep)).map fun stack => render sep stack.reverse

/-- A component that is a name. -/
structure Name (name : List α) : Prop where
  moves : ¬Stays dot name
  inner : name ≠ [dot, dot]
  single : sep ∉ name

variable {sep dot} {stack stack' comps names : List (List α)} {name path front rest : List α}

section Steps

variable {component : List α}

theorem resolve_stays (h : Stays dot component) :
    resolve dot stack (component :: comps) = resolve dot stack comps :=
  (resolve.eq_def ..).trans (if_pos h)

omit [DecidableEq α] in
theorem not_stays_up : ¬Stays dot [dot, dot] := by
  rintro (h | h) <;> cases h

theorem resolve_up (top : List α) : resolve dot (top :: stack) ([dot, dot] :: comps) =
    resolve dot stack comps := by
  rw [resolve, if_neg not_stays_up, if_pos rfl]

theorem resolve_up_nil : resolve dot [] ([dot, dot] :: comps) = none := by
  rw [resolve, if_neg not_stays_up, if_pos rfl]

theorem resolve_name (h : ¬Stays dot component) (hup : component ≠ [dot, dot]) :
    resolve dot stack (component :: comps) = resolve dot (component :: stack) comps :=
  (resolve.eq_def ..).trans ((if_neg h).trans (if_neg hup))

end Steps

/-- The components climb, and then leave their names. -/
theorem resolve_eq : resolve dot stack comps =
    if climb dot comps ≤ stack.length then some (left dot comps ++ stack.drop (climb dot comps))
    else none := by
  induction comps generalizing stack with
  | nil => exact (if_pos (zero_le _)).symm
  | cons component rest ih =>
    by_cases hstays : Stays dot component
    · rw [resolve_stays hstays, climb, left, if_pos hstays, if_pos hstays, ih]
    rw [climb, left, if_neg hstays, if_neg hstays]
    by_cases hup : component = [dot, dot]
    · rw [if_pos hup, if_pos hup, hup]
      cases stack with
      | nil =>
        rw [resolve_up_nil]
        exact (if_neg (not_succ_le_zero _)).symm
      | cons top below =>
        rw [resolve_up, ih]
        exact if_congr succ_le_succ_iff.symm rfl rfl
    rw [if_neg hup, if_neg hup, resolve_name hstays hup, ih]
    by_cases hzero : climb dot rest = 0
    · rw [if_pos hzero, hzero, append_assoc]
      rfl
    · obtain ⟨n, hn⟩ := exists_eq_succ_of_ne_zero hzero
      rw [hn]
      exact if_congr succ_le_succ_iff rfl rfl

theorem mem_left (h : name ∈ left dot comps) :
    name ∈ comps ∧ ¬Stays dot name ∧ name ≠ [dot, dot] := by
  induction comps with
  | nil => cases h
  | cons component rest ih =>
    have htail : name ∈ left dot rest →
        name ∈ component :: rest ∧ ¬Stays dot name ∧ name ≠ [dot, dot] := fun hname =>
      ⟨mem_cons_of_mem _ (ih hname).1, (ih hname).2⟩
    unfold left at h
    split_ifs at h with hstays hup hzero
    · exact htail h
    · exact htail h
    · rcases mem_append.mp h with hname | hname
      · exact htail hname
      · obtain rfl := mem_singleton.mp hname
        exact ⟨mem_cons_self, hstays, hup⟩
    · exact htail h

/-- A component is a part of the text without `sep`. -/
theorem component_of_mem_splitOn (h : name ∈ path.splitOn sep) : sep ∉ name ∧ name ⊆ path := by
  induction path generalizing name with
  | nil =>
    obtain rfl := mem_singleton.mp (splitOn_nil sep ▸ h)
    exact ⟨not_mem_nil, Subset.refl _⟩
  | cons c rest ih =>
    rw [splitOn_cons_eq_if_modifyHead] at h
    obtain ⟨head, tail, hsplit⟩ := exists_cons_of_ne_nil (splitOn_ne_nil sep rest)
    rw [hsplit] at h ih
    split_ifs at h with hc
    · rcases mem_cons.mp h with rfl | hname
      · exact ⟨not_mem_nil, nil_subset _⟩
      · exact ⟨(ih hname).1, subset_cons_of_subset _ (ih hname).2⟩
    · rcases mem_cons.mp h with rfl | hname
      · obtain ⟨hsep, hsub⟩ := ih mem_cons_self
        have hne : sep ≠ c := fun heq => hc (beq_iff_eq.mpr heq.symm)
        exact ⟨not_mem_cons_of_ne_of_not_mem hne hsep, cons_subset_cons _ hsub⟩
      · obtain ⟨hsep, hsub⟩ := ih (mem_cons_of_mem _ hname)
        exact ⟨hsep, subset_cons_of_subset _ hsub⟩

/-! ## Absolute paths -/

theorem normalize_eq : normalize sep dot path =
    if climb dot (path.splitOn sep) = 0 then
      some (render sep (left dot (path.splitOn sep)).reverse)
    else none := by
  unfold normalize
  rw [resolve_eq]
  by_cases hzero : climb dot (path.splitOn sep) = 0
  · rw [hzero, drop_nil, append_nil]
    rfl
  · rw [if_neg hzero, length_nil, if_neg fun hle => hzero (eq_zero_of_le_zero hle)]
    rfl

/-- A normal form is made of names. -/
theorem names_of_normalize (h : normalize sep dot path = some rest) :
    ∃ names, (∀ name ∈ names, Name sep dot name ∧ name ⊆ path) ∧ rest = render sep names := by
  rw [normalize_eq] at h
  obtain ⟨-, h⟩ := ite_none_right_eq_some.mp h
  refine ⟨_, fun name hname => ?_, (some.inj h).symm⟩
  obtain ⟨hmem, hmoves, hinner⟩ := mem_left (mem_reverse.mp hname)
  obtain ⟨hsep, hsub⟩ := component_of_mem_splitOn hmem
  exact ⟨⟨hmoves, hinner, hsep⟩, hsub⟩

theorem splitOn_append_flatMap (hname : sep ∉ name) (hnames : ∀ n ∈ names, sep ∉ n) :
    (name ++ names.flatMap (sep :: ·)).splitOn sep = name :: names := by
  induction names generalizing name with
  | nil =>
    rw [flatMap_nil, append_nil]
    exact splitOn_eq_singleton hname
  | cons next rest ih =>
    obtain ⟨hnext, hrest⟩ := forall_mem_cons.mp hnames
    rw [flatMap_cons, cons_append, splitOn_append_cons_self_of_not_mem hname, ih hnext hrest]

theorem resolve_names (h : ∀ name ∈ names, Name sep dot name) :
    resolve dot stack names = some (names.reverse ++ stack) := by
  induction names generalizing stack with
  | nil => rfl
  | cons name rest ih =>
    obtain ⟨hname, hrest⟩ := forall_mem_cons.mp h
    rw [resolve_name hname.moves hname.inner, ih hrest, reverse_cons, append_assoc]
    rfl

/-- A path made of names is its own normal form. -/
theorem normalize_render (h : ∀ name ∈ names, Name sep dot name) :
    normalize sep dot (render sep names) = some (render sep names) := by
  have hstays : Stays dot [] := Or.inl rfl
  have hresolve : resolve dot [] ((render sep names).splitOn sep) = some names.reverse := by
    unfold render
    split_ifs with hnil
    · have hsplit : [sep].splitOn sep = [[], []] :=
        splitOn_append_cons_self_of_not_mem not_mem_nil []
      rw [hsplit, hnil]
      rfl
    · have hsplit := splitOn_append_flatMap not_mem_nil fun n hn => (h n hn).single
      rw [nil_append] at hsplit
      rw [hsplit, resolve_stays hstays, resolve_names h, append_nil]
  rw [normalize, hresolve, map_some, reverse_reverse]

/-! ## Paths below a path -/

theorem flatMap_splitOn (path : List α) : (path.splitOn sep).flatMap (sep :: ·) = sep :: path := by
  induction path with
  | nil => rw [splitOn_nil]; rfl
  | cons c rest ih =>
    rw [splitOn_cons_eq_if_modifyHead]
    split_ifs with hc
    · rw [flatMap_cons, ih, beq_iff_eq.mp hc]
      rfl
    · obtain ⟨head, tail, hsplit⟩ := exists_cons_of_ne_nil (splitOn_ne_nil sep rest)
      rw [hsplit, flatMap_cons, cons_append] at ih
      rw [hsplit, modifyHead_cons, flatMap_cons, cons_append, cons_append, (cons.inj ih).2]

/-- The names of one path begin with those of another exactly if the text of the one
continues that of the other with a new component. -/
theorem prefix_iff_text {names' : List (List α)} (h : ∀ name ∈ names, sep ∉ name)
    (h' : ∀ name ∈ names', sep ∉ name) :
    names <+: names' ↔ ∃ more, names'.flatMap (sep :: ·) = names.flatMap (sep :: ·) ++ more ∧
      ∀ c ∈ more.head?, c = sep := by
  constructor
  · rintro ⟨after, rfl⟩
    refine ⟨after.flatMap (sep :: ·), flatMap_append .., ?_⟩
    cases after with
    | nil => exact fun c hc => nomatch hc
    | cons name rest => exact fun c hc => (some.inj hc).symm
  rintro ⟨more, htext, hmore⟩
  cases more with
  | nil =>
    have hsplit := splitOn_append_flatMap not_mem_nil h'
    rw [htext, append_nil, splitOn_append_flatMap not_mem_nil h] at hsplit
    exact (cons.inj hsplit).2 ▸ prefix_rfl
  | cons c path =>
    -- the text after `names` is that of the components of `path`
    rw [hmore c rfl, ← flatMap_splitOn, ← flatMap_append] at htext
    have hsplit := splitOn_append_flatMap not_mem_nil h'
    rw [htext, splitOn_append_flatMap not_mem_nil] at hsplit
    · exact ⟨_, (cons.inj hsplit).2⟩
    · intro name hname
      rcases mem_append.mp hname with hname | hname
      · exact h name hname
      · exact (component_of_mem_splitOn hname).1

end Easyio.Paths
