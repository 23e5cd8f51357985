import Easyio.Dfs.Normalize

/-!
# The file system of a path

`dfs_filesystem_lookup` of `components/dfs/src/dfs_fs.c` goes through the whole mount table
and keeps the best entry so far: the one that matches with the longest path.  Strings are
the bytes before their terminator.  The table may be in any order and have free entries
anywhere, so what the loop keeps is stated about the entries it has seen (`Best`).
-/

namespace Easyio.Dfs

open CString List Option Paths

/-- An entry of `filesystem_table`; `none` stands for a null pointer. -/
structure DfsFilesystem (Ops : Type*) where
  path : Option (List UInt8)
  ops : Option Ops
  deriving DecidableEq

variable {Ops : Type*} {table : List (DfsFilesystem Ops)} {fs iter : DfsFilesystem Ops}
  {path fspath : List UInt8} {names : List (List UInt8)}

/-- The two tests of `path` against the path of an entry: `strncmp`, and the separator. -/
def underMount (fspath path : List UInt8) : Bool :=
  fspath.isPrefixOf path &&
    !(1 < fspath.length && fspath.length < path.length && path[fspath.length]? != some slash)

/-- The variables `fs` and `prefixlen`. -/
structure Found (Ops : Type*) where
  fs : Option (DfsFilesystem Ops)
  prefixlen : ℕ

/-- The body of the loop. -/
def lookAt (path : List UInt8) (found : Found Ops) (iter : DfsFilesystem Ops) : Found Ops :=
  match iter.path, iter.ops with
  | some fspath, some _ =>
    if fspath.length < found.prefixlen then found
    else if underMount fspath path then ⟨some iter, fspath.length⟩
    else found
  | _, _ => found

def dfsFilesystemLookup (table : List (DfsFilesystem Ops)) (path : List UInt8) :
    Option (DfsFilesystem Ops) :=
  (table.foldl (lookAt path) ⟨none, 0⟩).fs

namespace DfsFilesystem

/-- The entry is mounted at `fspath`. -/
def MountedAt (fs : DfsFilesystem Ops) (fspath : List UInt8) : Prop :=
  fs.path = some fspath ∧ fs.ops.isSome

/-- The entry is mounted at a path that the loop takes for one above `path`. -/
def Takes (path : List UInt8) (fs : DfsFilesystem Ops) : Prop :=
  ∃ fspath, fs.MountedAt fspath ∧ underMount fspath path

def strlen (fs : DfsFilesystem Ops) : ℕ := (fs.path.getD []).length

end DfsFilesystem

theorem lookAt_of_takes (h : iter.Takes path) (found : Found Ops) :
    lookAt path found iter =
      if iter.strlen < found.prefixlen then found else ⟨some iter, iter.strlen⟩ := by
  obtain ⟨fspath, ⟨hpath, hops⟩, hunder⟩ := h
  obtain ⟨ops, hops⟩ := isSome_iff_exists.mp hops
  have hlen : iter.strlen = fspath.length := by rw [DfsFilesystem.strlen, hpath]; rfl
  simp only [lookAt, hpath, hops, hunder, hlen, if_true]

theorem lookAt_of_not_takes (h : ¬iter.Takes path) (found : Found Ops) :
    lookAt path found iter = found := by
  unfold lookAt
  split
  · next fspath ops hpath hops =>
      have hunder : ¬underMount fspath path := fun hunder =>
        h ⟨fspath, ⟨hpath, isSome_iff_exists.mpr ⟨ops, hops⟩⟩, hunder⟩
      rw [if_neg hunder, ite_self]
  · rfl

/-- What the loop has kept of the entries seen so far. -/
structure Best (path : List UInt8) (seen : List (DfsFilesystem Ops)) (found : Found Ops) :
    Prop where
  none : found.fs = none → found.prefixlen = 0 ∧ ∀ fs ∈ seen, ¬fs.Takes path
  some : ∀ fs ∈ found.fs, fs ∈ seen ∧ fs.Takes path ∧ found.prefixlen = fs.strlen ∧
    ∀ other ∈ seen, other.Takes path → other.strlen ≤ fs.strlen

theorem Best.lookAt {seen : List (DfsFilesystem Ops)} {found : Found Ops}
    (h : Best path seen found) (iter : DfsFilesystem Ops) :
    Best path (seen ++ [iter]) (lookAt path found iter) := by
  by_cases htakes : iter.Takes path
  · rw [lookAt_of_takes htakes]
    split_ifs with hshorter
    · -- a shorter path: there is an entry already, and it stays the best
      refine ⟨fun hnone => absurd hshorter ?_, fun fs hfs => ?_⟩
      · rw [(h.none hnone).1]
        exact Nat.not_lt_zero _
      · obtain ⟨hmem, hfs, hlen, hbest⟩ := h.some fs hfs
        refine ⟨mem_append_left _ hmem, hfs, hlen, fun other hother hmatch => ?_⟩
        rcases mem_append.mp hother with hother | hother
        · exact hbest other hother hmatch
        · rw [mem_singleton.mp hother]
          exact hlen ▸ hshorter.le
    · refine ⟨fun hnone => (some_ne_none _ hnone).elim, fun fs hfs => ?_⟩
      obtain rfl := some.inj hfs
      refine ⟨mem_append_right _ mem_cons_self, htakes, rfl, fun other hother hmatch => ?_⟩
      rcases mem_append.mp hother with hother | hother
      · cases hold : found.fs with
        | none => exact absurd hmatch ((h.none hold).2 other hother)
        | some best =>
          obtain ⟨-, -, hlen, hbest⟩ := h.some best hold
          calc other.strlen ≤ best.strlen := hbest other hother hmatch
            _ = found.prefixlen := hlen.symm
            _ ≤ iter.strlen := Nat.le_of_not_lt hshorter
      · rw [mem_singleton.mp hother]
  · rw [lookAt_of_not_takes htakes]
    have hnew : ∀ other ∈ seen ++ [iter], other.Takes path → other ∈ seen := by
      intro other hother hmatch
      rcases mem_append.mp hother with hother | hother
      · exact hother
      · exact absurd (mem_singleton.mp hother ▸ hmatch) htakes
    refine ⟨fun hnone => ⟨(h.none hnone).1, fun fs hfs hmatch => ?_⟩, fun fs hfs => ?_⟩
    · exact (h.none hnone).2 fs (hnew fs hfs hmatch) hmatch
    · obtain ⟨hmem, hfs, hlen, hbest⟩ := h.some fs hfs
      exact ⟨mem_append_left _ hmem, hfs, hlen, fun other hother hmatch =>
        hbest other (hnew other hother hmatch) hmatch⟩

theorem best_foldl (table seen : List (DfsFilesystem Ops)) {found : Found Ops}
    (h : Best path seen found) :
    Best path (seen ++ table) (table.foldl (Dfs.lookAt path) found) := by
  induction table generalizing seen found with
  | nil => exact (append_nil seen).symm ▸ h
  | cons iter rest ih =>
    rw [← singleton_append, ← append_assoc]
    exact ih _ (h.lookAt iter)

/-! ## Normalised paths -/

theorem underMount_append (h : 1 < fspath.length) (more : List UInt8) :
    underMount fspath (fspath ++ more) ↔ ∀ c ∈ more.head?, c = slash := by
  have hprefix : fspath.isPrefixOf (fspath ++ more) :=
    isPrefixOf_iff_prefix.mpr (prefix_append _ _)
  have hnext : (fspath ++ more)[fspath.length]? = more.head? := by
    rw [getElem?_append_right le_rfl, Nat.sub_self, head?_eq_getElem?]
  rw [underMount, decide_eq_true h]
  cases more <;> simp

/-- On normalised paths the two tests say that the one path lies under the other. -/
theorem underMount_render {above : List (List UInt8)} (habove : ∀ n ∈ above, Name slash dot n)
    (hnames : ∀ n ∈ names, Name slash dot n) :
    underMount (render slash above) (render slash names) ↔ above <+: names := by
  cases above with
  | nil =>
    refine iff_of_true ?_ ( nil_prefix ..)
    cases names <;> rfl
  | cons name rest =>
    have hlen : 1 < (render slash (name :: rest)).length := by
      have hne : name ≠ [] := fun hnil => (habove name mem_cons_self).moves (.inl hnil)
      have hpos := length_pos_iff.mpr hne
      rw [render, if_neg (cons_ne_nil _ _), flatMap_cons, length_append, length_cons]
      omega
    rw [prefix_iff_text (fun n hn => (habove n hn).single) fun n hn => (hnames n hn).single]
    by_cases hroot : names = []
    · -- nothing but the root is above the root
      subst hroot
      refine iff_of_false (fun hunder => ?_) fun ⟨more, htext, _⟩ => nomatch htext
      have hprefix := isPrefixOf_iff_prefix.mp (Bool.and_eq_true_iff.mp hunder).1
      exact absurd hprefix.length_le (Nat.not_le_of_lt hlen)
    have htext : ∀ names, names ≠ [] → render slash names = names.flatMap (slash :: ·) :=
      fun _ hne => if_neg hne
    rw [htext names hroot]
    constructor
    · intro hunder
      have hprefix := isPrefixOf_iff_prefix.mp (Bool.and_eq_true_iff.mp hunder).1
      obtain ⟨more, hmore⟩ := hprefix
      exact ⟨more, hmore.symm, (underMount_append hlen more).mp (hmore ▸ hunder)⟩
    · rintro ⟨more, hmore, hsep⟩
      rw [hmore]
      exact (underMount_append hlen more).mpr hsep

/-- The mounts are at normalised absolute paths, and no two at the same. -/
structure Mounts (table : List (DfsFilesystem Ops)) : Prop where
  normal : ∀ fs ∈ table, ∀ fspath, fs.MountedAt fspath →
    ∃ above, (∀ n ∈ above, Name slash dot n) ∧ fspath = render slash above
  single : ∀ fs ∈ table, ∀ other ∈ table, ∀ fspath, fs.MountedAt fspath →
    other.MountedAt fspath → fs = other

/-- The entry is mounted at a path whose components begin the components `names`. -/
def DfsFilesystem.Covers (names : List (List UInt8)) (fs : DfsFilesystem Ops) : Prop :=
  ∃ above, (∀ n ∈ above, Name slash dot n) ∧ above <+: names ∧
    fs.MountedAt (render slash above)

theorem Mounts.takes_iff (h : Mounts table) (hfs : fs ∈ table)
    (hnames : ∀ n ∈ names, Name slash dot n) :
    fs.Takes (render slash names) ↔ fs.Covers names := by
  constructor
  · rintro ⟨fspath, hmounted, hunder⟩
    obtain ⟨above, habove, rfl⟩ := h.normal fs hfs fspath hmounted
    exact ⟨above, habove, (underMount_render habove hnames).mp hunder, hmounted⟩
  · rintro ⟨above, habove, hprefix, hmounted⟩
    exact ⟨_, hmounted, (underMount_render habove hnames).mpr hprefix⟩

theorem Mounts.takes_unique (h : Mounts table) {other : DfsFilesystem Ops} (hfs : fs ∈ table)
    (hother : other ∈ table) (htakes : fs.Takes path) (htakes' : other.Takes path)
    (hlen : fs.strlen = other.strlen) : fs = other := by
  obtain ⟨fspath, hmounted, hunder⟩ := htakes
  obtain ⟨fspath', hmounted', hunder'⟩ := htakes'
  have hprefix := isPrefixOf_iff_prefix.mp (Bool.and_eq_true_iff.mp hunder).1
  have hprefix' := isPrefixOf_iff_prefix.mp (Bool.and_eq_true_iff.mp hunder').1
  rw [DfsFilesystem.strlen, DfsFilesystem.strlen, hmounted.1, hmounted'.1] at hlen
  have hpath : fspath = fspath' :=
    (prefix_of_prefix_length_le hprefix hprefix' hlen.le).eq_of_length hlen
  exact h.single fs hfs other hother fspath hmounted (hpath ▸ hmounted')

/-- The lookup finds the mount with the longest path above the given one, and nothing
exactly if there is none. -/
theorem dfs_filesystem_lookup_longest (h : Mounts table) (hnames : ∀ n ∈ names, Name slash dot n) :
    (∀ fs, dfsFilesystemLookup table (render slash names) = some fs ↔
      fs ∈ table ∧ fs.Covers names ∧
        ∀ other ∈ table, other.Covers names → other.strlen ≤ fs.strlen) ∧
    (dfsFilesystemLookup table (render slash names) = none ↔
      ∀ fs ∈ table, ¬fs.Covers names) := by
  have hbest : Best (render slash names) table
      (table.foldl (lookAt (render slash names)) ⟨none, 0⟩) :=
    best_foldl table [] ⟨fun _ => ⟨rfl, fun _ hfs => absurd hfs not_mem_nil⟩,
      fun _ hfs => nomatch hfs⟩
  have hcovers := fun fs hfs => @Mounts.takes_iff _ table fs names h hfs hnames
  have hfound : ∀ fs, dfsFilesystemLookup table (render slash names) = some fs →
      fs ∈ table ∧ fs.Covers names ∧
        ∀ other ∈ table, other.Covers names → other.strlen ≤ fs.strlen := by
    intro fs hfs
    obtain ⟨hmem, htakes, -, hlongest⟩ := hbest.some fs hfs
    exact ⟨hmem, (hcovers fs hmem).mp htakes, fun other hother hcover =>
      hlongest other hother ((hcovers other hother).mpr hcover)⟩
  have hnone : dfsFilesystemLookup table (render slash names) = none →
      ∀ fs ∈ table, ¬fs.Covers names := fun hnone fs hfs hcover =>
    (hbest.none hnone).2 fs hfs ((hcovers fs hfs).mpr hcover)
  refine ⟨fun fs => ⟨hfound fs, ?_⟩, hnone, fun hno => ?_⟩
  · rintro ⟨hmem, hcover, hlongest⟩
    cases hresult : dfsFilesystemLookup table (render slash names) with
    | none => exact absurd hcover (hnone hresult fs hmem)
    | some best =>
      obtain ⟨hmem', hcover', hlongest'⟩ := hfound best hresult
      have hlen := le_antisymm (hlongest best hmem' hcover') (hlongest' fs hmem hcover)
      exact congrArg some (h.takes_unique hmem' hmem ((hcovers best hmem').mpr hcover')
        ((hcovers fs hmem).mpr hcover) hlen)
  · cases hresult : dfsFilesystemLookup table (render slash names) with
    | none => rfl
    | some best =>
      obtain ⟨hmem, hcover, -⟩ := hfound best hresult
      exact absurd hcover (hno best hmem)

/-- With `/` and `/mnt` mounted, `/mntx` is a file of the first. -/
theorem dfs_filesystem_lookup_longest_mntx :
    let fs (above : List (List UInt8)) : DfsFilesystem Unit := ⟨some (render slash above), some ()⟩
    (fs []).Covers [ascii "mntx"] ∧
      ∀ other ∈ [fs [], fs [ascii "mnt"]], other.Covers [ascii "mntx"] → other.strlen ≤ 1 := by
  intro fs
  have hname : Name slash dot (ascii "mnt") ∧ Name slash dot (ascii "mntx") :=
    ⟨⟨by decide, by decide, by decide⟩, ⟨by decide, by decide, by decide⟩⟩
  have hmounts : Mounts [fs [], fs [ascii "mnt"]] := by
    refine ⟨?_, ?_⟩
    · simp only [forall_mem_cons]
      refine ⟨fun fspath h => ⟨[], forall_mem_nil _, (some.inj h.1).symm⟩,
        fun fspath h => ⟨_, forall_mem_singleton.mpr hname.1, (some.inj h.1).symm⟩,
        forall_mem_nil _⟩
    · intro a ha b hb fspath hfs hother
      have hpath := hfs.1.trans hother.1.symm
      simp only [mem_cons, not_mem_nil, or_false] at ha hb
      rcases ha with rfl | rfl <;> rcases hb with rfl | rfl
      · rfl
      · exact absurd hpath (by decide)
      · exact absurd hpath (by decide)
      · rfl
  have hlookup := (dfs_filesystem_lookup_longest hmounts (forall_mem_singleton.mpr hname.2)).1
  exact ((hlookup (fs [])).mp (by decide)).2

end Easyio.Dfs
