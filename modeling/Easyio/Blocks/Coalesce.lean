import Easyio.Blocks.Layout
import Mathlib.Algebra.Ring.Nat
import Mathlib.Data.List.Chain

/-!
# Free neighbours

What an allocator does to the list of its blocks.  It keeps free blocks apart
(`Separate`) by joining neighbours that are both free; `coalesce` does this for a whole
list.  Joining changes neither the blocks in use (`inUse_coalesce`) nor where the first
free one starts (`firstFree_coalesce`), and makes no small block
(`mem_placed_of_coalesce`).  When only one block has become free, only its two
neighbours can be joined with it (`coalesce_middle`).
-/

namespace Easyio.Blocks

open Bool List Nat

/-- No two neighbours are both free. -/
def Separate (bs : List Block) : Prop := bs.IsChain fun a b => a.used = true ∨ b.used = true

instance (bs : List Block) : Decidable (Separate bs) := inferInstanceAs (Decidable (bs.IsChain _))

variable (H : ℕ)

/-- A block put in front, joined with the first one if both are free. -/
def join (b : Block) : List Block → List Block
  | [] => [b]
  | c :: cs =>
    if b.used = false ∧ c.used = false then ⟨b.size + H + c.size, false⟩ :: cs else b :: c :: cs

/-- All free neighbours joined. -/
def coalesce (bs : List Block) : List Block := bs.foldr (join H) []

/-- The blocks in use with the addresses of their headers. -/
def inUse (o : ℕ) (bs : List Block) : List (ℕ × Block) := (placed H o bs).filter (·.2.used)

/-- The address of the first free header, or of the end. -/
def firstFree (o : ℕ) : List Block → ℕ
  | [] => o
  | b :: bs => if b.used then firstFree (o + H + b.size) bs else o

/-- The address of a free header, or of the end. -/
def FreeStart (o : ℕ) (bs : List Block) (x : ℕ) : Prop :=
  x = o + extent H bs ∨ ∃ size, (x, ⟨size, false⟩) ∈ placed H o bs

/-- What a request for `size` bytes gets from a free block of `total` bytes: the rest is
only cut off if it has room for a header and `least` bytes. -/
def granted (least size total : ℕ) : ℕ := if size + H + least ≤ total then size else total

/-- A free block after it has been taken. -/
def carve (least size total : ℕ) : List Block :=
  if size + H + least ≤ total then [⟨size, true⟩, ⟨total - size - H, false⟩] else [⟨total, true⟩]

variable {H} {o x d : ℕ} {b c p : Block} {bs pre post : List Block} {r : ℕ × Block}

/-! ## Joining -/

theorem join_eq_cons (b : Block) (bs : List Block) :
    ∃ size cs, join H b bs = ⟨size, b.used⟩ :: cs := by
  cases bs with
  | nil => exact ⟨b.size, [], rfl⟩
  | cons c cs =>
    rw [join]
    split
    · next hfree => exact ⟨b.size + H + c.size, cs, by rw [hfree.1]⟩
    · exact ⟨b.size, c :: cs, rfl⟩

theorem join_of_separate (h : Separate (b :: bs)) : join H b bs = b :: bs := by
  cases bs with
  | nil => rfl
  | cons c cs =>
    have hused := (isChain_cons_cons.mp h).1
    rw [join, if_neg fun hfree => ?_]
    rcases hused with hb | hc
    · exact absurd (hfree.1.symm.trans hb) false_ne_true
    · exact absurd (hfree.2.symm.trans hc) false_ne_true

theorem join_of_free (hb : b.used = false) (hc : c.used = false) :
    join H b (c :: bs) = ⟨b.size + H + c.size, false⟩ :: bs := by
  rw [join, if_pos ⟨hb, hc⟩]

theorem join_of_used (hb : b.used = true) : join H b bs = b :: bs := by
  cases bs with
  | nil => rfl
  | cons c cs => rw [join, if_neg fun hfree => absurd (hfree.1.symm.trans hb) Bool.false_ne_true]

theorem join_of_used_head (hc : c.used = true) : join H b (c :: bs) = b :: c :: bs := by
  rw [join, if_neg fun hfree => absurd (hfree.2.symm.trans hc) Bool.false_ne_true]

theorem separate_join (b : Block) (h : Separate bs) : Separate (join H b bs) := by
  cases bs with
  | nil => exact isChain_singleton b
  | cons c cs =>
    rw [join]
    split
    · next hfree =>
        -- the joined block is followed by what followed the free `c`
        obtain ⟨hhead, htail⟩ := isChain_cons.mp h
        refine isChain_cons.mpr ⟨fun d hd => ?_, htail⟩
        rcases hhead d hd with hc | hd
        · exact absurd (hfree.2.symm.trans hc) false_ne_true
        · exact .inr hd
    · next hnot =>
        refine isChain_cons_cons.mpr ⟨?_, h⟩
        simpa [imp_iff_not_or] using hnot

theorem extent_join (b : Block) (bs : List Block) :
    extent H (join H b bs) = H + b.size + extent H bs := by
  cases bs with
  | nil => rfl
  | cons c cs =>
    rw [join]
    split
    · simp only [extent]
      omega
    · rw [extent]

theorem inUse_cons : inUse H o (b :: bs) =
    (if b.used then [(o, b)] else []) ++ inUse H (o + H + b.size) bs := by
  rw [inUse, placed, filter_cons]
  split <;> rfl

theorem inUse_append :
    inUse H o (pre ++ post) = inUse H o pre ++ inUse H (o + extent H pre) post := by
  rw [inUse, placed_append, filter_append, inUse, inUse]

theorem sum_inUse_le (o : ℕ) (bs : List Block) :
    ((inUse H o bs).map fun r => H + r.2.size).sum ≤ extent H bs := by
  induction bs generalizing o with
  | nil => exact le_refl 0
  | cons b bs ih =>
    have := ih (o + H + b.size)
    rw [inUse_cons, map_append, List.sum_append, extent]
    split
    · exact Nat.add_le_add_left this _
    · rw [map_nil, sum_nil]
      omega

theorem mem_inUse : r ∈ inUse H o bs ↔ r ∈ placed H o bs ∧ r.2.used = true := mem_filter

theorem inUse_join (o : ℕ) (b : Block) (bs : List Block) :
    inUse H o (join H b bs) = inUse H o (b :: bs) := by
  cases bs with
  | nil => rfl
  | cons c cs =>
    rw [join]
    split
    · next hfree =>
        have hplace : o + H + (b.size + H + c.size) = o + H + b.size + H + c.size := by omega
        simp [inUse_cons, hfree.1, hfree.2, hplace]
    · rfl

theorem inUse_append_join (o : ℕ) (pre : List Block) (b : Block) (bs : List Block) :
    inUse H o (pre ++ join H b bs) = inUse H o (pre ++ b :: bs) := by
  rw [inUse_append, inUse_append, inUse_join]

theorem firstFree_join (o : ℕ) (b : Block) (bs : List Block) :
    firstFree H o (join H b bs) = firstFree H o (b :: bs) := by
  cases bs with
  | nil => rfl
  | cons c cs =>
    rw [join]
    split
    · next hfree => simp [firstFree, hfree.1]
    · rfl

theorem mem_placed_of_join (hsmall : r.2.size < H) (hr : r ∈ placed H o (join H b bs)) :
    r ∈ placed H o (b :: bs) := by
  cases bs with
  | nil => exact hr
  | cons c cs =>
    rw [join] at hr
    split at hr
    · rcases mem_cons.mp hr with rfl | hr
      · exact absurd hsmall (by simp only; omega)
      · have hplace : o + H + (b.size + H + c.size) = o + H + b.size + H + c.size := by omega
        rw [hplace] at hr
        exact mem_cons_of_mem _ (mem_cons_of_mem _ hr)
    · exact hr

theorem dvd_size_join (hH : d ∣ H) (h : ∀ c ∈ b :: bs, d ∣ c.size) :
    ∀ c ∈ join H b bs, d ∣ c.size := by
  cases bs with
  | nil => exact h
  | cons c cs =>
    rw [join]
    split
    · intro e he
      rcases mem_cons.mp he with rfl | he
      · exact Nat.dvd_add (Nat.dvd_add (h b mem_cons_self) hH)
          (h c (mem_cons_of_mem _ mem_cons_self))
      · exact h e (mem_cons_of_mem _ (mem_cons_of_mem _ he))
    · exact h

/-! ## A whole list -/

theorem coalesce_cons : coalesce H (b :: bs) = join H b (coalesce H bs) := rfl

theorem separate_coalesce (bs : List Block) : Separate (coalesce H bs) := by
  induction bs with
  | nil => exact List.IsChain.nil
  | cons b bs ih => exact separate_join b ih

theorem inUse_coalesce (o : ℕ) (bs : List Block) : inUse H o (coalesce H bs) = inUse H o bs := by
  induction bs generalizing o with
  | nil => rfl
  | cons b bs ih => rw [coalesce_cons, inUse_join, inUse_cons, inUse_cons, ih]

theorem firstFree_coalesce (o : ℕ) (bs : List Block) :
    firstFree H o (coalesce H bs) = firstFree H o bs := by
  induction bs generalizing o with
  | nil => rfl
  | cons b bs ih => rw [coalesce_cons, firstFree_join, firstFree, firstFree, ih]

theorem mem_placed_of_coalesce (hsmall : r.2.size < H) (hr : r ∈ placed H o (coalesce H bs)) :
    r ∈ placed H o bs := by
  induction bs generalizing o with
  | nil => exact hr
  | cons b bs ih =>
    rcases mem_cons.mp (mem_placed_of_join hsmall hr) with rfl | hr
    · exact mem_cons_self ..
    · exact mem_cons_of_mem _ (ih hr)

theorem dvd_size_coalesce (hH : d ∣ H) (h : ∀ c ∈ bs, d ∣ c.size) :
    ∀ c ∈ coalesce H bs, d ∣ c.size := by
  induction bs with
  | nil => exact h
  | cons b bs ih =>
    refine dvd_size_join hH fun c hc => ?_
    rcases mem_cons.mp hc with rfl | hc
    · exact h _ mem_cons_self
    · exact ih (fun e he => h e (mem_cons_of_mem _ he)) c hc

theorem foldr_join_of_separate (h : Separate (pre ++ post)) :
    pre.foldr (join H) post = pre ++ post := by
  induction pre with
  | nil => rfl
  | cons b pre ih =>
    rw [foldr_cons, ih (isChain_cons.mp h).2]
    exact join_of_separate h

theorem coalesce_of_separate (h : Separate bs) : coalesce H bs = bs := by
  have hnil : Separate (bs ++ []) := by rwa [append_nil]
  rw [coalesce, foldr_join_of_separate hnil, append_nil]

theorem separate_append_cons (hpre : Separate (pre ++ [p])) {size : ℕ}
    (hpost : Separate (⟨size, p.used⟩ :: post)) : Separate (pre ++ ⟨size, p.used⟩ :: post) := by
  refine isChain_split.mpr ⟨?_, hpost⟩
  refine isChain_append.mpr ⟨(isChain_append.mp hpre).1, isChain_singleton _, ?_⟩
  intro x hx y hy
  have hlast := (isChain_append.mp hpre).2.2 x hx p rfl
  obtain rfl : _ = y := Option.some.inj hy
  exact hlast

theorem separate_append_used (hpre : Separate pre) (hb : b.used = true)
    (hpost : Separate (b :: post)) : Separate (pre ++ b :: post) := by
  refine isChain_append.mpr ⟨hpre, hpost, fun x _ y hy => ?_⟩
  obtain rfl : b = y := Option.some.inj hy
  exact .inr hb

/-- When only `b` may be next to a free block, only its neighbours are joined with it. -/
theorem coalesce_middle (hpre : Separate (pre ++ [p])) (hpost : Separate post) :
    coalesce H (pre ++ p :: b :: post) = pre ++ join H p (join H b post) := by
  have htail : coalesce H (p :: b :: post) = join H p (join H b post) := by
    rw [coalesce_cons, coalesce_cons, coalesce_of_separate hpost]
  rw [coalesce, foldr_append]
  change pre.foldr (join H) (coalesce H (p :: b :: post)) = _
  rw [htail]
  apply foldr_join_of_separate
  have hjoined : Separate (join H p (join H b post)) := separate_join p (separate_join b hpost)
  obtain ⟨size, cs, heq⟩ := join_eq_cons (H := H) p (join H b post)
  rw [heq] at hjoined ⊢
  exact separate_append_cons hpre hjoined

/-! ## Taking a block -/

section

variable {least size total : ℕ}

theorem le_granted (hsize : size ≤ total) : size ≤ granted H least size total := by
  unfold granted
  split
  · exact le_refl size
  · exact hsize

theorem carve_eq_cons : ∃ rest, carve H least size total =
    ⟨granted H least size total, true⟩ :: rest ∧
      (rest = [] ∨ ∃ left, least ≤ left ∧ rest = [⟨left, false⟩]) := by
  unfold carve granted
  split
  · exact ⟨_, rfl, .inr ⟨total - size - H, by omega, rfl⟩⟩
  · exact ⟨_, rfl, .inl rfl⟩

theorem extent_carve : extent H (carve H least size total) = H + total := by
  unfold carve
  split
  · simp only [extent]
    omega
  · rfl

theorem inUse_carve (o : ℕ) : inUse H o (carve H least size total) =
    [(o, ⟨granted H least size total, true⟩)] := by
  unfold carve granted
  split <;> rfl

theorem dvd_size_carve (hH : d ∣ H) (hsize : d ∣ size) (htotal : d ∣ total) :
    ∀ c ∈ carve H least size total, d ∣ c.size := by
  unfold carve
  split
  · have hrest : d ∣ total - size - H := dvd_sub (dvd_sub htotal hsize) hH
    simp [hsize, hrest]
  · simp [htotal]

theorem separate_carve (h : Separate (pre ++ ⟨total, false⟩ :: post)) :
    Separate (pre ++ (carve H least size total ++ post)) := by
  have hpre : Separate pre := (isChain_append.mp h).1
  have hpost : Separate (⟨total, false⟩ :: post) := (isChain_split.mp h).2
  obtain ⟨hhead, htail⟩ := isChain_cons.mp hpost
  unfold carve
  split
  · refine separate_append_used hpre rfl (isChain_cons_cons.mpr ⟨.inl rfl, ?_⟩)
    exact isChain_cons.mpr ⟨hhead, htail⟩
  · exact separate_append_used hpre rfl (isChain_cons.mpr ⟨fun _ _ => .inl rfl, htail⟩)

end

/-! ## The first free block -/

theorem firstFree_append_of_used (h : ∀ b ∈ pre, b.used = true) :
    firstFree H o (pre ++ post) = firstFree H (o + extent H pre) post := by
  induction pre generalizing o with
  | nil => rfl
  | cons b pre ih =>
    rw [cons_append, firstFree, if_pos (h b mem_cons_self),
      ih fun c hc => h c (mem_cons_of_mem _ hc), extent, add_assoc o, add_assoc o]

theorem firstFree_append_of_free (h : ∃ b ∈ pre, b.used = false) :
    firstFree H o (pre ++ post) = firstFree H o pre := by
  induction pre generalizing o with
  | nil => exact absurd h.choose_spec.1 not_mem_nil
  | cons b pre ih =>
    rw [cons_append, firstFree, firstFree]
    split
    · next hb =>
        obtain ⟨c, hc, hfree⟩ := h
        rcases mem_cons.mp hc with rfl | hc
        · exact absurd (hfree.symm.trans hb) false_ne_true
        · exact ih ⟨c, hc, hfree⟩
    · rfl

theorem firstFree_append_congr {xs ys : List Block}
    (h : firstFree H (o + extent H pre) xs = firstFree H (o + extent H pre) ys) :
    firstFree H o (pre ++ xs) = firstFree H o (pre ++ ys) := by
  by_cases hused : ∀ b ∈ pre, b.used = true
  · rw [firstFree_append_of_used hused, firstFree_append_of_used hused, h]
  · have hfree : ∃ b ∈ pre, b.used = false := by simpa using hused
    rw [firstFree_append_of_free hfree, firstFree_append_of_free hfree]

theorem firstFree_append_join (o : ℕ) (pre : List Block) (b : Block) (bs : List Block) :
    firstFree H o (pre ++ join H b bs) = firstFree H o (pre ++ b :: bs) :=
  firstFree_append_congr (firstFree_join _ b bs)

theorem freeStart_firstFree (o : ℕ) (bs : List Block) : FreeStart H o bs (firstFree H o bs) := by
  induction bs generalizing o with
  | nil => exact .inl rfl
  | cons b bs ih =>
    rw [firstFree]
    split
    · rcases ih (o + H + b.size) with hend | ⟨size, hmem⟩
      · left
        rw [extent]
        omega
      · exact .inr ⟨size, mem_cons_of_mem _ hmem⟩
    · next hb =>
        rw [not_eq_true] at hb
        exact .inr ⟨b.size, by rw [← hb]; exact mem_cons_self ..⟩

theorem firstFree_le (hr : r ∈ placed H o bs) (hfree : r.2.used = false) :
    firstFree H o bs ≤ r.1 := by
  induction bs generalizing o with
  | nil => cases hr
  | cons b bs ih =>
    rw [firstFree]
    rcases mem_cons.mp hr with rfl | hr
    · rw [if_neg (by rw [hfree]; exact false_ne_true)]
    · split
      · exact ih hr
      · exact le_trans (by omega) (placed_bounds hr).1

theorem le_firstFree (o : ℕ) (bs : List Block) : o ≤ firstFree H o bs := by
  induction bs generalizing o with
  | nil => exact le_refl o
  | cons b bs ih =>
    rw [firstFree]
    split
    · exact le_trans (by omega) (ih (o + H + b.size))
    · exact le_refl o

/-- A free block is the first one, or there is one in front of it. -/
theorem firstFree_middle (o : ℕ) (pre post : List Block) (hH : 0 < H) (hb : b.used = false) :
    (∀ c ∈ pre, c.used = true) ∧ firstFree H o (pre ++ b :: post) = o + extent H pre ∨
      (∃ c ∈ pre, c.used = false) ∧ firstFree H o (pre ++ b :: post) < o + extent H pre := by
  by_cases hused : ∀ c ∈ pre, c.used = true
  · refine .inl ⟨hused, ?_⟩
    rw [firstFree_append_of_used hused, firstFree, if_neg (by rw [hb]; exact false_ne_true)]
  · have hfree : ∃ c ∈ pre, c.used = false := by simpa using hused
    refine .inr ⟨hfree, ?_⟩
    obtain ⟨c, hc, hcfree⟩ := hfree
    obtain ⟨r, hr, rfl⟩ := exists_placed (H := H) (o := o) hc
    rw [firstFree_append_of_free ⟨r.2, hc, hcfree⟩]
    have hle := firstFree_le hr hcfree
    have hbounds := placed_bounds hr
    omega

/-- The first free block when what stands from `b` on becomes `xs`. -/
theorem firstFree_replace (hH : 0 < H) (hb : b.used = false) (xs : List Block) :
    (if o + extent H pre = firstFree H o (pre ++ b :: post) then firstFree H (o + extent H pre) xs
      else firstFree H o (pre ++ b :: post)) = firstFree H o (pre ++ xs) := by
  rcases firstFree_middle o pre post hH hb with ⟨hused, heq⟩ | ⟨hfree, hlt⟩
  · rw [if_pos heq.symm, firstFree_append_of_used hused]
  · rw [if_neg (by omega), firstFree_append_of_free hfree, firstFree_append_of_free hfree]

/-- The first free block after `b` has been freed. -/
theorem firstFree_release (hH : 0 < H) (hb : b.used = true) :
    firstFree H o (pre ++ ⟨b.size, false⟩ :: post) =
      if o + extent H pre < firstFree H o (pre ++ b :: post) then o + extent H pre
      else firstFree H o (pre ++ b :: post) := by
  have hfreed : (⟨b.size, false⟩ : Block).used = false := rfl
  rcases firstFree_middle o pre post hH hfreed with ⟨hused, heq⟩ | ⟨hfree, hlt⟩
  · have hbehind := le_firstFree (H := H) (o + extent H pre + H + b.size) post
    rw [heq, firstFree_append_of_used hused, firstFree, if_pos hb, if_pos (by omega)]
  · rw [firstFree_append_of_free hfree] at hlt ⊢
    rw [firstFree_append_of_free hfree, if_neg (by omega)]

theorem FreeStart.start (hx : FreeStart H o bs x) : Start H o bs x := by
  rcases hx with hend | ⟨size, hmem⟩
  · exact .inl hend
  · exact .inr ⟨_, hmem⟩

theorem FreeStart.append (hx : FreeStart H (o + extent H pre) post x) :
    FreeStart H o (pre ++ post) x := by
  rcases hx with hend | ⟨size, hmem⟩
  · left
    rw [hend, extent_append, add_assoc]
  · refine .inr ⟨size, ?_⟩
    rw [placed_append]
    exact mem_append_right _ hmem

theorem FreeStart.replace (hx : FreeStart H o (pre ++ b :: post) x) (mid : List Block)
    (hne : b.used = true ∨ x ≠ o + extent H pre) (hextent : extent H mid = H + b.size) :
    FreeStart H o (pre ++ (mid ++ post)) x := by
  rcases hx with hend | ⟨size, hmem⟩
  · left
    rw [hend]
    simp only [extent_append, extent]
    omega
  · rw [placed_append, placed, mem_append, mem_cons] at hmem
    refine .inr ⟨size, ?_⟩
    rw [placed_append, placed_append, hextent, ← add_assoc]
    rcases hmem with hpre | hb | hpost
    · exact mem_append_left _ hpre
    · rcases hne with hused | hne
      · obtain rfl : _ = b := congrArg Prod.snd hb
        cases hused
      · exact absurd (congrArg Prod.fst hb) hne
    · exact mem_append_right _ (mem_append_right _ hpost)

/-- A free header stays one when the blocks `b` and `c` are joined, unless it is the one
that disappears. -/
theorem FreeStart.merge (hx : FreeStart H o (pre ++ b :: c :: post) x) :
    FreeStart H o (pre ++ ⟨b.size + H + c.size, false⟩ :: post)
      (if x = o + extent H pre + H + b.size then o + extent H pre else x) := by
  have hplace : o + extent H pre + H + (b.size + H + c.size) =
      o + extent H pre + H + b.size + H + c.size := by omega
  split
  · exact .inr ⟨_, mem_placed_middle⟩
  · next hne =>
      rcases hx with hend | ⟨size, hmem⟩
      · left
        rw [hend]
        simp only [extent_append, extent]
        omega
      · rw [placed_append, placed, placed, mem_append, mem_cons, mem_cons] at hmem
        rcases hmem with hpre | hb | hc | hpost
        · exact .inr ⟨size, by rw [placed_append]; exact mem_append_left _ hpre⟩
        · obtain rfl : x = _ := congrArg Prod.fst hb
          exact .inr ⟨_, mem_placed_middle⟩
        · exact absurd (congrArg Prod.fst hc) hne
        · refine .inr ⟨size, ?_⟩
          rw [placed_append, placed, hplace]
          exact mem_append_right _ (mem_cons_of_mem _ hpost)

end Easyio.Blocks
