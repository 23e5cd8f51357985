import Mathlib.Algebra.Group.Nat.Defs
import Mathlib.Data.List.Basic
import Mathlib.Data.Nat.Basic

/-!
# Memory cut into chained blocks

An allocator cuts its memory into blocks that follow each other without a gap.  Each
starts with a header of `H` bytes that holds the addresses of the next and of the
previous header and whether the block is in use; the data area follows.

`Laid H v p o bs` says that the headers, as `v` reads them at an address, describe the
blocks `bs` one after the other from the address `o` on, where `p` is the address in
the `prev` field of the first.  A layout is cut and joined like a list
(`laid_append`), and it only depends on the headers inside it (`Laid.congr`).  What
the three moves of an allocator do to it, splitting a block, merging two and changing
the mark of one, follows from `Laid.replace`.
-/

namespace Easyio.Blocks

open List Nat

structure Node where
  next : ℕ
  prev : ℕ
  used : Bool

/-- A block, without its place. -/
structure Block where
  size : ℕ
  used : Bool
  deriving DecidableEq

variable (H : ℕ)

/-- The bytes that `bs` take, with their headers. -/
def extent : List Block → ℕ
  | [] => 0
  | b :: bs => H + b.size + extent bs

/-- The blocks with the addresses of their headers, from `o` on. -/
def placed (o : ℕ) : List Block → List (ℕ × Block)
  | [] => []
  | b :: bs => (o, b) :: placed (o + H + b.size) bs

/-- The address of the last header, or `p` if there is none. -/
def lastStart (p o : ℕ) : List Block → ℕ
  | [] => p
  | b :: bs => lastStart o (o + H + b.size) bs

/-- The headers describe the blocks `bs` from the address `o` on. -/
def Laid (v : ℕ → Node) (p o : ℕ) : List Block → Prop
  | [] => True
  | b :: bs => v o = ⟨o + H + b.size, p, b.used⟩ ∧ Laid v o (o + H + b.size) bs

/-- The blocks read off the headers from `o` up to `stop`. -/
def readBlocks (v : ℕ → Node) (stop : ℕ) : ℕ → ℕ → List Block
  | 0, _ => []
  | fuel + 1, o =>
    if o = stop then []
    else ⟨(v o).next - o - H, (v o).used⟩ :: readBlocks v stop fuel (v o).next

variable {H} {v v' : ℕ → Node} {p q o x y : ℕ} {b c d : Block} {bs pre mid mid' post : List Block}
  {r : ℕ × Block} {used : Bool}

/-! ## Places -/

theorem extent_append : extent H (pre ++ post) = extent H pre + extent H post := by
  induction pre with
  | nil => rw [nil_append, extent, zero_add]
  | cons b pre ih => rw [cons_append, extent, extent, ih, ← add_assoc]

theorem extent_concat : extent H (pre ++ [b]) = extent H pre + H + b.size := by
  rw [extent_append, extent, extent, add_zero, add_assoc]

theorem dvd_extent {d : ℕ} (hH : d ∣ H) (h : ∀ b ∈ bs, d ∣ b.size) : d ∣ extent H bs := by
  induction bs with
  | nil => exact Nat.dvd_zero d
  | cons b bs ih =>
    refine Nat.dvd_add (Nat.dvd_add hH (h b mem_cons_self)) (ih fun c hc => ?_)
    exact h c (mem_cons_of_mem _ hc)

theorem placed_append :
    placed H o (pre ++ post) = placed H o pre ++ placed H (o + extent H pre) post := by
  induction pre generalizing o with
  | nil => rfl
  | cons b pre ih =>
    rw [cons_append, placed, ih, placed, extent, cons_append]
    simp only [add_assoc]

theorem lastStart_append : lastStart H p o (pre ++ post) =
    lastStart H (lastStart H p o pre) (o + extent H pre) post := by
  induction pre generalizing p o with
  | nil => rfl
  | cons b pre ih =>
    rw [cons_append, lastStart, ih, lastStart, extent]
    simp only [add_assoc]

theorem mem_placed :
    r ∈ placed H o bs ↔ ∃ pre post, bs = pre ++ r.2 :: post ∧ r.1 = o + extent H pre := by
  constructor
  · induction bs generalizing o with
    | nil => exact fun hr => absurd hr not_mem_nil
    | cons b bs ih =>
      intro hr
      rcases mem_cons.mp hr with rfl | hr
      · exact ⟨[], bs, rfl, rfl⟩
      · obtain ⟨pre, post, rfl, hplace⟩ := ih hr
        refine ⟨b :: pre, post, rfl, ?_⟩
        rw [extent]
        omega
  · rintro ⟨pre, post, rfl, hplace⟩
    rw [placed_append]
    exact mem_append_right _ (hplace ▸ mem_cons_self ..)

theorem mem_placed_middle : (o + extent H pre, b) ∈ placed H o (pre ++ b :: post) :=
  mem_placed.mpr ⟨pre, post, rfl, rfl⟩

theorem mem_placed_zero : (extent H pre, b) ∈ placed H 0 (pre ++ b :: post) :=
  mem_placed.mpr ⟨pre, post, rfl, (zero_add _).symm⟩

theorem mem_placed_zero_next :
    (extent H pre + H + b.size, c) ∈ placed H 0 (pre ++ b :: c :: post) := by
  refine mem_placed.mpr ⟨pre ++ [b], post, by rw [append_assoc, singleton_append], ?_⟩
  simp only [extent_append, extent]
  omega

theorem lastStart_concat : lastStart H p o (pre ++ [b]) = o + extent H pre := by
  rw [lastStart_append, lastStart, lastStart]

theorem mem_of_mem_placed (hr : r ∈ placed H o bs) : r.2 ∈ bs := by
  obtain ⟨pre, post, rfl, -⟩ := mem_placed.mp hr
  exact mem_append_right _ mem_cons_self

theorem exists_placed (hb : b ∈ bs) : ∃ r ∈ placed H o bs, r.2 = b := by
  obtain ⟨pre, post, rfl⟩ := append_of_mem hb
  exact ⟨_, mem_placed_middle, rfl⟩

theorem placed_bounds (hr : r ∈ placed H o bs) :
    o ≤ r.1 ∧ r.1 + H + r.2.size ≤ o + extent H bs := by
  obtain ⟨pre, post, rfl, hplace⟩ := mem_placed.mp hr
  rw [extent_append, extent]
  omega

theorem placed_apart {s : ℕ × Block} (hr : r ∈ placed H o bs) (hs : s ∈ placed H o bs) :
    r = s ∨ r.1 + H + r.2.size ≤ s.1 ∨ s.1 + H + s.2.size ≤ r.1 := by
  induction bs generalizing o with
  | nil => cases hr
  | cons b bs ih =>
    rcases mem_cons.mp hr with rfl | hr <;> rcases mem_cons.mp hs with rfl | hs
    · exact .inl rfl
    · exact .inr (.inl (placed_bounds hs).1)
    · exact .inr (.inr (placed_bounds hr).1)
    · exact ih hr hs

theorem pairwise_placed (o : ℕ) (bs : List Block) :
    (placed H o bs).Pairwise fun r s => r.1 + H + r.2.size ≤ s.1 := by
  induction bs generalizing o with
  | nil => exact .nil
  | cons b bs ih => exact .cons (fun s hs => (placed_bounds hs).1) (ih _)

theorem placed_unique (hH : 0 < H) (hb : (x, b) ∈ placed H o bs) (hc : (x, c) ∈ placed H o bs) :
    b = c := by
  rcases placed_apart hb hc with heq | hlt | hlt
  · exact congrArg Prod.snd heq
  · omega
  · omega

/-- The headers at `x` and at `y` have no byte in common. -/
def Apart (H x y : ℕ) : Prop := x + H ≤ y ∨ y + H ≤ x

/-- A header of the layout, or the one that ends it, is at `x`. -/
def Start (H o : ℕ) (bs : List Block) (x : ℕ) : Prop :=
  x = o + extent H bs ∨ ∃ b, (x, b) ∈ placed H o bs

theorem start_middle : Start H o (pre ++ bs) (o + extent H pre) := by
  cases bs with
  | nil => exact .inl (by rw [append_nil])
  | cons b bs => exact .inr ⟨b, mem_placed_middle⟩

theorem Start.cut (hx : Start H o bs x) : ∃ pre post, bs = pre ++ post ∧ x = o + extent H pre := by
  rcases hx with rfl | ⟨b, hb⟩
  · exact ⟨bs, [], (append_nil bs).symm, rfl⟩
  · obtain ⟨pre, post, rfl, hplace⟩ := mem_placed.mp hb
    exact ⟨pre, b :: post, rfl, hplace⟩

theorem Start.of_placed (hr : r ∈ placed H o bs) : Start H o bs r.1 := .inr ⟨r.2, hr⟩

theorem Start.next (hr : r ∈ placed H o bs) : Start H o bs (r.1 + H + r.2.size) := by
  obtain ⟨pre, post, rfl, hplace⟩ := mem_placed.mp hr
  have hstart : Start H o ((pre ++ [r.2]) ++ post) (o + extent H (pre ++ [r.2])) := start_middle
  rw [append_assoc, singleton_append, extent_append, extent, extent] at hstart
  rw [hplace]
  simpa only [add_assoc, add_zero] using hstart

theorem Start.apart (hx : Start H o bs x) (hy : Start H o bs y) : x = y ∨ Apart H x y := by
  rcases hx with rfl | ⟨b, hb⟩ <;> rcases hy with rfl | ⟨c, hc⟩
  · exact .inl rfl
  · have := placed_bounds hc
    exact .inr (.inr (by omega))
  · have := placed_bounds hb
    exact .inr (.inl (by omega))
  · rcases placed_apart hb hc with heq | hlt | hlt
    · exact .inl (congrArg Prod.fst heq)
    · exact .inr (.inl (by omega))
    · exact .inr (.inr (by omega))

theorem Start.outside (hx : Start H o bs x) (hr : r ∈ placed H o bs) :
    x ≤ r.1 ∨ r.1 + H + r.2.size ≤ x := by
  rcases hx with rfl | ⟨b, hb⟩
  · exact .inr (placed_bounds hr).2
  · rcases placed_apart hb hr with heq | hlt | hlt
    · exact .inl (le_of_eq (congrArg Prod.fst heq))
    · exact .inl (by omega)
    · exact .inr hlt

/-! ## Layouts -/

theorem laid_append : Laid H v p o (pre ++ post) ↔
    Laid H v p o pre ∧ Laid H v (lastStart H p o pre) (o + extent H pre) post := by
  induction pre generalizing p o with
  | nil => simp [Laid, extent, lastStart]
  | cons b pre ih =>
    rw [cons_append, Laid, ih, Laid, lastStart, extent, and_assoc]
    simp only [add_assoc]

theorem Laid.header (h : Laid H v p o (pre ++ b :: post)) :
    v (o + extent H pre) = ⟨o + extent H pre + H + b.size, lastStart H p o pre, b.used⟩ :=
  (laid_append.mp h).2.1

theorem Laid.congr_placed (h : Laid H v p o bs) (hagree : ∀ r ∈ placed H o bs, v' r.1 = v r.1) :
    Laid H v' p o bs := by
  induction bs generalizing p o with
  | nil => trivial
  | cons b bs ih =>
    refine ⟨(hagree (o, b) mem_cons_self).trans h.1, ih h.2 fun r hr => ?_⟩
    exact hagree r (mem_cons_of_mem _ hr)

theorem Laid.congr (h : Laid H v p o bs)
    (hagree : ∀ z, o ≤ z → z + H ≤ o + extent H bs → v' z = v z) : Laid H v' p o bs := by
  refine h.congr_placed fun r hr => ?_
  have hbounds := placed_bounds hr
  exact hagree r.1 hbounds.1 (by omega)

/-- A layout whose first header gets another `prev`. -/
theorem Laid.reprev (h : Laid H v p o bs) (hfirst : bs ≠ [] → v' o = { v o with prev := q })
    (hagree : ∀ z, o + H ≤ z → z + H ≤ o + extent H bs → v' z = v z) : Laid H v' q o bs := by
  cases bs with
  | nil => trivial
  | cons b bs =>
    rw [extent] at hagree
    refine ⟨?_, h.2.congr fun z hlow hhigh => hagree z (by omega) (by omega)⟩
    rw [hfirst (cons_ne_nil b bs), h.1]

/-- Blocks in the middle replaced by others that take the same bytes. -/
theorem Laid.replace (h : Laid H v p o (pre ++ (mid ++ post)))
    (hextent : extent H mid' = extent H mid)
    (hmid : Laid H v' (lastStart H p o pre) (o + extent H pre) mid')
    (hfirst : post ≠ [] → v' (o + extent H pre + extent H mid) =
      { v (o + extent H pre + extent H mid) with
        prev := lastStart H (lastStart H p o pre) (o + extent H pre) mid' })
    (hframe : ∀ z, z + H ≤ o + extent H pre ∨ o + extent H pre + extent H mid + H ≤ z →
      v' z = v z) : Laid H v' p o (pre ++ (mid' ++ post)) := by
  rw [laid_append, laid_append] at h ⊢
  obtain ⟨hpre, -, hpost⟩ := h
  refine ⟨hpre.congr fun z _ hz => hframe z (.inl hz), hmid, ?_⟩
  rw [hextent]
  exact hpost.reprev hfirst fun z hz _ => hframe z (.inr hz)

theorem Laid.split (h : Laid H v p o (pre ++ b :: post)) (hx : x = o + extent H pre)
    (hsize : b.size = c.size + H + d.size) (hy : y = x + H + c.size)
    (hvx : v' x = ⟨y, (v x).prev, c.used⟩) (hvy : v' y = ⟨(v x).next, x, d.used⟩)
    (hnext : post ≠ [] → v' (v x).next = { v (v x).next with prev := y })
    (hframe : ∀ z, Apart H z x → Apart H z y → Apart H z (v x).next → v' z = v z) :
    Laid H v' p o (pre ++ c :: d :: post) := by
  have hheader := h.header
  rw [← hx] at hheader
  have hend : (v x).next = o + extent H pre + extent H [b] := by
    rw [hheader, extent, extent, hx, add_zero, add_assoc]
  have hafter : (v x).next = y + H + d.size := by rw [hheader]; simp only; omega
  have hcut : Laid H v p o (pre ++ ([b] ++ post)) := h
  have hlast : lastStart H (lastStart H p o pre) (o + extent H pre) [c, d] = y := by
    rw [lastStart, lastStart, lastStart, ← hx, hy]
  change Laid H v' p o (pre ++ ([c, d] ++ post))
  refine hcut.replace ?_ ?_ ?_ ?_
  · simp only [extent]
    omega
  · rw [Laid, Laid, ← hx, ← hy, hvx, hvy, hheader]
    refine ⟨rfl, ?_, trivial⟩
    simp only [Node.mk.injEq, and_true]
    omega
  · rw [hlast, ← hend]
    exact hnext
  · rw [← hend]
    rintro z (hlow | hhigh)
    · exact hframe z (.inl (by omega)) (.inl (by omega)) (.inl (by omega))
    · exact hframe z (.inr (by omega)) (.inr (by omega)) (.inr hhigh)

theorem Laid.merge (h : Laid H v p o (pre ++ b :: c :: post)) (hx : x = o + extent H pre)
    (hy : y = x + H + b.size) (hvx : v' x = ⟨(v y).next, (v x).prev, used⟩)
    (hnext : post ≠ [] → v' (v y).next = { v (v y).next with prev := x })
    (hframe : ∀ z, Apart H z x → Apart H z (v y).next → v' z = v z) :
    Laid H v' p o (pre ++ ⟨b.size + H + c.size, used⟩ :: post) := by
  have hcut : Laid H v p o (pre ++ ([b, c] ++ post)) := h
  obtain ⟨hb, hc, -⟩ := (laid_append.mp h).2
  rw [← hx] at hb hc
  rw [← hy] at hc
  have hend : (v y).next = o + extent H pre + extent H [b, c] := by
    rw [hc]
    simp only [extent]
    omega
  have hlast : lastStart H (lastStart H p o pre) (o + extent H pre)
      [⟨b.size + H + c.size, used⟩] = x := by
    rw [lastStart, lastStart, ← hx]
  change Laid H v' p o (pre ++ ([⟨b.size + H + c.size, used⟩] ++ post))
  refine hcut.replace ?_ ?_ ?_ ?_
  · simp only [extent]
    omega
  · rw [Laid, ← hx, hvx, hb, hc]
    refine ⟨?_, trivial⟩
    simp only [Node.mk.injEq, and_true]
    omega
  · rw [hlast, ← hend]
    exact hnext
  · rw [← hend]
    have hafter : (v y).next = y + H + c.size := by rw [hc]
    rintro z (hlow | hhigh)
    · exact hframe z (.inl (by omega)) (.inl (by omega))
    · exact hframe z (.inr (by omega)) (.inr hhigh)

theorem Laid.mark (h : Laid H v p o (pre ++ b :: post)) (hx : x = o + extent H pre)
    (hvx : v' x = { v x with used := used }) (hframe : ∀ z, Apart H z x → v' z = v z) :
    Laid H v' p o (pre ++ ⟨b.size, used⟩ :: post) := by
  have hheader := h.header
  rw [← hx] at hheader
  obtain ⟨hpre, -, hpost⟩ := laid_append.mp h
  refine laid_append.mpr ⟨hpre.congr fun z hlow hhigh => hframe z (.inl (by omega)), ?_, ?_⟩
  · rw [← hx, hvx, hheader]
  · exact hpost.congr fun z hlow hhigh => hframe z (.inr (by omega))

theorem readBlocks_eq (h : Laid H v p o bs) {stop fuel : ℕ} (hstop : o + extent H bs = stop)
    (hfuel : bs.length ≤ fuel) (hH : 0 < H) : readBlocks H v stop fuel o = bs := by
  induction bs generalizing p o fuel with
  | nil =>
    cases fuel with
    | zero => rfl
    | succ fuel =>
      rw [extent, add_zero] at hstop
      rw [readBlocks, if_pos hstop]
  | cons b bs ih =>
    obtain ⟨fuel, rfl⟩ : ∃ n, fuel = n + 1 := ⟨fuel - 1, by
      rw [length_cons] at hfuel
      omega⟩
    rw [extent] at hstop
    rw [readBlocks, if_neg (by omega), h.1]
    simp only
    rw [ih h.2 (by omega) (by simpa using hfuel)]
    congr 2
    omega

theorem length_le_extent (hH : 0 < H) (bs : List Block) : bs.length ≤ extent H bs := by
  induction bs with
  | nil => exact zero_le _
  | cons b bs ih =>
    rw [length_cons, extent]
    omega

end Easyio.Blocks
