import Easyio.Blocks.Coalesce
import Easyio.Kernel.Heap

/-!
# The headers of the kernel heap

What the writes of `mem.c` do to the headers, in terms of the list of blocks they
describe.  `Tiled h bs` says that the blocks `bs` fill the heap up to `heap_end`.
Splitting a block and merging two keep this (`Tiled.split`, `Tiled.merge`), so
`plug_holes` turns a list with one new free block into the coalesced list
(`Tiled.plugHoles`).  The two loops of `rt_malloc` walk the list: `search_eq` and
`nextFree_eq` say what they find.

The headers are bytes between the data, so every write is also a question about the
data next to it: `Keeps used h h'` says that the blocks `used` keep their contents.
-/

namespace Easyio.Kernel.Heap

open Blocks Bool Bytes List Nat Nor

variable {h h' h'' : Heap} {ptr z left right next x size n fuel : ℕ} {f : HeapMem → HeapMem}
  {b c p : Block} {bs bs' bs'' pre post : List Block} {used : List (ℕ × Block)} {r : ℕ × Block}
  {m : HeapMem}

/-! ## Single headers -/

theorem fits_mem (h : Heap) (ptr : ℕ) : heapMemCodec.Fits (h.mem ptr) := fits_load

theorem fits_withNext (hm : heapMemCodec.Fits m) (hnext : next < 2 ^ 32) :
    heapMemCodec.Fits { m with next := next } := ⟨hm.1, hm.2.1, hnext, hm.2.2.2⟩

theorem fits_withPrev (hm : heapMemCodec.Fits m) (hprev : x < 2 ^ 32) :
    heapMemCodec.Fits { m with prev := x } := ⟨hm.1, hm.2.1, hm.2.2.1, hprev⟩

/-- The fields stay in range. -/
abbrev KeepsFits (f : HeapMem → HeapMem) : Prop :=
  ∀ m, heapMemCodec.Fits m → heapMemCodec.Fits (f m)

theorem fits_withMagic : KeepsFits ({ · with magic := heapMagic }) :=
  fun _ hm => ⟨by simp [heapMagic], hm.2.1, hm.2.2.1, hm.2.2.2⟩

@[simp] theorem heapEnd_modify : (h.modify ptr f).heapEnd = h.heapEnd := rfl

theorem mem_congr (hram : h'.ram = h.ram) : h'.mem z = h.mem z := by rw [mem, mem, hram]

theorem mem_setLfree : ({ h with lfree := x } : Heap).mem z = h.mem z := mem_congr rfl

theorem mem_modify_self (hf : KeepsFits f) :
    (h.modify ptr f).mem ptr = f (h.mem ptr) := load_store (hf _ (fits_mem _ _))

theorem mem_modify_of_apart (hz : Apart 12 z ptr) : (h.modify ptr f).mem z = h.mem z := by
  refine (Changes.store h.ram ptr (f (h.mem ptr))).load fun w hw => ?_
  rw [mem_singleton.mp hw]
  exact hz

theorem mem_modify (hf : KeepsFits f) (hz : z = ptr ∨ Apart 12 z ptr) :
    (h.modify ptr f).mem z = if z = ptr then f (h.mem ptr) else h.mem z := by
  rcases hz with rfl | hapart
  · rw [if_pos rfl, mem_modify_self hf]
  · rw [if_neg (by rcases hapart with hlt | hlt <;> omega), mem_modify_of_apart hapart]

theorem ram_modify (hz : z < ptr ∨ ptr + 12 ≤ z) : (h.modify ptr f).ram z = h.ram z := by
  have hchanges : Changes heapMemCodec.size [ptr] h.ram
      (store heapMemCodec h.ram ptr (f (h.mem ptr))) := Changes.store _ _ _
  refine hchanges z fun w hw => ?_
  rw [mem_singleton.mp hw]
  exact hz

/-! ## What a call leaves alone -/

/-- The blocks `used` keep their `magic` and their data. -/
structure Keeps (used : List (ℕ × Block)) (h h' : Heap) : Prop where
  heapPtr : h'.heapPtr = h.heapPtr
  memSizeAligned : h'.memSizeAligned = h.memSizeAligned
  magic : ∀ r ∈ used, (h'.mem r.1).magic = (h.mem r.1).magic
  data : ∀ r ∈ used, ∀ i, r.1 + 12 ≤ i → i < r.1 + 12 + r.2.size → h'.ram i = h.ram i

namespace Keeps

theorem refl (used : List (ℕ × Block)) (h : Heap) : Keeps used h h :=
  ⟨rfl, rfl, fun _ _ => rfl, fun _ _ _ _ _ => rfl⟩

theorem trans (h₁ : Keeps used h h') (h₂ : Keeps used h' h'') : Keeps used h h'' where
  heapPtr := h₂.heapPtr.trans h₁.heapPtr
  memSizeAligned := h₂.memSizeAligned.trans h₁.memSizeAligned
  magic r hr := (h₂.magic r hr).trans (h₁.magic r hr)
  data r hr i hlow hhigh := (h₂.data r hr i hlow hhigh).trans (h₁.data r hr i hlow hhigh)

theorem mono {used' : List (ℕ × Block)} (hk : Keeps used h h') (hsub : used' ⊆ used) :
    Keeps used' h h' where
  heapPtr := hk.heapPtr
  memSizeAligned := hk.memSizeAligned
  magic r hr := hk.magic r (hsub hr)
  data r hr := hk.data r (hsub hr)

theorem heapEnd (hk : Keeps used h h') : h'.heapEnd = h.heapEnd := by
  rw [Heap.heapEnd, Heap.heapEnd, hk.memSizeAligned]

theorem of_ram (hptr : h'.heapPtr = h.heapPtr) (hsize : h'.memSizeAligned = h.memSizeAligned)
    (hram : h'.ram = h.ram) : Keeps used h h' :=
  ⟨hptr, hsize, fun _ _ => by rw [mem_congr hram], fun _ _ i _ _ => by rw [hram]⟩

/-- A header of the layout may be written, as long as a block in use keeps its `magic`. -/
theorem modify (hstart : Start 12 0 bs ptr) (hf : KeepsFits f)
    (hmagic : (∃ b, (ptr, b) ∈ inUse 12 0 bs) → (f (h.mem ptr)).magic = (h.mem ptr).magic) :
    Keeps (inUse 12 0 bs) h (h.modify ptr f) where
  heapPtr := rfl
  memSizeAligned := rfl
  magic r hr := by
    rw [mem_modify hf ((Start.of_placed (mem_inUse.mp hr).1).apart hstart)]
    split
    · next heq =>
        subst heq
        exact hmagic ⟨r.2, hr⟩
    · rfl
  data r hr i hlow hhigh := by
    apply ram_modify
    rcases hstart.outside (mem_inUse.mp hr).1 with hle | hge
    · exact .inr (by omega)
    · exact .inl (by omega)

end Keeps

/-! ## The layout -/

/-- The blocks `bs` fill the heap. -/
structure Tiled (h : Heap) (bs : List Block) : Prop where
  laid : Laid 12 h.node 0 0 bs
  extent_eq : extent 12 bs = h.heapEnd
  end_used : (h.mem h.heapEnd).used ≠ 0
  end_next : (h.mem h.heapEnd).next = h.heapEnd
  bound : h.heapPtr + h.heapEnd + 12 < 2 ^ 32

namespace Tiled

theorem bounds (ht : Tiled h bs) (hb : (x, b) ∈ placed 12 0 bs) :
    x + 12 + b.size ≤ h.heapEnd ∧ h.heapEnd < 2 ^ 32 := by
  have hle := (placed_bounds hb).2
  rw [ht.extent_eq, zero_add] at hle
  have := ht.bound
  exact ⟨hle, by omega⟩

theorem start_end (ht : Tiled h bs) : Start 12 0 bs h.heapEnd :=
  .inl (by rw [ht.extent_eq, zero_add])

theorem node_eq (ht : Tiled h (pre ++ b :: post)) : h.node (extent 12 pre) =
    ⟨extent 12 pre + 12 + b.size, lastStart 12 0 0 pre, b.used⟩ := by
  simpa only [zero_add] using ht.laid.header

theorem mem_next (ht : Tiled h bs) (hb : (x, b) ∈ placed 12 0 bs) :
    (h.mem x).next = x + 12 + b.size := by
  obtain ⟨pre, post, rfl, rfl⟩ := mem_placed.mp hb
  simp only [zero_add]
  exact congrArg Node.next ht.node_eq

theorem mem_used (ht : Tiled h bs) (hb : (x, b) ∈ placed 12 0 bs) :
    (h.mem x).used = 0 ↔ b.used = false := by
  obtain ⟨pre, post, rfl, rfl⟩ := mem_placed.mp hb
  have hused : decide ((h.mem (extent 12 pre)).used ≠ 0) = b.used := congrArg Node.used ht.node_eq
  rw [← hused]
  simp

theorem mem_prev (ht : Tiled h (pre ++ b :: post)) :
    (h.mem (extent 12 pre)).prev = lastStart 12 0 0 pre :=
  congrArg Node.prev ht.node_eq

theorem blocks_eq (ht : Tiled h bs) : h.blocks = bs := by
  refine readBlocks_eq ht.laid ?_ ?_ (by decide)
  · rw [ht.extent_eq, zero_add]
  · rw [← ht.extent_eq]
    exact length_le_extent (by decide) bs

theorem congr (ht : Tiled h bs) (hmem : ∀ z, Start 12 0 bs z → h'.mem z = h.mem z)
    (hptr : h'.heapPtr = h.heapPtr) (hsize : h'.memSizeAligned = h.memSizeAligned) :
    Tiled h' bs := by
  have hend : h'.heapEnd = h.heapEnd := by rw [heapEnd, heapEnd, hsize]
  refine ⟨?_, ?_, ?_, ?_, ?_⟩
  · refine ht.laid.congr_placed fun r hr => ?_
    rw [node, node, hmem r.1 (.of_placed hr)]
  · rw [ht.extent_eq, hend]
  · rw [hend, hmem _ ht.start_end]
    exact ht.end_used
  · rw [hend, hmem _ ht.start_end]
    exact ht.end_next
  · rw [hptr, hend]
    exact ht.bound

end Tiled

/-! ## Merging two blocks -/

@[simp] theorem heapEnd_merge : (h.merge left right).heapEnd = h.heapEnd := rfl

@[simp] theorem lfree_merge :
    (h.merge left right).lfree = if h.lfree = right then left else h.lfree := rfl

theorem merge_eq (hapart : Apart 12 right left) (hnext : (h.mem right).next = next) :
    h.merge left right =
      ((({ h with lfree := if h.lfree = right then left else h.lfree } : Heap).modify left
        ({ · with next := next })).modify next ({ · with prev := left })) := by
  let moved : Heap := { h with lfree := if h.lfree = right then left else h.lfree }
  have hread : ((moved.modify left ({ · with next := (moved.mem right).next })).mem right).next =
      next := by
    rw [mem_modify ?_ (.inr hapart), if_neg (by rcases hapart with hlt | hlt <;> omega)]
    · exact hnext
    · exact fun m hm => fits_withNext hm (h.fits_mem right).2.2.1
  unfold merge
  simp only
  rw [hread]
  change ((moved.modify left ({ · with next := (h.mem right).next })).modify next _) = _
  rw [hnext]

theorem mem_merge (hlr : Apart 12 right left) (hln : Apart 12 next left)
    (hnext : (h.mem right).next = next) (hbound : left < 2 ^ 32)
    (hzl : z = left ∨ Apart 12 z left) (hzn : z = next ∨ Apart 12 z next) :
    (h.merge left right).mem z =
      if z = left then { h.mem left with next := next }
      else if z = next then { h.mem next with prev := left }
      else h.mem z := by
  have hnextFits : KeepsFits ({ · with next := next }) :=
    fun m hm => fits_withNext hm (hnext ▸ (h.fits_mem right).2.2.1)
  have hne : next ≠ left := by rcases hln with hlt | hlt <;> omega
  rw [merge_eq hlr hnext, mem_modify (fun m hm => fits_withPrev hm hbound) hzn,
    mem_modify hnextFits (.inr hln), mem_modify hnextFits hzl, if_neg hne]
  by_cases hz : z = next
  · have hzl : ¬z = left := fun heq => hne (hz.symm.trans heq)
    rw [if_pos hz, if_neg hzl, if_pos hz]
    rfl
  · rw [if_neg hz, if_neg hz]
    rfl

/-- The bookkeeping of an operation that joins free blocks. -/
structure Tidied (h : Heap) (bs : List Block) (h' : Heap) (bs' : List Block) : Prop where
  tiled : Tiled h' bs'
  keeps : Keeps (inUse 12 0 bs) h h'
  inUse_eq : inUse 12 0 bs' = inUse 12 0 bs
  usedMem : h'.usedMem = h.usedMem
  freeStart : FreeStart 12 0 bs h.lfree → FreeStart 12 0 bs' h'.lfree
  lowest : h.lfree = firstFree 12 0 bs → h'.lfree = firstFree 12 0 bs'

theorem Tidied.refl (ht : Tiled h bs) : Tidied h bs h bs := ⟨ht, .refl _ h, rfl, rfl, id, id⟩

theorem Tidied.trans (h₁ : Tidied h bs h' bs') (h₂ : Tidied h' bs' h'' bs'') :
    Tidied h bs h'' bs'' where
  tiled := h₂.tiled
  keeps := h₁.keeps.trans (h₁.inUse_eq ▸ h₂.keeps)
  inUse_eq := h₂.inUse_eq.trans h₁.inUse_eq
  usedMem := h₂.usedMem.trans h₁.usedMem
  freeStart hstart := h₂.freeStart (h₁.freeStart hstart)
  lowest hlow := h₂.lowest (h₁.lowest hlow)

theorem Tiled.merge (ht : Tiled h (pre ++ b :: c :: post)) (hb : b.used = false)
    (hc : c.used = false) :
    Tidied h (pre ++ b :: c :: post) (h.merge (extent 12 pre) (extent 12 pre + 12 + b.size))
      (pre ++ join 12 b (c :: post)) := by
  -- the three headers that the operation reads or writes
  have hleft : (extent 12 pre, b) ∈ placed 12 0 (pre ++ b :: c :: post) := mem_placed_zero
  have hright : (extent 12 pre + 12 + b.size, c) ∈ placed 12 0 (pre ++ b :: c :: post) :=
    mem_placed_zero_next
  have hstart := Start.next hright
  have hnext := ht.mem_next hright
  generalize hl : extent 12 pre = left at hleft hright hstart hnext ⊢
  generalize hr : left + 12 + b.size = right at hright hstart hnext ⊢
  generalize hn : right + 12 + c.size = next at hstart hnext
  have hbound : left < 2 ^ 32 := by
    have := ht.bounds hleft
    omega
  have hmem : ∀ z, (z = left ∨ Apart 12 z left) → (z = next ∨ Apart 12 z next) →
      (h.merge left right).mem z =
        if z = left then { h.mem left with next := next }
        else if z = next then { h.mem next with prev := left }
        else h.mem z := fun z =>
    mem_merge (.inr (by omega)) (.inr (by omega)) hnext hbound
  have hend := hmem h.heapEnd (ht.start_end.apart (.of_placed hleft)) (ht.start_end.apart hstart)
  have hne : h.heapEnd ≠ left := by
    have := ht.bounds hleft
    omega
  rw [if_neg hne] at hend
  refine ⟨⟨?_, ?_, ?_, ?_, ht.bound⟩, ?_, ?_, rfl, ?_, ?_⟩
  · have hvy : (h.node right).next = next := hnext
    rw [join_of_free hb hc]
    refine ht.laid.merge (hl ▸ (zero_add _).symm) hr.symm ?_ ?_ ?_
    · rw [node, hmem left (.inl rfl) (.inr (.inl (by omega))), hvy, node]
      have hused := (ht.mem_used hleft).mpr hb
      simp [hused]
    · intro _
      rw [hvy, node, hmem next (.inr (.inr (by omega))) (.inl rfl), if_neg (by omega), if_pos rfl,
        node]
    · intro z hzl hzn
      rw [hvy] at hzn
      rw [node, node, hmem z (.inr hzl) (.inr hzn), if_neg (by rcases hzl with hz | hz <;> omega),
        if_neg (by rcases hzn with hz | hz <;> omega)]
  · rw [heapEnd_merge, ← ht.extent_eq]
    rw [extent_append, extent_join, extent_append]
    rfl
  · rw [heapEnd_merge, hend]
    split
    · next heq => exact heq ▸ ht.end_used
    · exact ht.end_used
  · rw [heapEnd_merge, hend]
    split
    · next heq => exact heq ▸ ht.end_next
    · exact ht.end_next
  · let moved : Heap := { h with lfree := if h.lfree = right then left else h.lfree }
    have hkept : Keeps (inUse 12 0 (pre ++ b :: c :: post)) h moved := .of_ram rfl rfl rfl
    rw [merge_eq (.inr (by omega)) hnext]
    refine (hkept.trans (.modify (.of_placed hleft) ?_ fun _ => rfl)).trans
      (.modify hstart ?_ fun _ => rfl)
    · exact fun m hm => fits_withNext hm (hnext ▸ (h.fits_mem right).2.2.1)
    · exact fun m hm => fits_withPrev hm hbound
  · exact inUse_append_join 0 pre b (c :: post)
  · intro hfree
    have hmoved := hfree.merge
    rw [zero_add, hl, hr] at hmoved
    rw [join_of_free hb hc]
    exact hmoved
  · intro hlow
    have hle := firstFree_le hleft hb
    rw [lfree_merge, if_neg (by rw [hlow]; simp only at hle; omega), hlow]
    exact (firstFree_append_join 0 pre b (c :: post)).symm

/-! ## Plugging holes -/

theorem Tiled.plugForward (ht : Tiled h (pre ++ b :: post)) (hb : b.used = false) :
    Tidied h (pre ++ b :: post) (h.plugForward (extent 12 pre)) (pre ++ join 12 b post) := by
  have hnext : (h.mem (extent 12 pre)).next = extent 12 pre + 12 + b.size :=
    ht.mem_next mem_placed_zero
  unfold Heap.plugForward
  simp only [hnext]
  cases post with
  | nil =>
    -- the last block is followed by the end of the heap
    have hend : extent 12 pre + 12 + b.size = h.heapEnd := by
      rw [← ht.extent_eq, extent_append, extent, extent]
      omega
    rw [if_neg fun hcond => hcond.2.2 hend]
    exact .refl ht
  | cons c cs =>
    have hright : (extent 12 pre + 12 + b.size, c) ∈ placed 12 0 (pre ++ b :: c :: cs) :=
      mem_placed_zero_next
    have hused : (h.mem (extent 12 pre + 12 + b.size)).used = 0 ↔ c.used = false :=
      ht.mem_used hright
    cases hc : c.used with
    | false =>
      have hbounds := ht.bounds hright
      rw [if_pos ⟨by omega, hused.mpr hc, by omega⟩]
      exact ht.merge hb hc
    | true =>
      rw [if_neg fun hcond => absurd ((hused.mp hcond.2.1).symm.trans hc) false_ne_true,
        join_of_used_head hc]
      exact .refl ht

section

variable (ht : Tiled h (pre ++ p :: b :: post))
include ht

theorem Tiled.mem_prev_next : (h.mem (extent 12 pre + 12 + p.size)).prev = extent 12 pre := by
  have hcut : Tiled h ((pre ++ [p]) ++ b :: post) := by
    rwa [append_assoc]
  have hlast := hcut.mem_prev
  rwa [lastStart_concat, zero_add, extent_concat] at hlast

theorem Tiled.plugBackward_of_used (hp : p.used = true) :
    h.plugBackward (extent 12 pre + 12 + p.size) = h := by
  have hused : (h.mem (extent 12 pre)).used = 0 ↔ p.used = false := ht.mem_used mem_placed_zero
  unfold Heap.plugBackward
  simp only [ht.mem_prev_next]
  rw [if_neg fun hcond => absurd ((hused.mp hcond.2).symm.trans hp) false_ne_true]

theorem Tiled.plugBackward (hb : b.used = false) :
    Tidied h (pre ++ p :: b :: post) (h.plugBackward (extent 12 pre + 12 + p.size))
      (pre ++ join 12 p (b :: post)) := by
  cases hp : p.used with
  | false =>
    have hused : (h.mem (extent 12 pre)).used = 0 := (ht.mem_used mem_placed_zero).mpr hp
    unfold Heap.plugBackward
    simp only [ht.mem_prev_next]
    rw [if_pos ⟨by omega, hused⟩]
    exact ht.merge hp hb
  | true =>
    rw [ht.plugBackward_of_used hp, join_of_used hp]
    exact .refl ht

end

theorem Tiled.plugBackward_first (ht : Tiled h (b :: post)) : h.plugBackward 0 = h := by
  have hcut : Tiled h ([] ++ b :: post) := ht
  have hprev : (h.mem 0).prev = 0 := hcut.mem_prev
  unfold Heap.plugBackward
  simp only [hprev]
  rw [if_neg fun hcond => hcond.1 rfl]

/-- `plug_holes` coalesces: only the block it is called for can have free neighbours. -/
theorem Tiled.plugHoles (ht : Tiled h (pre ++ b :: post)) (hb : b.used = false)
    (hpre : Separate pre) (hpost : Separate post) :
    ∃ h', h.plugHoles (extent 12 pre) = some h' ∧
      h' = (h.plugForward (extent 12 pre)).plugBackward (extent 12 pre) ∧
      Tidied h (pre ++ b :: post) h' (coalesce 12 (pre ++ b :: post)) := by
  have hbounds : extent 12 pre + 12 + b.size ≤ h.heapEnd :=
    (ht.bounds mem_placed_zero).1
  have hused : (h.mem (extent 12 pre)).used = 0 := (ht.mem_used mem_placed_zero).mpr hb
  refine ⟨_, if_pos ⟨by omega, hused⟩, rfl, ?_⟩
  have hforward := ht.plugForward hb
  obtain ⟨size, cs, hjoin⟩ := join_eq_cons (H := 12) b post
  rcases eq_nil_or_concat' pre with rfl | ⟨pre, p, rfl⟩
  · have hresult : coalesce 12 (b :: post) = join 12 b post := by
      rw [coalesce_cons, coalesce_of_separate hpost]
    have hsame : (h.plugForward 0).plugBackward 0 = h.plugForward 0 := by
      have htiled := hforward.tiled
      rw [hjoin] at htiled
      exact htiled.plugBackward_first
    change Tidied h (b :: post) ((h.plugForward 0).plugBackward 0) (coalesce 12 (b :: post))
    rw [hsame, hresult]
    exact hforward
  · have hresult := coalesce_middle (H := 12) (b := b) hpre hpost
    rw [append_assoc, singleton_append, extent_concat] at hforward ⊢
    rw [hresult]
    have hbackward : Tidied (h.plugForward (extent 12 pre + 12 + p.size))
        (pre ++ p :: join 12 b post)
        ((h.plugForward (extent 12 pre + 12 + p.size)).plugBackward (extent 12 pre + 12 + p.size))
        (pre ++ join 12 p (join 12 b post)) := by
      have htiled := hforward.tiled
      rw [append_assoc, hjoin] at htiled
      rw [hjoin]
      exact htiled.plugBackward hb
    rw [append_assoc] at hforward
    exact hforward.trans hbackward

theorem Tiled.lfree_plugHoles (ht : Tiled h (pre ++ p :: b :: post)) (hp : p.used = true)
    (hb : b.used = false) (hfree : FreeStart 12 0 (pre ++ p :: b :: post) h.lfree) :
    ((h.plugForward (extent 12 pre + 12 + p.size)).plugBackward
      (extent 12 pre + 12 + p.size)).lfree =
      if h.lfree = extent 12 pre + 12 + p.size + 12 + b.size ∧ h.lfree ≠ h.heapEnd then
        extent 12 pre + 12 + p.size
      else h.lfree := by
  have hcut : Tiled h ((pre ++ [p]) ++ b :: post) := by
    rwa [append_assoc]
  have hforward := (hcut.plugForward hb).tiled
  obtain ⟨size, cs, hjoin⟩ := join_eq_cons (H := 12) b post
  rw [append_assoc, hjoin, extent_concat] at hforward
  rw [hforward.plugBackward_of_used hp]
  have hnext := ht.mem_next mem_placed_zero_next
  unfold Heap.plugForward
  simp only [hnext]
  by_cases hlfree : h.lfree = extent 12 pre + 12 + p.size + 12 + b.size ∧ h.lfree ≠ h.heapEnd
  · -- what `lfree` points to is free
    obtain ⟨heq, hend⟩ := hlfree
    have hused : (h.mem h.lfree).used = 0 := by
      rcases hfree with hlast | ⟨size, hmem⟩
      · rw [ht.extent_eq, zero_add] at hlast
        exact absurd hlast hend
      · exact (ht.mem_used hmem).mpr rfl
    rw [if_pos ⟨by omega, heq ▸ hused, heq ▸ hend⟩, lfree_merge, if_pos heq, if_pos ⟨heq, hend⟩]
  · split
    · next hcond =>
        rw [lfree_merge, if_neg fun heq => hlfree ⟨heq, heq ▸ hcond.2.2⟩]
    · rfl

/-! ## Splitting a block -/

@[simp] theorem heapEnd_split : (h.split ptr x f).heapEnd = h.heapEnd := by
  unfold split
  simp only
  split <;> rfl

@[simp] theorem lfree_split : (h.split ptr x f).lfree = h.lfree := by
  unfold split
  simp only
  split <;> rfl

@[simp] theorem usedMem_split : (h.split ptr x f).usedMem = h.usedMem := by
  unfold split
  simp only
  split <;> rfl

section

variable (hnext : (h.mem ptr).next = next) (hpx : ptr + 12 ≤ x) (hxn : x + 12 ≤ next)
  (hbound : x < 2 ^ 32) (hf : KeepsFits f)

include hnext

theorem split_eq : h.split ptr x f =
    if next ≠ h.heapEnd then
      ((h.modify x fun m => { f m with used := 0, next := next, prev := ptr }).modify ptr
        ({ · with next := x })).modify next ({ · with prev := x })
    else
      (h.modify x fun m => { f m with used := 0, next := next, prev := ptr }).modify ptr
        ({ · with next := x }) := by
  unfold split
  simp only [hnext]
  rfl

include hpx hxn hbound

theorem mem_split_self : (h.split ptr x f).mem ptr = { h.mem ptr with next := x } := by
  have hself : ((h.modify x fun m => { f m with used := 0, next := next, prev := ptr }).modify ptr
      ({ · with next := x })).mem ptr = { h.mem ptr with next := x } := by
    rw [mem_modify_self fun m hm => fits_withNext hm hbound, mem_modify_of_apart (.inl hpx)]
  rw [split_eq hnext]
  split
  · rw [mem_modify_of_apart (.inl (by omega)), hself]
  · exact hself

include hf

omit hxn in
theorem fits_rest : KeepsFits fun m => { f m with used := 0, next := next, prev := ptr } :=
  fun m hm => ⟨(hf m hm).1, Nat.two_pow_pos 16, hnext ▸ (h.fits_mem ptr).2.2.1,
    lt_of_le_of_lt (le_of_add_right_le hpx) hbound⟩

theorem mem_split_new : (h.split ptr x f).mem x =
    { f (h.mem x) with used := 0, next := next, prev := ptr } := by
  have hfits := fits_rest hnext hpx hbound hf
  rw [split_eq hnext]
  split
  · rw [mem_modify_of_apart (.inl hxn), mem_modify_of_apart (.inr hpx), mem_modify_self hfits]
  · rw [mem_modify_of_apart (.inr hpx), mem_modify_self hfits]

omit hf

theorem mem_split_next (hend : next ≠ h.heapEnd) :
    (h.split ptr x f).mem next = { h.mem next with prev := x } := by
  rw [split_eq hnext, if_pos hend, mem_modify_self fun m hm => fits_withPrev hm hbound,
    mem_modify_of_apart (.inr (by omega)), mem_modify_of_apart (.inr hxn)]

omit hpx hxn hbound

theorem mem_split_of_apart (hzp : Apart 12 z ptr) (hzx : Apart 12 z x)
    (hzn : Apart 12 z next ∨ next = h.heapEnd) : (h.split ptr x f).mem z = h.mem z := by
  rw [split_eq hnext]
  split
  · next hend =>
      rcases hzn with hzn | heq
      · rw [mem_modify_of_apart hzn, mem_modify_of_apart hzp, mem_modify_of_apart hzx]
      · exact absurd heq hend
  · rw [mem_modify_of_apart hzp, mem_modify_of_apart hzx]

end

/-- The block `b` cut behind its first `size` bytes; the rest is free. -/
theorem Tiled.split (ht : Tiled h (pre ++ b :: post)) (hsize : size + 12 ≤ b.size)
    (hf : KeepsFits f) :
    Tiled (h.split (extent 12 pre) (extent 12 pre + 12 + size) f)
        (pre ++ ⟨size, b.used⟩ :: ⟨b.size - size - 12, false⟩ :: post) ∧
      Keeps (inUse 12 0 (pre ++ ⟨size, b.used⟩ :: ⟨b.size - size - 12, false⟩ :: post)) h
        (h.split (extent 12 pre) (extent 12 pre + 12 + size) f) := by
  have hplace : (extent 12 pre, b) ∈ placed 12 0 (pre ++ b :: post) := mem_placed_zero
  have hbounds := ht.bounds hplace
  have hnext := ht.mem_next hplace
  have hused := ht.mem_used hplace
  have hbehind := ht.start_end.apart (Start.next hplace)
  -- the places of the two parts in the new layout
  have hself : (extent 12 pre, ⟨size, b.used⟩) ∈
      placed 12 0 (pre ++ ⟨size, b.used⟩ :: ⟨b.size - size - 12, false⟩ :: post) := mem_placed_zero
  have hnew : (extent 12 pre + 12 + size, ⟨b.size - size - 12, false⟩) ∈
      placed 12 0 (pre ++ ⟨size, b.used⟩ :: ⟨b.size - size - 12, false⟩ :: post) :=
    mem_placed_zero_next
  have hstart := Start.next hnew
  generalize hp : extent 12 pre = ptr at hplace hbounds hnext hused hbehind hself hnew hstart ⊢
  generalize hx : ptr + 12 + size = x at hnew hstart ⊢
  have hcut : x + 12 + (b.size - size - 12) = ptr + 12 + b.size := by omega
  simp only [hcut] at hstart
  generalize hn : ptr + 12 + b.size = next at hbounds hnext hbehind hstart hcut
  have hbound : x < 2 ^ 32 := by omega
  have hxn : x + 12 ≤ next := by omega
  have hpx : ptr + 12 ≤ x := by omega
  have hend : (h.split ptr x f).mem h.heapEnd = h.mem h.heapEnd := by
    refine mem_split_of_apart hnext (.inr (by omega)) (.inr (by omega)) ?_
    exact hbehind.symm.imp_right Eq.symm
  refine ⟨⟨?_, ?_, ?_, ?_, ?_⟩, ?_⟩
  · have hvp : (h.node ptr).next = next := hnext
    refine ht.laid.split (hp ▸ (zero_add _).symm) (by simp only; omega) hx.symm ?_ ?_ ?_ ?_
    · rw [node, mem_split_self hnext hpx hxn hbound, node]
      cases hb : b.used with
      | false => simpa using hused.mpr hb
      | true => simpa [hb] using hused
    · rw [node, mem_split_new hnext hpx hxn hbound hf, node]
      simp [hnext]
    · intro hpost
      obtain ⟨c, cs, rfl⟩ := exists_cons_of_ne_nil hpost
      have hafter : (extent 12 pre + 12 + b.size, c) ∈ placed 12 0 (pre ++ b :: c :: cs) :=
        mem_placed_zero_next
      have := ht.bounds hafter
      rw [hvp, node, mem_split_next hnext hpx hxn hbound (by omega), node]
    · intro z hzp hzx hzn
      rw [hvp] at hzn
      rw [node, node, mem_split_of_apart hnext hzp hzx (.inl hzn)]
  · rw [heapEnd_split, ← ht.extent_eq]
    simp only [extent_append, extent]
    omega
  · rw [heapEnd_split, hend]
    exact ht.end_used
  · rw [heapEnd_split, hend]
    exact ht.end_next
  · rw [heapEnd_split]
    have hptr : (h.split ptr x f).heapPtr = h.heapPtr := by
      rw [split_eq hnext]
      split <;> rfl
    rw [hptr]
    exact ht.bound
  · have hfits := fits_rest hnext hpx hbound hf
    have hfree : ¬∃ c, (x, c) ∈
        inUse 12 0 (pre ++ ⟨size, b.used⟩ :: ⟨b.size - size - 12, false⟩ :: post) := by
      rintro ⟨c, hc⟩
      obtain ⟨hc, hcused⟩ := mem_inUse.mp hc
      rw [placed_unique (by decide) hc hnew] at hcused
      exact false_ne_true hcused
    have hkept := (Keeps.modify (h := h) (.of_placed hnew) hfits fun hex => absurd hex hfree).trans
      (.modify (.of_placed hself) (fun m hm => fits_withNext hm hbound) fun _ => rfl)
    rw [split_eq hnext]
    split
    · exact hkept.trans (.modify hstart (fun m hm => fits_withPrev hm hbound) fun _ => rfl)
    · exact hkept

/-! ## Marking a block -/

theorem Tiled.mark {u : Bool} (ht : Tiled h (pre ++ b :: post)) (hf : KeepsFits f)
    (hlinks : ∀ m, (f m).next = m.next ∧ (f m).prev = m.prev)
    (hused : decide ((f (h.mem (extent 12 pre))).used ≠ 0) = u) :
    Tiled (h.modify (extent 12 pre) f) (pre ++ ⟨b.size, u⟩ :: post) := by
  have hplace : (extent 12 pre, b) ∈ placed 12 0 (pre ++ b :: post) := mem_placed_zero
  have hbounds := ht.bounds hplace
  have hend : (h.modify (extent 12 pre) f).mem h.heapEnd = h.mem h.heapEnd :=
    mem_modify_of_apart (.inr (by omega))
  refine ⟨?_, ?_, ?_, ?_, ht.bound⟩
  · refine ht.laid.mark (zero_add _).symm ?_ fun z hz => ?_
    · rw [node, mem_modify_self hf, (hlinks _).1, (hlinks _).2, hused]
      rfl
    · rw [node, node, mem_modify_of_apart hz]
  · rw [heapEnd_modify, ← ht.extent_eq]
    simp only [extent_append, extent]
  · rw [heapEnd_modify, hend]
    exact ht.end_used
  · rw [heapEnd_modify, hend]
    exact ht.end_next

theorem Keeps.modify_free (hb : b.used = false) (hf : KeepsFits f) :
    Keeps (inUse 12 0 (pre ++ b :: post)) h (h.modify (extent 12 pre) f) := by
  refine .modify (.of_placed mem_placed_zero) hf ?_
  rintro ⟨c, hc⟩
  obtain ⟨hc, hused⟩ := mem_inUse.mp hc
  rw [placed_unique (by decide) hc mem_placed_zero, hb] at hused
  cases hused

theorem Tiled.claim {s : ℕ} (ht : Tiled h (pre ++ ⟨s, false⟩ :: post)) (n : ℕ) :
    Tiled (h.claim (extent 12 pre) n) (pre ++ ⟨s, true⟩ :: post) ∧
      Keeps (inUse 12 0 (pre ++ ⟨s, false⟩ :: post)) h (h.claim (extent 12 pre) n) ∧
      ((h.claim (extent 12 pre) n).mem (extent 12 pre)).magic = heapMagic := by
  have hfitsUsed : KeepsFits ({ · with used := 1 }) :=
    fun m hm => ⟨hm.1, by simp, hm.2.2.1, hm.2.2.2⟩
  have hmarked : Tiled (h.modify (extent 12 pre) ({ · with used := 1 }))
      (pre ++ ⟨s, true⟩ :: post) := ht.mark hfitsUsed (fun _ => ⟨rfl, rfl⟩) rfl
  have hcounted : Tiled ((h.modify (extent 12 pre) ({ · with used := 1 })).account n)
      (pre ++ ⟨s, true⟩ :: post) := hmarked.congr (fun _ _ => rfl) rfl rfl
  refine ⟨?_, ?_, ?_⟩
  · refine hcounted.mark fits_withMagic (fun _ => ⟨rfl, rfl⟩) ?_
    have hused := hcounted.mem_used (mem_placed_zero)
    simpa using hused
  · have hkept : Keeps (inUse 12 0 (pre ++ ⟨s, false⟩ :: post)) h
        ((h.modify (extent 12 pre) ({ · with used := 1 })).account n) :=
      (Keeps.modify_free rfl hfitsUsed).trans (.of_ram rfl rfl rfl)
    exact hkept.trans (.modify_free rfl fits_withMagic)
  · rw [Heap.claim, mem_modify_self fits_withMagic]

/-! ## The loops -/

/-- A block that the loop of `rt_malloc` takes for `size` bytes. -/
def fits (h : Heap) (size : ℕ) (r : ℕ × Block) : Bool :=
  h.lfree ≤ r.1 ∧ r.1 + size < h.memSizeAligned ∧ r.2.used = false ∧ size ≤ r.2.size

theorem Tiled.room_eq (ht : Tiled h bs) (hb : (x, b) ∈ placed 12 0 bs) :
    sub32 (h.mem x).next (x + 12) = b.size := by
  have hbounds := ht.bounds hb
  rw [ht.mem_next hb, sub32_of_le (by omega) (by omega)]
  omega

theorem Tiled.total_eq (ht : Tiled h bs) (hb : (x, b) ∈ placed 12 0 bs) :
    sub32 (h.mem x).next x = 12 + b.size := by
  have hbounds := ht.bounds hb
  rw [ht.mem_next hb, sub32_of_le (by omega) (by omega)]
  omega

/-- The loop from the header behind `pre` on. -/
theorem Tiled.search_from (ht : Tiled h (pre ++ post)) (hsize : size ≤ h.memSizeAligned)
    (hlow : h.lfree ≤ extent 12 pre) (hfuel : post.length < fuel) :
    h.search size fuel (extent 12 pre) =
      some (((placed 12 (extent 12 pre) post).find? (h.fits size)).map Prod.fst) := by
  have hlimit : sub32 h.memSizeAligned size = h.memSizeAligned - size := by
    have := ht.bound
    rw [heapEnd] at this
    exact sub32_of_le (by omega) hsize
  induction post generalizing pre fuel with
  | nil =>
    have hend : extent 12 pre = h.memSizeAligned + 12 := by
      have := ht.extent_eq
      rwa [append_nil] at this
    obtain ⟨fuel, rfl⟩ : ∃ k, fuel = k + 1 := ⟨fuel - 1, by omega⟩
    rw [search, if_neg (by omega)]
    rfl
  | cons b post ih =>
    obtain ⟨fuel, rfl⟩ : ∃ k, fuel = k + 1 := ⟨fuel - 1, by omega⟩
    have hplace : (extent 12 pre, b) ∈ placed 12 0 (pre ++ b :: post) := mem_placed_zero
    have hused := ht.mem_used hplace
    rw [search, ht.room_eq hplace]
    split
    · next hlt =>
        rw [placed]
        split
        · next hfit =>
            rw [find?_cons_of_pos]
            · rfl
            · simpa [fits, hused.mp hfit.1] using by omega
        · next hmiss =>
            -- the next header stands behind `pre ++ [b]`
            have hnext : (h.mem (extent 12 pre)).next = extent 12 (pre ++ [b]) := by
              rw [ht.mem_next hplace, extent_concat]
            have hcut : Tiled h ((pre ++ [b]) ++ post) := by
              rwa [append_assoc]
            rw [find?_cons_of_neg, hnext, ih hcut]
            · rw [extent_concat]
            · rw [extent_concat]
              omega
            · simpa using hfuel
            · intro hfit
              simp only [fits, decide_eq_true_eq] at hfit
              exact hmiss ⟨hused.mpr hfit.2.2.1, hfit.2.2.2⟩
    · next hge =>
        have hnone : (placed 12 (extent 12 pre) (b :: post)).find? (h.fits size) = none := by
          refine find?_eq_none.mpr fun r hr hfit => ?_
          simp only [fits, decide_eq_true_eq] at hfit
          have := (placed_bounds hr).1
          omega
        rw [hnone]
        rfl

/-- The loop finds the first block that fits. -/
theorem Tiled.search_eq (ht : Tiled h bs) (hsize : size ≤ h.memSizeAligned)
    (hstart : Start 12 0 bs h.lfree) :
    h.search size (h.heapEnd + 1) h.lfree =
      some (((placed 12 0 bs).find? (h.fits size)).map Prod.fst) := by
  obtain ⟨pre, post, rfl, hplace⟩ := hstart.cut
  rw [zero_add] at hplace
  have hlength := length_le_extent (H := 12) (by decide) (pre ++ post)
  rw [ht.extent_eq, length_append] at hlength
  rw [hplace, ht.search_from hsize (le_of_eq hplace) (by omega), placed_append,
    find?_append, zero_add]
  have hbefore : (placed 12 0 pre).find? (h.fits size) = none := by
    refine find?_eq_none.mpr fun r hr hfit => ?_
    simp only [fits, decide_eq_true_eq] at hfit
    have := (placed_bounds hr).2
    omega
  rw [hbefore, Option.none_or]

/-- When the smallest block does not fit, the bound of the loop wraps and it does not end. -/
theorem Tiled.search_tiny (ht : Tiled h bs) (hsmall : h.memSizeAligned < size)
    (hsize : size ≤ 12) (hstart : Start 12 0 bs ptr) (fuel : ℕ) :
    h.search size fuel ptr = none := by
  induction fuel generalizing ptr with
  | zero => rfl
  | succ fuel ih =>
    have hwrap : ptr < sub32 h.memSizeAligned size := by
      have hle : ptr ≤ h.memSizeAligned + 12 := by
        rcases hstart with hend | ⟨b, hb⟩
        · rw [hend, ht.extent_eq, heapEnd]
          omega
        · have := ht.bounds hb
          rw [heapEnd] at this
          omega
      unfold sub32
      omega
    rw [search, if_pos hwrap]
    rcases hstart with hend | ⟨b, hb⟩
    · rw [ht.extent_eq, zero_add] at hend
      rw [hend, if_neg fun hcond => ht.end_used hcond.1, ht.end_next]
      exact ih ht.start_end
    · have hbounds := ht.bounds hb
      rw [heapEnd] at hbounds
      rw [ht.room_eq hb, if_neg fun hcond => absurd hcond.2 (by omega), ht.mem_next hb]
      exact ih (Start.next hb)

theorem Tiled.nextFree_eq (ht : Tiled h (pre ++ post)) (hfuel : post.length < fuel) :
    h.nextFree fuel (extent 12 pre) = some (firstFree 12 (extent 12 pre) post) := by
  induction post generalizing pre fuel with
  | nil =>
    have hend : extent 12 pre = h.heapEnd := by
      have := ht.extent_eq
      rwa [append_nil] at this
    obtain ⟨fuel, rfl⟩ : ∃ k, fuel = k + 1 := ⟨fuel - 1, by omega⟩
    rw [nextFree, if_neg fun hcond => hcond.2 hend, firstFree]
  | cons b post ih =>
    obtain ⟨fuel, rfl⟩ : ∃ k, fuel = k + 1 := ⟨fuel - 1, by omega⟩
    have hplace : (extent 12 pre, b) ∈ placed 12 0 (pre ++ b :: post) := mem_placed_zero
    have hused := ht.mem_used hplace
    have hbounds := ht.bounds hplace
    rw [nextFree, firstFree]
    cases hb : b.used with
    | false =>
      rw [if_neg fun hcond => hcond.1 (hused.mpr hb)]
      rfl
    | true =>
      have hnot : (h.mem (extent 12 pre)).used ≠ 0 := fun hzero =>
        absurd ((hused.mp hzero).symm.trans hb) false_ne_true
      have hcut : Tiled h ((pre ++ [b]) ++ post) := by
        rwa [append_assoc]
      have hfuel : post.length < fuel := by simpa using hfuel
      rw [if_pos ⟨hnot, by omega⟩, ht.mem_next hplace, ← extent_concat]
      exact ih hcut hfuel

end Easyio.Kernel.Heap
