import Easyio.Kernel.HeapLayout
import Mathlib.Data.List.Perm.Basic

/-!
# The calls of the kernel heap

What `rt_malloc`, `rt_free` and `rt_realloc` do to a sound heap.  `Sound h bs` is the
invariant: the blocks `bs` fill the heap, free ones are apart, all are aligned, and
`used_mem` and `lfree` agree with the blocks.  Each call takes a sound heap to a sound
heap and says which blocks are in use afterwards:

* `Sound.rtMalloc_serves`: a block more, at least as large as the request;
* `Sound.rtFree`: the block freed is gone;
* `Sound.cut`: the block in two, the first part in use (for `rt_realloc`).

The other blocks keep their contents (`Keeps`), and no call makes a block smaller than
`MIN_SIZE` except a cut to less (`NoNewSmall`).
-/

namespace Easyio.Kernel.Heap

open Blocks Bytes List Nat Nor

variable {h h' : Heap} {ptr n size total x : ℕ} {b : Block} {bs bs' bs'' pre post : List Block}
  {r : ℕ × Block}

/-- The address of the data behind the header at `ptr`. -/
def addr (h : Heap) (ptr : ℕ) : ℕ := h.heapPtr + ptr + 12

/-- The bytes that the blocks in use take. -/
def usedBytes (bs : List Block) : ℕ := ((inUse 12 0 bs).map fun r => 12 + r.2.size).sum

/-- The invariant of the heap, without the separation of the free blocks. -/
structure Loose (h : Heap) (bs : List Block) : Prop where
  tiled : Tiled h bs
  heapPtr_aligned : 4 ∣ h.heapPtr
  size_aligned : ∀ b ∈ bs, 4 ∣ b.size
  magic : ∀ r ∈ inUse 12 0 bs, (h.mem r.1).magic = heapMagic
  inside : ∀ r ∈ inUse 12 0 bs, r.1 + 12 < h.heapEnd
  usedMem : h.usedMem = usedBytes bs
  freeStart : FreeStart 12 0 bs h.lfree

structure Sound (h : Heap) (bs : List Block) : Prop extends Loose h bs where
  separate : Separate bs

/-- `lfree` is the first free block. -/
def Lowest (h : Heap) (bs : List Block) : Prop := h.lfree = firstFree 12 0 bs

/-- A small block has been there before. -/
def NoNewSmall (bs bs' : List Block) : Prop :=
  ∀ x b, (x, b) ∈ placed 12 0 bs' → b.size < 12 → ∃ c, (x, c) ∈ placed 12 0 bs ∧ c.size = b.size

/-- Some blocks of a heap have been replaced and the others kept. -/
theorem Loose.replaced (hl : Loose h bs) (ht : Tiled h' bs') (hkept : Keeps (inUse 12 0 bs') h h')
    (haligned : ∀ b ∈ bs', 4 ∣ b.size)
    (hstill : ∀ r ∈ inUse 12 0 bs', ∃ c, (r.1, c) ∈ inUse 12 0 bs)
    (husedMem : h'.usedMem = usedBytes bs') (hfree : FreeStart 12 0 bs' h'.lfree) :
    Loose h' bs' := by
  refine ⟨ht, hkept.heapPtr ▸ hl.heapPtr_aligned, haligned, ?_, ?_, husedMem, hfree⟩
  · intro r hr
    obtain ⟨c, hc⟩ := hstill r hr
    exact (hkept.magic r hr).trans (hl.magic (r.1, c) hc)
  · intro r hr
    obtain ⟨c, hc⟩ := hstill r hr
    rw [hkept.heapEnd]
    exact hl.inside (r.1, c) hc

theorem aligned_replace (mid : List Block) (h : ∀ c ∈ pre ++ b :: post, 4 ∣ c.size)
    (hmid : ∀ c ∈ mid, 4 ∣ c.size) : ∀ c ∈ pre ++ (mid ++ post), 4 ∣ c.size := by
  simp only [forall_mem_append, forall_mem_cons] at h ⊢
  exact ⟨h.1, hmid, h.2.2⟩

theorem NoNewSmall.refl (bs : List Block) : NoNewSmall bs bs := fun _ b hb _ => ⟨b, hb, rfl⟩

theorem NoNewSmall.trans (h₁ : NoNewSmall bs bs') (h₂ : NoNewSmall bs' bs'') :
    NoNewSmall bs bs'' := by
  intro x b hb hsmall
  obtain ⟨c, hc, hsize⟩ := h₂ x b hb hsmall
  obtain ⟨d, hd, hsize'⟩ := h₁ x c hc (by omega)
  exact ⟨d, hd, hsize'.trans hsize⟩

theorem NoNewSmall.replace (mid : List Block) (hextent : extent 12 mid = 12 + b.size)
    (hmid : ∀ x c, (x, c) ∈ placed 12 (extent 12 pre) mid → c.size < 12 →
      x = extent 12 pre ∧ c.size = b.size) :
    NoNewSmall (pre ++ b :: post) (pre ++ (mid ++ post)) := by
  intro x c hc hsmall
  rw [placed_append, placed_append, hextent, mem_append, mem_append, zero_add] at hc
  rcases hc with hc | hc | hc
  · refine ⟨c, ?_, rfl⟩
    rw [placed_append]
    exact mem_append_left _ hc
  · obtain ⟨rfl, hsize⟩ := hmid x c hc hsmall
    exact ⟨b, mem_placed_zero, hsize.symm⟩
  · refine ⟨c, ?_, rfl⟩
    rw [placed_append, zero_add]
    rw [← add_assoc] at hc
    exact mem_append_right _ (mem_cons_of_mem _ hc)

theorem noNewSmall_coalesce (bs : List Block) : NoNewSmall bs (coalesce 12 bs) :=
  fun _ b hb hsmall => ⟨b, mem_placed_of_coalesce hsmall hb, rfl⟩

namespace Sound

theorem place_aligned (hs : Sound h bs) (hr : r ∈ placed 12 0 bs) : 4 ∣ r.1 := by
  obtain ⟨pre, post, rfl, hplace⟩ := mem_placed.mp hr
  rw [hplace, zero_add]
  exact dvd_extent (by decide) fun b hb => hs.size_aligned b (mem_append_left _ hb)

theorem sub32_addr (hs : Sound h bs) (hb : (ptr, b) ∈ placed 12 0 bs) :
    sub32 (h.addr ptr) (h.heapPtr + 12) = ptr := by
  have hbound := hs.tiled.bound
  have hbounds := hs.tiled.bounds hb
  rw [addr, sub32_of_le (by omega) (by omega)]
  omega

theorem usable_eq (hs : Sound h bs) (hb : (ptr, b) ∈ placed 12 0 bs) :
    h.usable (h.addr ptr) = b.size := by
  have hbounds := hs.tiled.bounds hb
  rw [usable, hs.sub32_addr hb, hs.tiled.total_eq hb, sub32_of_le (by omega) (by omega)]
  omega

end Sound

/-! ## Taking a block -/

theorem perm_inUse_carve : (inUse 12 0 (pre ++ (carve 12 12 size total ++ post))).Perm
    ((extent 12 pre, ⟨granted 12 12 size total, true⟩) ::
      inUse 12 0 (pre ++ ⟨total, false⟩ :: post)) := by
  rw [inUse_append, inUse_append, inUse_carve, inUse_append, extent_carve, zero_add, ←
    add_assoc]
  exact perm_middle

theorem usedBytes_carve : usedBytes (pre ++ (carve 12 12 size total ++ post)) =
    usedBytes (pre ++ ⟨total, false⟩ :: post) + (12 + granted 12 12 size total) := by
  unfold usedBytes
  rw [(perm_inUse_carve.map _).sum_nat, map_cons, sum_cons, add_comm]

theorem inUse_cut (hsize : size + 12 ≤ total) :
    inUse 12 0 (pre ++ ⟨size, false⟩ :: ⟨total - size - 12, false⟩ :: post) =
      inUse 12 0 (pre ++ ⟨total, false⟩ :: post) := by
  have hplace : extent 12 pre + 12 + size + 12 + (total - size - 12) =
      extent 12 pre + 12 + total := by omega
  simp [inUse_append, inUse_cons, hplace]

theorem usedMem_claim : (h.claim ptr n).usedMem = h.usedMem + n := rfl

theorem Tiled.occupy (ht : Tiled h (pre ++ ⟨total, false⟩ :: post)) (size : ℕ) :
    Tiled (h.occupy (extent 12 pre) size) (pre ++ (carve 12 12 size total ++ post)) ∧
      Keeps (inUse 12 0 (pre ++ ⟨total, false⟩ :: post)) h (h.occupy (extent 12 pre) size) ∧
      ((h.occupy (extent 12 pre) size).mem (extent 12 pre)).magic = heapMagic ∧
      (h.occupy (extent 12 pre) size).usedMem =
        h.usedMem + (12 + granted 12 12 size total) ∧
      (h.occupy (extent 12 pre) size).lfree = h.lfree := by
  have hplace : (extent 12 pre, ⟨total, false⟩) ∈ placed 12 0 (pre ++ ⟨total, false⟩ :: post) :=
    mem_placed_zero
  unfold Heap.occupy carve granted
  simp only [ht.room_eq hplace, ht.total_eq hplace]
  split
  · next hroom =>
      obtain ⟨hcut, hkept⟩ := ht.split (f := id) (le_of_add_right_le hroom) fun _ hm => hm
      simp only [inUse_cut (le_of_add_right_le hroom)] at hkept
      obtain ⟨htiled, hclaimed, hmagic⟩ := hcut.claim (size + 12)
      rw [inUse_cut (le_of_add_right_le hroom)] at hclaimed
      refine ⟨htiled, hkept.trans hclaimed, hmagic, ?_, ?_⟩
      · rw [usedMem_claim, usedMem_split, add_comm size]
      · exact lfree_split
  · obtain ⟨htiled, hkept, hmagic⟩ := ht.claim (12 + total)
    exact ⟨htiled, hkept, hmagic, rfl, rfl⟩

/-- Where `lfree` points after the block behind `pre` has been taken. -/
theorem Tiled.advance_eq (ht : Tiled h (pre ++ post)) :
    h.advance (extent 12 pre) = some { h with
      lfree :=
        if extent 12 pre = h.lfree then firstFree 12 (extent 12 pre) post else h.lfree } := by
  unfold advance
  split
  · have hlength := length_le_extent (H := 12) (by decide) (pre ++ post)
    rw [ht.extent_eq, length_append] at hlength
    rw [ht.nextFree_eq (by omega)]
    rfl
  · rfl

namespace Sound

/-- The heap after the block behind `pre` has been marked is sound, once `lfree` has been
moved on. -/
theorem advance {g : Heap} (hs : Sound h (pre ++ ⟨total, false⟩ :: post))
    (ht : Tiled g (pre ++ (carve 12 12 size total ++ post))) (hsize : size ≤ total)
    (hmin : 12 ≤ size) (halign : 4 ∣ size)
    (hkept : Keeps (inUse 12 0 (pre ++ ⟨total, false⟩ :: post)) h g)
    (hmagic : (g.mem (extent 12 pre)).magic = heapMagic)
    (husedMem : g.usedMem = h.usedMem + (12 + granted 12 12 size total))
    (hlfree : g.lfree = h.lfree) :
    ∃ h', g.advance (extent 12 pre) = some h' ∧
      Sound h' (pre ++ (carve 12 12 size total ++ post)) ∧
      Keeps (inUse 12 0 (pre ++ ⟨total, false⟩ :: post)) h h' ∧
      (Lowest h (pre ++ ⟨total, false⟩ :: post) →
        Lowest h' (pre ++ (carve 12 12 size total ++ post))) := by
  have hplace : (extent 12 pre, ⟨total, false⟩) ∈ placed 12 0 (pre ++ ⟨total, false⟩ :: post) :=
    mem_placed_zero
  have hbounds : extent 12 pre + 12 + total ≤ h.heapEnd := (hs.tiled.bounds hplace).1
  have htaken : ∀ r ∈ inUse 12 0 (pre ++ (carve 12 12 size total ++ post)),
      r = (extent 12 pre, ⟨granted 12 12 size total, true⟩) ∨
        r ∈ inUse 12 0 (pre ++ ⟨total, false⟩ :: post) := fun r hr =>
    mem_cons.mp (perm_inUse_carve.mem_iff.mp hr)
  refine ⟨_, ht.advance_eq, ⟨⟨?_, ?_, ?_, ?_, ?_, ?_, ?_⟩, separate_carve hs.separate⟩, ?_, ?_⟩
  · exact ht.congr (fun _ _ => mem_setLfree) rfl rfl
  · exact hkept.heapPtr ▸ hs.heapPtr_aligned
  · refine aligned_replace _ hs.size_aligned (dvd_size_carve (by decide) halign ?_)
    exact hs.size_aligned ⟨total, false⟩ (mem_append_right _ mem_cons_self)
  · intro r hr
    rcases htaken r hr with rfl | hr
    · exact hmagic
    · exact (hkept.magic r hr).trans (hs.magic r hr)
  · intro r hr
    change r.1 + 12 < g.heapEnd
    rw [hkept.heapEnd]
    rcases htaken r hr with rfl | hr
    · omega
    · exact hs.inside r hr
  · rw [usedBytes_carve, ← hs.usedMem]
    exact husedMem
  · rw [hlfree]
    split
    · have hfirst := freeStart_firstFree (H := 12) (0 + extent 12 pre)
        (carve 12 12 size total ++ post)
      rw [zero_add] at hfirst
      exact FreeStart.append (by rwa [zero_add])
    · next hne =>
      exact hs.freeStart.replace _ (.inr fun heq => hne (by rw [heq, zero_add])) extent_carve
  · exact hkept.trans (.of_ram rfl rfl rfl)
  · intro hlow
    have hfirst : (if 0 + extent 12 pre = firstFree 12 0 (pre ++ ⟨total, false⟩ :: post) then
        firstFree 12 (0 + extent 12 pre) (carve 12 12 size total ++ post)
        else firstFree 12 0 (pre ++ ⟨total, false⟩ :: post)) =
        firstFree 12 0 (pre ++ (carve 12 12 size total ++ post)) :=
      firstFree_replace (by decide) rfl _
    rw [zero_add, ← hlow] at hfirst
    rw [hlfree]
    exact hfirst

theorem take (hs : Sound h (pre ++ ⟨total, false⟩ :: post)) (hsize : size ≤ total)
    (hmin : 12 ≤ size) (halign : 4 ∣ size) :
    ∃ h', h.take (extent 12 pre) size = some (some (h.addr (extent 12 pre)), h') ∧
      Sound h' (pre ++ (carve 12 12 size total ++ post)) ∧
      Keeps (inUse 12 0 (pre ++ ⟨total, false⟩ :: post)) h h' ∧
      (Lowest h (pre ++ ⟨total, false⟩ :: post) →
        Lowest h' (pre ++ (carve 12 12 size total ++ post))) := by
  obtain ⟨ht, hkept, hmagic, husedMem, hlfree⟩ := hs.tiled.occupy size
  obtain ⟨h', heq, hs', hkept', hlow⟩ :=
    hs.advance ht hsize hmin halign hkept hmagic husedMem hlfree
  have hplace : (extent 12 pre, ⟨total, false⟩) ∈ placed 12 0 (pre ++ ⟨total, false⟩ :: post) :=
    mem_placed_zero
  have hbounds : extent 12 pre + 12 + total ≤ h.heapEnd := (hs.tiled.bounds hplace).1
  have haligned : 4 ∣ extent 12 pre := hs.place_aligned hplace
  have hptr := hs.heapPtr_aligned
  refine ⟨h', ?_, hs', hkept', hlow⟩
  rw [Heap.take, heq, Option.bind_some, handOut, hkept'.heapPtr, hkept'.heapEnd, if_pos, addr]
  omega

end Sound

/-! ## Plugging holes -/

theorem Loose.plugHoles (hl : Loose h (pre ++ b :: post)) (hb : b.used = false)
    (hpre : Separate pre) (hpost : Separate post) :
    ∃ h', h.plugHoles (extent 12 pre) = some h' ∧
      h' = (h.plugForward (extent 12 pre)).plugBackward (extent 12 pre) ∧
      Sound h' (coalesce 12 (pre ++ b :: post)) ∧
      Keeps (inUse 12 0 (pre ++ b :: post)) h h' ∧
      (Lowest h (pre ++ b :: post) → Lowest h' (coalesce 12 (pre ++ b :: post))) := by
  obtain ⟨h', heq, hvalue, ht⟩ := hl.tiled.plugHoles hb hpre hpost
  refine ⟨h', heq, hvalue, ⟨hl.replaced ht.tiled (ht.inUse_eq ▸ ht.keeps) ?_ ?_ ?_
    (ht.freeStart hl.freeStart), separate_coalesce _⟩, ht.keeps, ht.lowest⟩
  · exact dvd_size_coalesce (by decide) hl.size_aligned
  · rw [ht.inUse_eq]
    exact fun r hr => ⟨r.2, hr⟩
  · rw [ht.usedMem, hl.usedMem, usedBytes, usedBytes, ht.inUse_eq]

/-! ## Giving a block back -/

theorem perm_inUse_release (hb : b.used = true) : (inUse 12 0 (pre ++ b :: post)).Perm
    ((extent 12 pre, b) :: inUse 12 0 (pre ++ ⟨b.size, false⟩ :: post)) := by
  rw [inUse_append, inUse_append, inUse_cons, if_pos hb, zero_add]
  exact perm_middle

theorem usedBytes_release (hb : b.used = true) : usedBytes (pre ++ b :: post) =
    usedBytes (pre ++ ⟨b.size, false⟩ :: post) + (12 + b.size) := by
  unfold usedBytes
  rw [((perm_inUse_release hb).map _).sum_nat, map_cons, sum_cons, add_comm]

theorem Sound.usedMem_lt (hs : Sound h bs) : h.usedMem < 2 ^ 32 := by
  have hle : usedBytes bs ≤ extent 12 bs := sum_inUse_le 0 bs
  rw [hs.tiled.extent_eq, ← hs.usedMem] at hle
  have := hs.tiled.bound
  omega

theorem Sound.release (hs : Sound h (pre ++ b :: post)) (hb : b.used = true) :
    Loose (h.release (extent 12 pre)) (pre ++ ⟨b.size, false⟩ :: post) ∧
      Keeps (inUse 12 0 (pre ++ ⟨b.size, false⟩ :: post)) h (h.release (extent 12 pre)) ∧
      (Lowest h (pre ++ b :: post) →
        Lowest (h.release (extent 12 pre)) (pre ++ ⟨b.size, false⟩ :: post)) := by
  have hfits : KeepsFits ({ · with used := 0, magic := 0 }) :=
    fun m hm => ⟨Nat.two_pow_pos 16, Nat.two_pow_pos 16, hm.2.2.1, hm.2.2.2⟩
  have hmarked : Tiled (h.modify (extent 12 pre) ({ · with used := 0, magic := 0 }))
      (pre ++ ⟨b.size, false⟩ :: post) := hs.tiled.mark hfits (fun _ => ⟨rfl, rfl⟩) rfl
  have hkept : Keeps (inUse 12 0 (pre ++ ⟨b.size, false⟩ :: post)) h
      (h.modify (extent 12 pre) ({ · with used := 0, magic := 0 })) := .modify_free rfl hfits
  have hmarkedPlace : (extent 12 pre, ⟨b.size, false⟩) ∈
      placed 12 0 (pre ++ ⟨b.size, false⟩ :: post) := mem_placed_zero
  have htotal := hmarked.total_eq hmarkedPlace
  have hlfree : (h.modify (extent 12 pre) ({ · with used := 0, magic := 0 })).lfree = h.lfree := rfl
  have husedMem : (h.modify (extent 12 pre) ({ · with used := 0, magic := 0 })).usedMem =
    h.usedMem := rfl
  unfold Heap.release
  simp only [htotal]
  generalize h.modify (extent 12 pre) ({ · with used := 0, magic := 0 }) = g at *
  have hreleased : Keeps (inUse 12 0 (pre ++ ⟨b.size, false⟩ :: post)) h { g with
      lfree := if extent 12 pre < g.lfree then extent 12 pre else g.lfree
      usedMem := sub32 g.usedMem (12 + b.size) } := hkept.trans (.of_ram rfl rfl rfl)
  refine ⟨hs.replaced ?_ hreleased ?_ ?_ ?_ ?_, hreleased, ?_⟩
  · exact hmarked.congr (fun _ _ => mem_congr rfl) rfl rfl
  · refine aligned_replace [_] hs.size_aligned (forall_mem_singleton.mpr ?_)
    exact hs.size_aligned b (mem_append_right _ mem_cons_self)
  · intro r hr
    exact ⟨r.2, (perm_inUse_release hb).mem_iff.mpr (mem_cons_of_mem _ hr)⟩
  · have husedMem' := hs.usedMem
    rw [usedBytes_release hb] at husedMem'
    rw [husedMem, sub32_of_le hs.usedMem_lt (by omega)]
    simp only
    omega
  · rw [hlfree]
    split
    · exact .inr ⟨b.size, mem_placed_zero⟩
    · exact hs.freeStart.replace [⟨b.size, false⟩] (.inl hb) rfl
  · intro hlow
    rw [Lowest] at hlow ⊢
    rw [firstFree_release (by decide) hb, ← hlow, zero_add, hlfree]

/-! ## Cutting a block -/

theorem perm_inUse_cut (hsize : size + 12 ≤ total) :
    (inUse 12 0 (pre ++ ⟨size, true⟩ :: ⟨total - size - 12, false⟩ :: post)).Perm
      ((extent 12 pre, ⟨size, true⟩) :: inUse 12 0 (pre ++ ⟨total, false⟩ :: post)) := by
  have hplace : extent 12 pre + 12 + size + 12 + (total - size - 12) =
      extent 12 pre + 12 + total := by omega
  rw [inUse_append, inUse_append, inUse_cons, inUse_cons, zero_add, hplace]
  exact perm_middle

theorem usedBytes_cut (hsize : size + 12 ≤ total) :
    usedBytes (pre ++ ⟨size, true⟩ :: ⟨total - size - 12, false⟩ :: post) =
      usedBytes (pre ++ ⟨total, false⟩ :: post) + (12 + size) := by
  unfold usedBytes
  rw [((perm_inUse_cut hsize).map _).sum_nat, map_cons, sum_cons, add_comm]

/-- The block `b` cut behind its first `size` bytes, as `rt_realloc` does it. -/
theorem Sound.cut (hs : Sound h (pre ++ b :: post)) (hb : b.used = true)
    (hsize : size + 12 ≤ b.size) (halign : 4 ∣ size) :
    Loose (h.cut (extent 12 pre) b.size size)
        (pre ++ ⟨size, true⟩ :: ⟨b.size - size - 12, false⟩ :: post) ∧
      Keeps (inUse 12 0 (pre ++ ⟨size, true⟩ :: ⟨b.size - size - 12, false⟩ :: post)) h
        (h.cut (extent 12 pre) b.size size) ∧
      (h.cut (extent 12 pre) b.size size).lfree = h.lfree := by
  have hcounted : Tiled { h with usedMem := sub32 h.usedMem (b.size - size) } (pre ++ b :: post) :=
    hs.tiled.congr (fun _ _ => mem_congr rfl) rfl rfl
  obtain ⟨ht, hkept⟩ := hcounted.split hsize fits_withMagic
  rw [hb] at ht hkept
  have hstatics : Keeps (inUse 12 0 (pre ++ ⟨size, true⟩ :: ⟨b.size - size - 12, false⟩ :: post)) h
      { h with usedMem := sub32 h.usedMem (b.size - size) } := .of_ram rfl rfl rfl
  have hkept : Keeps (inUse 12 0 (pre ++ ⟨size, true⟩ :: ⟨b.size - size - 12, false⟩ :: post)) h
      (h.cut (extent 12 pre) b.size size) := hstatics.trans hkept
  have ht : Tiled (h.cut (extent 12 pre) b.size size) _ := ht
  have hlfree : (h.cut (extent 12 pre) b.size size).lfree = h.lfree := lfree_split
  have husedMem : (h.cut (extent 12 pre) b.size size).usedMem =
    sub32 h.usedMem (b.size - size) := usedMem_split
  generalize h.cut (extent 12 pre) b.size size = g at ht hkept hlfree husedMem ⊢
  refine ⟨hs.replaced ht hkept ?_ ?_ ?_ ?_, hkept, hlfree⟩
  · have hbsize := hs.size_aligned b (mem_append_right _ mem_cons_self)
    refine aligned_replace [_, _] hs.size_aligned (forall_mem_cons.mpr ⟨halign, ?_⟩)
    exact forall_mem_singleton.mpr (dvd_sub (dvd_sub hbsize halign) (by decide))
  · intro r hr
    rcases mem_cons.mp ((perm_inUse_cut hsize).mem_iff.mp hr) with rfl | hr
    · exact ⟨b, mem_inUse.mpr ⟨mem_placed_zero, hb⟩⟩
    · exact ⟨r.2, (perm_inUse_release hb).mem_iff.mpr (mem_cons_of_mem _ hr)⟩
  · have hbefore := hs.usedMem
    rw [usedBytes_release hb] at hbefore
    rw [husedMem, usedBytes_cut hsize, sub32_of_le hs.usedMem_lt (by omega)]
    omega
  · rw [hlfree]
    refine hs.freeStart.replace [⟨size, true⟩, ⟨b.size - size - 12, false⟩] (.inl hb) ?_
    simp only [extent]
    omega

/-! ## The calls -/

theorem rtFree_eq {rmem : ℕ}
    (hrmem : rmem % 4 = 0 ∧ h.heapPtr ≤ rmem ∧ rmem < h.heapPtr + h.heapEnd)
    (hptr : sub32 rmem (h.heapPtr + 12) = ptr)
    (hmem : (h.mem ptr).used ≠ 0 ∧ (h.mem ptr).magic = heapMagic) :
    h.rtFree (some rmem) = (h.release ptr).plugHoles ptr := by
  subst hptr
  exact (if_pos hrmem).trans (if_pos hmem)

/-- `rt_malloc` has a block for `n` bytes. -/
def Serves (h : Heap) (n : ℕ) : Prop :=
  n ≠ 0 ∧ rtAlign n ≤ h.memSizeAligned ∧
    ∃ r ∈ placed 12 0 h.blocks, h.fits (max (rtAlign n) 12) r = true

instance : Decidable (Serves h n) := inferInstanceAs (Decidable (_ ∧ _ ∧ _))

theorem dvd_request (n : ℕ) : 4 ∣ max (rtAlign n) 12 := by
  have hdvd : 4 ∣ rtAlign n := Nat.dvd_mul_left ..
  rcases le_total (rtAlign n) 12 with hle | hle
  · rw [max_eq_right hle]
    decide
  · rwa [max_eq_left hle]

namespace Sound

theorem rtMalloc_serves (hs : Sound h bs) (hserves : h.Serves n) :
    ∃ pre total post h', bs = pre ++ ⟨total, false⟩ :: post ∧ max (rtAlign n) 12 ≤ total ∧
      h.rtMalloc n = some (some (h.addr (extent 12 pre)), h') ∧
      Sound h' (pre ++ (carve 12 12 (max (rtAlign n) 12) total ++ post)) ∧
      Keeps (inUse 12 0 (pre ++ ⟨total, false⟩ :: post)) h h' ∧
      (Lowest h bs → Lowest h' (pre ++ (carve 12 12 (max (rtAlign n) 12) total ++ post))) := by
  obtain ⟨hzero, hsmall, r₀, hr₀, hfit₀⟩ := hserves
  rw [hs.tiled.blocks_eq] at hr₀
  obtain ⟨r, hfind⟩ : ∃ r, (placed 12 0 bs).find? (h.fits (max (rtAlign n) 12)) = some r :=
    Option.isSome_iff_exists.mp (find?_isSome.mpr ⟨r₀, hr₀, hfit₀⟩)
  have hfit := find?_some hfind
  simp only [fits, decide_eq_true_eq] at hfit
  obtain ⟨-, hend, hfree, hsize⟩ := hfit
  obtain ⟨pre, post, rfl, hplace⟩ := mem_placed.mp (mem_of_find?_eq_some hfind)
  obtain ⟨ptr, total, used⟩ := r
  subst hfree
  rw [zero_add] at hplace
  subst hplace
  obtain ⟨h', htake, hrest⟩ := hs.take hsize (le_max_right ..) (dvd_request n)
  refine ⟨pre, total, post, h', rfl, hsize, ?_, hrest⟩
  rw [rtMalloc, if_neg hzero, if_neg (by omega),
    hs.tiled.search_eq (by omega) hs.freeStart.start, hfind]
  exact htake

/-- `rt_malloc` without a block: it returns null, unless the heap is too small for its
loop to end. -/
theorem rtMalloc_fails (hs : Sound h bs) (hserves : ¬h.Serves n) :
    h.rtMalloc n = some (none, h) ∨ h.rtMalloc n = none ∧ h.memSizeAligned < 12 := by
  unfold rtMalloc
  split
  · exact .inl rfl
  · next hzero =>
    split
    · exact .inl rfl
    · next hsmall =>
      by_cases htiny : h.memSizeAligned < max (rtAlign n) 12
      · have hmax : max (rtAlign n) 12 = 12 := by omega
        right
        rw [hmax, hs.tiled.search_tiny (by omega) (le_refl 12) hs.freeStart.start]
        exact ⟨rfl, by omega⟩
      · left
        have hnone : (placed 12 0 bs).find? (h.fits (max (rtAlign n) 12)) = none := by
          refine find?_eq_none.mpr fun r hr hfit => hserves ⟨hzero, by omega, r, ?_, hfit⟩
          rwa [hs.tiled.blocks_eq]
        rw [hs.tiled.search_eq (by omega) hs.freeStart.start, hnone]
        rfl

theorem rtFree (hs : Sound h (pre ++ b :: post)) (hb : b.used = true) :
    ∃ h', h.rtFree (some (h.addr (extent 12 pre))) = some h' ∧
      Sound h' (coalesce 12 (pre ++ ⟨b.size, false⟩ :: post)) ∧
      Keeps (inUse 12 0 (pre ++ ⟨b.size, false⟩ :: post)) h h' ∧
      (Lowest h (pre ++ b :: post) →
        Lowest h' (coalesce 12 (pre ++ ⟨b.size, false⟩ :: post))) := by
  have hplace : (extent 12 pre, b) ∈ placed 12 0 (pre ++ b :: post) := mem_placed_zero
  have haligned : 4 ∣ extent 12 pre := hs.place_aligned hplace
  have hptr := hs.heapPtr_aligned
  have hinUse : (extent 12 pre, b) ∈ inUse 12 0 (pre ++ b :: post) := mem_inUse.mpr ⟨hplace, hb⟩
  have hinside : extent 12 pre + 12 < h.heapEnd := hs.inside _ hinUse
  have hused : (h.mem (extent 12 pre)).used ≠ 0 := fun hzero =>
    absurd ((hs.tiled.mem_used hplace).mp hzero) (by simp [hb])
  obtain ⟨hloose, hkept, hlow⟩ := hs.release hb
  have hpre : Separate pre := (isChain_append.mp hs.separate).1
  have hpost : Separate post := (isChain_cons.mp (isChain_append.mp hs.separate).2.1).2
  obtain ⟨h', heq, -, hs', hkept', hlow'⟩ := hloose.plugHoles rfl hpre hpost
  refine ⟨h', ?_, hs', hkept.trans hkept', fun hlowest => hlow' (hlow hlowest)⟩
  have hchecks : h.addr (extent 12 pre) % 4 = 0 ∧ h.heapPtr ≤ h.addr (extent 12 pre) ∧
      h.addr (extent 12 pre) < h.heapPtr + h.heapEnd := by
    unfold addr
    omega
  have hmagic : (h.mem (extent 12 pre)).magic = heapMagic := hs.magic (extent 12 pre, b) hinUse
  rw [rtFree_eq hchecks (hs.sub32_addr hplace) ⟨hused, hmagic⟩, heq]

end Sound

end Easyio.Kernel.Heap
