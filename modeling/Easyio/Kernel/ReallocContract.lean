import Easyio.Kernel.HeapSizes

/-!
# The contract of `rt_realloc`

`ReallocContract` is what a caller expects of `rt_realloc`.  It is broken in three ways:

* a request above `2^32 - 4` wraps to 0, and a block of more than 24 bytes loses its data;
* a block is cut to fewer than `MIN_SIZE_ALIGNED` bytes;
* a request for a little less than the block has is served by another block, and fails if
  there is none, also a request for 0 bytes.

`realloc_contract_iff` says that these are all.
-/

namespace Easyio.Kernel.Heap

open List Option Bytes Nor Blocks Runs.Partial

variable {h h' : Heap} {bs bs' : List Block} {n ptr x : ℕ} {b : Block} {r : ℕ × Block}
  {result : Option ℕ} {others : List (ℕ × Block)}

/-- The block `r` is still in use, with the same data. -/
def Untouched (h h' : Heap) (r : ℕ × Block) : Prop :=
  r ∈ inUse 12 0 h'.blocks ∧ ∀ i < r.2.size, h'.ram (r.1 + 12 + i) = h.ram (r.1 + 12 + i)

/-- What `rt_realloc(rmem, n)` is to do: a block that it returns has the bytes of the old
one that were asked for, the other blocks are untouched, and so is the old one if it fails;
it does not fail if the block is large enough; and no block becomes small. -/
structure ReallocContract (h : Heap) (rmem n : ℕ) (result : Option ℕ) (h' : Heap) : Prop where
  preserved : ∀ p, result = some p → min (h.usable rmem) n ≤ h'.usable p ∧
    ∀ i < min (h.usable rmem) n, h'.ram (p - h'.heapPtr + i) = h.ram (rmem - h.heapPtr + i)
  others : ∀ r ∈ inUse 12 0 h.blocks, h.addr r.1 ≠ rmem → Untouched h h' r
  failed : result = none → ∀ r ∈ inUse 12 0 h.blocks, h.addr r.1 = rmem → Untouched h h' r
  succeeds : (n + 3) / 4 * 4 ≤ h.usable rmem → result ≠ none
  small : NoNewSmall h.blocks h'.blocks

/-- What `rt_realloc` has to find: for a request that wraps a block of at most 24 bytes; for
another one a block that is not too large, or is to be cut to 12 bytes or more, or can be
replaced by a free one. -/
def ReallocGuard (h : Heap) (rmem n : ℕ) : Prop :=
  if 2 ^ 32 - 4 < n then h.usable rmem ≤ 24
  else h.usable rmem ≤ rtAlign n ∨ rtAlign n + 24 < h.usable rmem ∧ 12 ≤ rtAlign n ∨
    h.usable rmem ≤ rtAlign n + 24 ∧ h.Serves (rtAlign n)

theorem Untouched.refl (hr : r ∈ inUse 12 0 h.blocks) : Untouched h h r := ⟨hr, fun _ _ => rfl⟩

theorem Untouched.of_keeps (hs : Sound h bs) (hs' : Sound h' bs')
    (hbefore : (inUse 12 0 bs).Perm ((ptr, b) :: others)) {c : ℕ × Block}
    (hafter : (inUse 12 0 bs').Perm (c :: others)) (hkeeps : Keeps others h h')
    (hr : r ∈ inUse 12 0 h.blocks) (hne : h.addr r.1 ≠ h.addr ptr) : Untouched h h' r := by
  rw [hs.tiled.blocks_eq] at hr
  rcases mem_cons.mp (hbefore.mem_iff.mp hr) with rfl | hr
  · exact absurd rfl hne
  · refine ⟨?_, fun i hi => hkeeps.data r hr _ (Nat.le_add_right ..) (by omega)⟩
    rw [hs'.tiled.blocks_eq]
    exact hafter.mem_iff.mpr (mem_cons_of_mem _ hr)

theorem ReallocContract.unchanged {rmem : ℕ} (hresult : result = none ∨ result = some rmem)
    (hsucceeds : (n + 3) / 4 * 4 ≤ h.usable rmem → result ≠ none) :
    ReallocContract h rmem n result h where
  preserved p hp := by
    obtain rfl : rmem = p := by
      rcases hresult with hnone | hsome
      · exact absurd (hnone.symm.trans hp) (some_ne_none p).symm
      · exact some.inj (hsome.symm.trans hp)
    exact ⟨Nat.min_le_left .., fun _ _ => rfl⟩
  others r hr _ := .refl hr
  failed _ r hr _ := .refl hr
  succeeds := hsucceeds
  small := .refl _

/-- A call that returns a block, the old one or a new one. -/
theorem ReallocContract.changed {c : Block} (hs : Sound h bs) (hs' : Sound h' bs')
    (hbefore : (inUse 12 0 bs).Perm ((ptr, b) :: others))
    (hafter : (inUse 12 0 bs').Perm ((x, c) :: others)) (hkeeps : Keeps others h h')
    (hsize : min b.size n ≤ c.size)
    (hdata : ∀ i < min b.size n, h'.ram (x + 12 + i) = h.ram (ptr + 12 + i))
    (hsmall : NoNewSmall bs bs') :
    ReallocContract h (h.addr ptr) n (some (h.addr x)) h' where
  preserved p hp := by
    obtain rfl : h.addr x = p := some.inj hp
    have hoffset : ∀ z, h.addr z - h.heapPtr = z + 12 := by
      intro z
      rw [addr]
      omega
    rw [usable_of_perm hs' hkeeps.heapPtr hafter, usable_of_perm hs rfl hbefore, hkeeps.heapPtr,
      hoffset, hoffset]
    exact ⟨hsize, hdata⟩
  others r hr hne := .of_keeps hs hs' hbefore hafter hkeeps hr hne
  failed hnone := absurd hnone (some_ne_none _)
  succeeds _ := some_ne_none _
  small := by rwa [hs.tiled.blocks_eq, hs'.tiled.blocks_eq]

theorem Sound.contract_iff (hs : Sound h bs) (hb : (ptr, b) ∈ inUse 12 0 bs)
    (hmin : 12 ≤ h.memSizeAligned) (hn : n < 2 ^ 32) :
    ∃ result h', h.rtRealloc (some (h.addr ptr)) n = some (result, h') ∧
      (ReallocContract h (h.addr ptr) n result h' ↔ ReallocGuard h (h.addr ptr) n) := by
  have hplace := (mem_inUse.mp hb).1
  have husable : h.usable (h.addr ptr) = b.size := hs.usable_eq hplace
  have hbounds := (hs.tiled.bounds hplace).1
  have hend : h.heapEnd = h.memSizeAligned + 12 := rfl
  have hwraps : 2 ^ 32 - 4 < n → rtAlign n = 0 := fun hlt => rtAlign_of_gt hlt hn
  have hfits : ¬2 ^ 32 - 4 < n → rtAlign n = (n + 3) / 4 * 4 := fun hle =>
    rtAlign_of_le (Nat.le_of_not_lt hle)
  obtain ⟨result, h', bs', heq, hcases⟩ := hs.rtRealloc hb hmin n
  refine ⟨result, h', heq, ?_⟩
  rw [ReallocGuard, husable]
  cases hcases with
  | tooLarge hlarge =>
    have hle : ¬2 ^ 32 - 4 < n := fun hlt => by
      omega
    rw [if_neg hle]
    refine iff_of_true (.unchanged (.inl rfl) fun hsize => ?_) (.inl (by omega))
    omega
  | same hle hsize =>
    refine iff_of_true (.unchanged (.inr rfl) fun _ => some_ne_none _) ?_
    split
    · next hlt =>
      omega
    · exact .inl (Nat.le_of_eq hsize)
  | cut others hle hsize hbefore hafter hsound hkeeps hsmall hlowest =>
    have hnew : (ptr, ⟨rtAlign n, true⟩) ∈ inUse 12 0 bs' := hafter.mem_iff.mpr mem_cons_self
    split
    · next hlt =>
      -- the data of the block are lost
      refine iff_of_false (fun hcontract => ?_) (by omega)
      have hbytes := (hcontract.preserved _ rfl).1
      rw [usable_of_perm hsound hkeeps.heapPtr hafter] at hbytes
      simp only at hbytes
      omega
    · next hlt =>
      have hceil := hfits hlt
      refine ⟨fun hcontract => .inr (.inl ⟨hsize, ?_⟩), fun hguard => ?_⟩
      · -- the block was there before, but it was larger
        by_contra hless
        have hsmall' := hcontract.small
        rw [hs.tiled.blocks_eq, hsound.tiled.blocks_eq] at hsmall'
        obtain ⟨c, hc, hcsize⟩ := hsmall' _ _ (mem_inUse.mp hnew).1 (Nat.lt_of_not_le hless)
        rw [placed_unique (by decide) hc hplace] at hcsize
        simp only at hcsize
        omega
      · have hsub : others ⊆ inUse 12 0 bs' := fun r hr =>
          hafter.mem_iff.mpr (mem_cons_of_mem _ hr)
        refine .changed hs hsound hbefore hafter (hkeeps.mono hsub) ?_ (fun i hi => ?_)
          (hsmall (by omega))
        · simp only
          omega
        · exact hkeeps.data _ hnew _ (Nat.le_add_right ..) (by simp only; omega)
  | noRoom hle hne hsize hserves =>
    by_cases hlt : 2 ^ 32 - 4 < n
    · rw [if_pos hlt]
      refine iff_of_true (.unchanged (.inl rfl) fun hlarge => ?_) (by omega)
      omega
    · rw [if_neg hlt]
      have hceil := hfits hlt
      refine ⟨fun hcontract => .inl ?_, fun hguard => .unchanged (.inl rfl) fun hlarge => ?_⟩
      · by_contra hless
        exact hcontract.succeeds (by rw [← hceil, husable]; omega) rfl
      · rcases hguard with hless | ⟨hcut, -⟩ | ⟨-, hroom⟩
        · omega
        · omega
        · exact absurd hroom hserves
  | moved g others hle hne hsize hserves hg hbefore hafter hcopied hleaves =>
    have hlt : ¬2 ^ 32 - 4 < n := fun hlt => hserves.1 (hwraps hlt)
    rw [if_neg hlt]
    refine iff_of_true ?_ (.inr (.inr ⟨hsize, hserves⟩))
    refine .changed hs hleaves.sound hbefore hafter hleaves.keeps ?_ (fun i hi => ?_)
      hleaves.small
    · simp only
      omega
    · exact hcopied i (by omega)

namespace Session

variable {s : Session} {ram : Cells} {beginAddr endAddr : UInt32} {events : List Use} {rmem : ℕ}

/-- **Reallocation.**  In every run `rt_realloc` of a live block returns for every request,
and it keeps its contract if and only if it finds what `ReallocGuard` says. -/
theorem realloc_contract_iff (hinit : rtSystemHeapInit ram beginAddr.toNat endAddr.toNat = some h)
    (hrun : run step ⟨h, []⟩ events = some s) (hrmem : rmem ∈ s.live) (n : UInt32) :
    ∃ result h', s.heap.rtRealloc (some rmem) n.toNat = some (result, h') ∧
      (ReallocContract s.heap rmem n.toNat result h' ↔ ReallocGuard s.heap rmem n.toNat) := by
  obtain ⟨hv, -⟩ := valid_of_run hinit hrun
  obtain ⟨ptr, b, rfl, hb, -⟩ := hv.block hrmem
  exact hv.sound.contract_iff hb (hv.large (ne_nil_of_mem hrmem)) n.toNat_lt

/-- A block of 10 bytes grows to 20. -/
theorem realloc_contract_grow :
    ∃ s, run step ⟨smallHeap, []⟩ [.malloc 10] = some s ∧ 268 ∈ s.live ∧
      ∃ result h', s.heap.rtRealloc (some 268) 20 = some (result, h') ∧
        ReallocContract s.heap 268 20 result h' := by
  refine exists_of_any (fun s => 268 ∈ s.live ∧ s.heap.usable 268 = 12) (by decide +kernel) ?_
  rintro s hrun ⟨hrmem, husable⟩
  obtain ⟨result, h', heq, hiff⟩ := realloc_contract_iff init_smallHeap hrun hrmem 20
  refine ⟨hrmem, result, h', heq, hiff.mpr ?_⟩
  rw [ReallocGuard, if_neg (by decide), husable]
  exact .inl (by decide)

/-- A block of 36 bytes in a heap without a free block: the request for 20 bytes fails.  A
block of 40 bytes is cut to 4. -/
theorem realloc_contract_fails :
    (∃ s, run step ⟨smallHeap, []⟩ [.malloc 36, .malloc 12] = some s ∧ 268 ∈ s.live ∧
      s.heap.usable 268 = 36 ∧ ∃ h', s.heap.rtRealloc (some 268) 20 = some (none, h')) ∧
    ∃ s, run step ⟨smallHeap, []⟩ [.malloc 40, .realloc 268 4] = some s ∧
      s.heap.blocks = [⟨4, true⟩, ⟨48, false⟩] := by
  refine ⟨exists_of_any (fun s => 268 ∈ s.live ∧ s.heap.usable 268 = 36 ∧
    (s.heap.rtRealloc (some 268) 20).map Prod.fst = some none) (by decide +kernel) ?_,
    exists_of_any _ (by decide +kernel) fun _ _ h => h⟩
  rintro s - ⟨hlive, husable, hnull⟩
  obtain ⟨⟨p, h'⟩, heq, rfl⟩ := map_eq_some_iff.mp hnull
  exact ⟨hlive, husable, h', heq⟩

end Session

end Easyio.Kernel.Heap
