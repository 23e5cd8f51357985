import Easyio.Kernel.HeapRuns

/-!
# The sizes that the kernel heap grants

A block that `rt_malloc`, `rt_calloc` or `rt_realloc` returns is to hold the bytes that
were asked for.  The alignment of a request above `2^32 - 4` wraps to 0, and so does the
product of `rt_calloc`; nothing checks for it, and `rt_malloc` then grants a block of the
least size.  `sizes_iff` says for each call when its result is large enough.
-/

namespace Easyio.Kernel.Heap

open Blocks Bytes List Nor Option Runs.Partial

variable {h h' : Heap} {bs : List Block} {n x : ℕ} {b : Block}

theorem le_rtAlign (hn : n ≤ 2 ^ 32 - 4) : n ≤ rtAlign n := by
  rw [rtAlign_of_le hn]
  omega

theorem rtAlign_le_iff (hn : n < 2 ^ 32) : n ≤ rtAlign n ↔ n ≤ 2 ^ 32 - 4 := by
  refine ⟨fun hle => ?_, le_rtAlign⟩
  by_contra hlt
  rw [rtAlign_of_gt (by omega) hn] at hle
  omega

theorem Sound.usable_rtMalloc (hs : Sound h bs) (hserves : h.Serves n) :
    ∃ x h' bs', h.rtMalloc n = some (some (h'.addr x), h') ∧ Sound h' bs' ∧
      (x, ⟨h'.usable (h'.addr x), true⟩) ∈ inUse 12 0 bs' ∧
      max (rtAlign n) 12 ≤ h'.usable (h'.addr x) ∧ h'.usable (h'.addr x) < 2 ^ 32 - 4 := by
  obtain ⟨x, g, h', bs', heq, hg, -, hperm, hleaves⟩ := hs.rtMalloc hserves
  have hin : (x, ⟨g, true⟩) ∈ inUse 12 0 bs' := hperm.mem_iff.mpr mem_cons_self
  have hplace := (mem_inUse.mp hin).1
  have husable : h'.usable (h'.addr x) = g := hleaves.sound.usable_eq hplace
  have hbounds := hleaves.sound.tiled.bounds hplace
  refine ⟨x, h', bs', ?_, hleaves.sound, ?_, ?_, ?_⟩
  · rw [heq, addr, addr, hleaves.keeps.heapPtr]
  · rwa [husable]
  · rwa [husable]
  · simp only at hbounds
    omega

/-! ## Results -/

section
variable {result : Option (Option ℕ × Heap)} {q : ℕ} {g : Heap} {P : ℕ → Heap → Prop}

theorem forall_block (heq : result = some (some q, g)) :
    (∀ p h', result = some (some p, h') → P p h') ↔ P q g := by
  refine ⟨fun hall => hall q g heq, fun hq p h' hp => ?_⟩
  obtain ⟨hqp, rfl⟩ := Prod.mk.inj (some.inj (heq.symm.trans hp))
  exact some.inj hqp ▸ hq

theorem forall_null (hnull : ∀ p h', result ≠ some (some p, h')) :
    ∀ p h', result = some (some p, h') → P p h' := fun p h' hp => absurd hp (hnull p h')

end

theorem Sound.rtMalloc_null (hs : Sound h bs) (hserves : ¬h.Serves n) :
    ∀ p h', h.rtMalloc n ≠ some (some p, h') := by
  intro p h' hp
  rcases hs.rtMalloc_fails hserves with hnull | ⟨hnone, -⟩
  · exact some_ne_none p (Prod.mk.inj (some.inj (hp.symm.trans hnull))).1
  · exact some_ne_none _ (hp.symm.trans hnone)

/-- `rt_malloc` grants enough, unless the request wraps and there is a block for it. -/
theorem Sound.rtMalloc_size_iff (hs : Sound h bs) (n : ℕ) :
    (∀ p h', h.rtMalloc n = some (some p, h') → n ≤ h'.usable p) ↔
      n ≤ 2 ^ 32 - 4 ∨ ¬h.Serves n := by
  by_cases hserves : h.Serves n
  · obtain ⟨x, h', bs', heq, -, -, hlow, hhigh⟩ := hs.usable_rtMalloc hserves
    rw [forall_block heq, or_iff_left (not_not.mpr hserves)]
    refine ⟨fun hsize => by omega, fun hn => ?_⟩
    have := le_rtAlign hn
    omega
  · exact iff_of_true (forall_null (hs.rtMalloc_null hserves)) (.inr hserves)

theorem usable_zero (hx : sub32 (h.addr x) (h.heapPtr + 12) = x) (count : ℕ) :
    (h.zero (h.addr x) count).usable (h.addr x) = h.usable (h.addr x) := by
  have hoffset : h.addr x - h.heapPtr = x + 12 := by
    rw [addr]
    omega
  have hmem : (h.zero (h.addr x) count).mem x = h.mem x := by
    rw [zero, hoffset]
    exact mem_write (.inl (Nat.le_refl _))
  have hptr : (h.zero (h.addr x) count).heapPtr = h.heapPtr := rfl
  rw [usable, usable, hptr, hx, hmem]

/-- `rt_calloc` grants enough and zeroes it, unless the product wraps, or its alignment,
and there is a block for what is left of it. -/
theorem Sound.rtCalloc_size_iff (hs : Sound h bs) (count size : ℕ) :
    (∀ p h', h.rtCalloc count size = some (some p, h') → count * size ≤ h'.usable p ∧
        ∀ i < count * size, h'.ram (p - h'.heapPtr + i) = 0) ↔
      count * size ≤ 2 ^ 32 - 4 ∨ ¬h.Serves (count * size % 2 ^ 32) := by
  by_cases hserves : h.Serves (count * size % 2 ^ 32)
  · obtain ⟨x, h', bs', heq, hs', hin, hlow, hhigh⟩ := hs.usable_rtMalloc hserves
    have hcalloc : h.rtCalloc count size =
        some (some (h'.addr x), h'.zero (h'.addr x) (count * size % 2 ^ 32)) := by
      rw [rtCalloc, heq]
      rfl
    rw [forall_block hcalloc, usable_zero (hs'.sub32_addr (mem_inUse.mp hin).1),
      or_iff_left (not_not.mpr hserves)]
    refine ⟨fun hsize => by omega, fun hn => ?_⟩
    have htotal : count * size % 2 ^ 32 = count * size := Nat.mod_eq_of_lt (by omega)
    have hle := le_rtAlign hn
    rw [htotal] at hlow ⊢
    refine ⟨by omega, fun i hi => ?_⟩
    have hzero := @overwrite_apply_of_mem (h'.addr x - h'.heapPtr) h'.ram
      (replicate (count * size) 0) i (by rwa [length_replicate])
    rw [getElem_replicate] at hzero
    exact hzero
  · refine iff_of_true (forall_null fun p h' hp => ?_) (.inr hserves)
    obtain ⟨⟨q, g⟩, hmalloc, hq⟩ := map_eq_some_iff.mp hp
    cases q with
    | none => exact some_ne_none p (Prod.mk.inj hq).1.symm
    | some q => exact hs.rtMalloc_null hserves q g hmalloc

/-- `rt_realloc` of the null pointer grants enough: a request that wraps is one for nothing. -/
theorem Sound.rtRealloc_null_size (hs : Sound h bs) (hn : n < 2 ^ 32) :
    ∀ p h', h.rtRealloc none n = some (some p, h') → n ≤ h'.usable p := by
  intro p h' hp
  unfold Heap.rtRealloc at hp
  simp only at hp
  split at hp
  · exact absurd (Prod.mk.inj (some.inj hp)).1 (some_ne_none p).symm
  by_cases hserves : h.Serves (rtAlign n)
  · obtain ⟨x, g, bs', heq, -, -, hlow, -⟩ := hs.usable_rtMalloc hserves
    obtain ⟨hq, rfl⟩ := Prod.mk.inj (some.inj (heq.symm.trans hp))
    rw [some.inj hq, rtAlign_rtAlign] at hlow
    by_cases hfits : n ≤ 2 ^ 32 - 4
    · have := le_rtAlign hfits
      omega
    · exact absurd (rtAlign_of_gt (by omega) hn) hserves.1
  · exact absurd hp (hs.rtMalloc_null hserves p h')

theorem usable_of_perm {others : List (ℕ × Block)} (hs : Sound h' bs)
    (hptr : h'.heapPtr = h.heapPtr) (hperm : (inUse 12 0 bs).Perm ((x, b) :: others)) :
    h'.usable (h.addr x) = b.size := by
  have hin : (x, b) ∈ inUse 12 0 bs := hperm.mem_iff.mpr mem_cons_self
  have haddr : h.addr x = h'.addr x := by rw [addr, addr, hptr]
  rw [haddr, hs.usable_eq (mem_inUse.mp hin).1]

/-- `rt_realloc` of a block grants enough, unless the request wraps and the block is cut or
stays as it is. -/
theorem Sound.rtRealloc_size_iff {ptr : ℕ} (hs : Sound h bs) (hb : (ptr, b) ∈ inUse 12 0 bs)
    (hmin : 12 ≤ h.memSizeAligned) (hn : n < 2 ^ 32) :
    (∀ p h', h.rtRealloc (some (h.addr ptr)) n = some (some p, h') → n ≤ h'.usable p) ↔
      n ≤ 2 ^ 32 - 4 ∨ 0 < b.size ∧ b.size ≤ 24 := by
  have hwraps : ¬n ≤ 2 ^ 32 - 4 → rtAlign n = 0 := fun hlt => rtAlign_of_gt (by omega) hn
  have hnull {g : Heap} (heq : h.rtRealloc (some (h.addr ptr)) n = some (none, g)) :
      ∀ p h', h.rtRealloc (some (h.addr ptr)) n = some (some p, h') → n ≤ h'.usable p :=
    forall_null fun p h' hp =>
      some_ne_none p (Prod.mk.inj (some.inj (hp.symm.trans heq))).1
  obtain ⟨result, h', bs', heq, hcases⟩ := hs.rtRealloc hb hmin n
  cases hcases with
  | tooLarge hlarge =>
    refine iff_of_true (hnull heq) (.inl ?_)
    by_contra hlt
    omega
  | same hle hsize =>
    rw [forall_block heq, hs.usable_eq (mem_inUse.mp hb).1, hsize, rtAlign_le_iff hn]
    refine ⟨.inl, fun hcond => hcond.elim id fun hpos => ?_⟩
    by_contra hlt
    omega
  | cut others hle hsize hbefore hafter hsound hkeeps hsmall hlowest =>
    rw [forall_block heq, usable_of_perm hsound hkeeps.heapPtr hafter, rtAlign_le_iff hn]
    exact (or_iff_left fun hpos => by omega).symm
  | noRoom hle hne hsize hserves =>
    refine iff_of_true (hnull heq) ?_
    by_contra hnot
    omega
  | moved g others hle hne hsize hserves hg hbefore hafter hcopied hleaves =>
    have hfits : n ≤ 2 ^ 32 - 4 := by
      by_contra hlt
      exact hserves.1 (hwraps hlt)
    rw [forall_block heq, usable_of_perm hleaves.sound hleaves.keeps.heapPtr hafter]
    refine iff_of_true ?_ (.inl hfits)
    have := le_rtAlign hfits
    simp only
    omega

namespace Session

variable {s : Session} {ram : Cells} {beginAddr endAddr : UInt32} {events : List Use}

/-- **Sizes.**  In every run and for all arguments of 32 bits: the block of `rt_malloc` holds
the request if and only if the request is at most `2^32 - 4` or no block is found; the block
of `rt_calloc` holds the product and is zero if and only if the product is, or no block is
found; the block of `rt_realloc` holds the request if the null pointer is passed, and for
the address of a block if and only if the request is, or the block has between 1 and 24
bytes, so that the call fails. -/
theorem sizes_iff (hinit : rtSystemHeapInit ram beginAddr.toNat endAddr.toNat = some h)
    (hrun : run step ⟨h, []⟩ events = some s) :
    (∀ n : UInt32, (∀ p h', s.heap.rtMalloc n.toNat = some (some p, h') →
        n.toNat ≤ h'.usable p) ↔ n.toNat ≤ 2 ^ 32 - 4 ∨ ¬s.heap.Serves n.toNat) ∧
    (∀ count size : UInt32, (∀ p h', s.heap.rtCalloc count.toNat size.toNat = some (some p, h') →
        count.toNat * size.toNat ≤ h'.usable p ∧
          ∀ i < count.toNat * size.toNat, h'.ram (p - h'.heapPtr + i) = 0) ↔
        count.toNat * size.toNat ≤ 2 ^ 32 - 4 ∨
          ¬s.heap.Serves (count.toNat * size.toNat % 2 ^ 32)) ∧
    (∀ n : UInt32, ∀ p h', s.heap.rtRealloc none n.toNat = some (some p, h') →
        n.toNat ≤ h'.usable p) ∧
    ∀ rmem ∈ s.live, ∀ n : UInt32,
      (∀ p h', s.heap.rtRealloc (some rmem) n.toNat = some (some p, h') →
        n.toNat ≤ h'.usable p) ↔
        n.toNat ≤ 2 ^ 32 - 4 ∨ 0 < s.heap.usable rmem ∧ s.heap.usable rmem ≤ 24 := by
  obtain ⟨hv, -⟩ := valid_of_run hinit hrun
  refine ⟨fun n => hv.sound.rtMalloc_size_iff n.toNat,
    fun count size => hv.sound.rtCalloc_size_iff count.toNat size.toNat,
    fun n => hv.sound.rtRealloc_null_size n.toNat_lt, fun rmem hrmem n => ?_⟩
  obtain ⟨ptr, b, rfl, hb, husable⟩ := hv.block hrmem
  rw [husable]
  exact hv.sound.rtRealloc_size_iff hb (hv.large (ne_nil_of_mem hrmem)) n.toNat_lt

/-- The first heap grants 10 bytes. -/
theorem sizes_first : ∃ p h', smallHeap.rtMalloc 10 = some (some p, h') ∧ 10 ≤ h'.usable p := by
  have hrun : run step ⟨smallHeap, []⟩ [] = some ⟨smallHeap, []⟩ := rfl
  have hblock : (smallHeap.rtMalloc 10).map Prod.fst = some (some 268) := by decide +kernel
  obtain ⟨⟨p, h'⟩, heq, rfl⟩ := map_eq_some_iff.mp hblock
  exact ⟨268, h', heq, ((sizes_iff init_smallHeap hrun).1 10).mpr (.inl (by decide)) 268 h' heq⟩

/-- On a heap of 64 data bytes, requests for `2^32 - 1` bytes and for `2^30 + 1` objects of
4 bytes each get a block of 12 bytes, and a block of 40 bytes "grown" to `2^32 - 1` has
none left. -/
theorem sizes_wrap :
    (∃ p h', smallHeap.rtMalloc 4294967295 = some (some p, h') ∧ h'.usable p = 12) ∧
      (∃ p h', smallHeap.rtCalloc 1073741825 4 = some (some p, h') ∧ h'.usable p = 12) ∧
      ∃ s, run step ⟨smallHeap, []⟩ [.malloc 40, .realloc 268 4294967295] = some s ∧
        s.live = [268] ∧ s.heap.usable 268 = 0 := by
  refine ⟨⟨268, ?_⟩, ⟨268, ?_⟩, exists_of_any _ (by decide +kernel) fun _ _ h => h⟩
  · obtain ⟨⟨p, h₁⟩, heq, rfl, hsize⟩ := exists_of_any
      (fun r : Option ℕ × Heap => r.1 = some 268 ∧ r.2.usable 268 = 12)
      (show (smallHeap.rtMalloc 4294967295).any _ = true by decide +kernel) fun _ _ h => h
    exact ⟨h₁, heq, hsize⟩
  · obtain ⟨⟨q, h₂⟩, heq, rfl, hsize⟩ := exists_of_any
      (fun r : Option ℕ × Heap => r.1 = some 268 ∧ r.2.usable 268 = 12)
      (show (smallHeap.rtCalloc 1073741825 4).any _ = true by decide +kernel) fun _ _ h => h
    exact ⟨h₂, heq, hsize⟩

end Session

end Easyio.Kernel.Heap
