import Easyio.Kernel.HeapRuns

/-!
# First fit

`rt_malloc` is to return null only if no free block is large enough.  Two things stand in
the way.  The loop runs while `ptr < mem_size_aligned - size`, which leaves out a block at
the end of the heap that fits exactly (`complete_iff`).  And the loop starts at `lfree`,
which `rt_realloc` leaves behind when it cuts a block in front of it
(`Session.LowestGuard`).  `first_fit_iff` says that there is nothing else.
-/

namespace Easyio.Kernel.Heap

open Blocks Bytes List Nat Nor Option Runs.Partial

variable {h : Heap} {bs : List Block} {n size : ℕ} {r : ℕ × Block}

/-- The bytes that `rt_malloc` looks for. -/
def request (n : ℕ) : ℕ := max (rtAlign n) 12

/-- `lfree` is not behind a free block. -/
def NotPast (h : Heap) : Prop := ∀ r ∈ placed 12 0 h.blocks, r.2.used = false → h.lfree ≤ r.1

theorem Sound.notPast_iff (hs : Sound h bs) : NotPast h ↔ Lowest h bs := by
  rw [NotPast, hs.tiled.blocks_eq, Lowest]
  refine ⟨fun hlow => ?_, fun hlow r hr hfree => hlow ▸ firstFree_le hr hfree⟩
  -- both are free headers, or the end
  rcases hs.freeStart with hend | ⟨size, hfree⟩ <;>
    rcases freeStart_firstFree (H := 12) 0 bs with hend' | ⟨size', hfree'⟩
  · rw [hend, hend']
  · have := hlow _ hfree' rfl
    have := (placed_bounds hfree').2
    omega
  · have := firstFree_le hfree rfl
    have := (placed_bounds hfree).2
    omega
  · exact le_antisymm (hlow _ hfree' rfl) (firstFree_le hfree rfl)

/-- A free block behind which the heap ends and that fits exactly is not found. -/
theorem Sound.fits_iff (hs : Sound h bs) (hlow : Lowest h bs) (hr : r ∈ placed 12 0 bs)
    (hfree : r.2.used = false) (hsize : size ≤ r.2.size) :
    h.fits size r = true ↔ ¬(r.1 + 12 + r.2.size = h.heapEnd ∧ r.2.size = size) := by
  have hstart : h.lfree ≤ r.1 := hlow.symm ▸ firstFree_le hr hfree
  have hbounds := (hs.tiled.bounds hr).1
  have hend : h.heapEnd = h.memSizeAligned + 12 := rfl
  simp only [fits, decide_eq_true_eq]
  constructor
  · rintro ⟨-, hlt, -, -⟩
    omega
  · intro hne
    exact ⟨hstart, by omega, hfree, hsize⟩

/-- `rt_malloc` of `n` bytes returns null only if no free block is large enough. -/
def Complete (h : Heap) (n : ℕ) : Prop :=
  (∃ h', h.rtMalloc n = some (none, h')) → ∀ b ∈ h.blocks, b.used = false → b.size < request n

/-- The last block is not the only one that is large enough, or it does not fit exactly. -/
def LastGuard (h : Heap) (n : ℕ) : Prop :=
  ∀ pre, h.blocks = pre ++ [⟨request n, false⟩] →
    ∃ c ∈ pre, c.used = false ∧ request n ≤ c.size

instance : Decidable (LastGuard h n) :=
  decidable_of_iff (h.blocks.getLast? = some ⟨request n, false⟩ →
      ∃ c ∈ h.blocks.dropLast, c.used = false ∧ request n ≤ c.size) <| by
    refine ⟨fun hguard pre hpre => ?_, fun hguard hlast => ?_⟩
    · simpa [hpre] using hguard
    · exact hguard _ (dropLast_append_getLast? _ hlast).symm

theorem Tiled.last (ht : Tiled h bs) (hr : r ∈ placed 12 0 bs)
    (hend : r.1 + 12 + r.2.size = h.heapEnd) : ∃ pre, bs = pre ++ [r.2] := by
  obtain ⟨pre, post, rfl, hplace⟩ := mem_placed.mp hr
  have hextent := ht.extent_eq
  rw [extent_append, extent] at hextent
  have hlength := length_le_extent (H := 12) (by decide) post
  have hnil : post = [] := eq_nil_of_length_eq_zero (by omega)
  exact ⟨pre, by rw [hnil]⟩

theorem Sound.rtAlign_le (hs : Sound h bs) (hn : n ≤ h.memSizeAligned) :
    rtAlign n ≤ h.memSizeAligned := by
  have hbound := hs.tiled.bound
  have hdvd : 4 ∣ h.heapEnd := hs.tiled.extent_eq ▸ dvd_extent (by decide) hs.size_aligned
  rw [heapEnd] at hbound hdvd
  rw [rtAlign_of_le (by omega)]
  omega

theorem Sound.serves_iff (hs : Sound h bs) (hlow : Lowest h bs) (hpos : 0 < n)
    (hn : n ≤ h.memSizeAligned) :
    h.Serves n ↔ ∃ r ∈ placed 12 0 bs, r.2.used = false ∧ request n ≤ r.2.size ∧
      ¬(r.1 + 12 + r.2.size = h.heapEnd ∧ r.2.size = request n) := by
  rw [Serves, hs.tiled.blocks_eq]
  constructor
  · rintro ⟨-, -, r, hr, hfit⟩
    have hparts := hfit
    simp only [fits, decide_eq_true_eq] at hparts
    obtain ⟨-, -, hfree, hsize⟩ := hparts
    exact ⟨r, hr, hfree, hsize, (hs.fits_iff hlow hr hfree hsize).mp hfit⟩
  · rintro ⟨r, hr, hfree, hsize, hne⟩
    exact ⟨ne_of_gt hpos, hs.rtAlign_le hn, r, hr, (hs.fits_iff hlow hr hfree hsize).mpr hne⟩

/-- While `lfree` is the lowest free block, only an exact fit at the end is missed. -/
theorem Sound.complete_iff (hs : Sound h bs) (hlow : Lowest h bs) (hpos : 0 < n)
    (hn : n ≤ h.memSizeAligned) : Complete h n ↔ LastGuard h n := by
  have hserves_iff := hs.serves_iff hlow hpos hn
  have hextent := hs.tiled.extent_eq
  have hend : h.heapEnd = h.memSizeAligned + 12 := rfl
  rw [Complete, LastGuard, hs.tiled.blocks_eq]
  by_cases hserves : h.Serves n
  · -- a block is found, and it is not the one that is missed
    obtain ⟨x, g, h', bs', heq, -⟩ := hs.rtMalloc hserves
    refine iff_of_true (fun ⟨h'', hnull⟩ => ?_) fun pre hpre => ?_
    · exact absurd (Prod.mk.inj (some.inj (heq.symm.trans hnull))).1 (some_ne_none _)
    · obtain ⟨r, hr, hfree, hsize, hne⟩ := hserves_iff.mp hserves
      subst hpre
      rw [placed_append, mem_append] at hr
      rcases hr with hr | hr
      · exact ⟨r.2, mem_of_mem_placed hr, hfree, hsize⟩
      · rw [extent_concat] at hextent
        rw [mem_singleton.mp hr] at hne
        simp only [zero_add, hextent, and_self, not_true_eq_false] at hne
  rcases hs.rtMalloc_fails hserves with hnull | ⟨hnone, htiny⟩
  · refine ⟨fun hcomplete pre hpre => ?_, fun hguard _ b hb hfree => ?_⟩
    · have hlast : (⟨request n, false⟩ : Block) ∈ bs := by
        rw [hpre]
        exact mem_append_right _ (mem_singleton_self _)
      exact absurd (hcomplete ⟨h, hnull⟩ _ hlast rfl) (lt_irrefl _)
    · -- a block that is missed is the last one, and another one would be found
      by_contra hlarge
      obtain ⟨r, hr, rfl⟩ := exists_placed (H := 12) hb
      have hsize : request n ≤ r.2.size := Nat.le_of_not_lt hlarge
      have hexact : r.1 + 12 + r.2.size = h.heapEnd ∧ r.2.size = request n := by
        by_contra hne
        exact hserves (hserves_iff.mpr ⟨r, hr, hfree, hsize, hne⟩)
      obtain ⟨pre, hpre⟩ := hs.tiled.last hr hexact.1
      have hblock : r.2 = ⟨request n, false⟩ := by rw [← hexact.2, ← hfree]
      rw [hblock] at hpre
      obtain ⟨c, hc, hcfree, hcsize⟩ := hguard pre hpre
      obtain ⟨q, hq, rfl⟩ := exists_placed (H := 12) hc
      have hbefore := (placed_bounds hq).2
      rw [hpre, extent_concat] at hextent
      refine hserves (hserves_iff.mpr ⟨q, ?_, hcfree, hcsize, fun hcontra => ?_⟩)
      · rw [hpre, placed_append]
        exact mem_append_left _ hq
      · omega
  · refine iff_of_true (fun ⟨h', heq⟩ => ?_) fun pre hpre => ?_
    · exact absurd (hnone.symm.trans heq) (some_ne_none _).symm
    · have hmin : 12 ≤ request n := le_max_right ..
      rw [hpre, extent_concat] at hextent
      simp only at hextent
      omega

namespace Session

variable {s : Session} {ram : Cells} {beginAddr endAddr : UInt32}

/-- Each call of `rt_malloc` that fails has no block to return. -/
def FirstFit (s : Session) : Use → Prop
  | .malloc n => 0 < n.toNat → n.toNat ≤ s.heap.memSizeAligned → Complete s.heap n.toNat
  | _ => True

/-- What a call of `rt_malloc` has to find. -/
def LastFit (s : Session) : Use → Prop
  | .malloc n => 0 < n.toNat → n.toNat ≤ s.heap.memSizeAligned → LastGuard s.heap n.toNat
  | _ => True

/-- What the steps have to find. -/
def FitGuard (s : Session) (e : Use) : Prop := s.LowestGuard e ∧ s.LastFit e

/-- The invariant of the runs in which `lfree` is never left behind. -/
def Ordered (s : Session) : Prop := ∃ bs, Valid s bs ∧ Lowest s.heap bs

theorem Ordered.notPast (hs : Ordered s) : NotPast s.heap := by
  obtain ⟨bs, hv, hlow⟩ := hs
  exact hv.sound.notPast_iff.mpr hlow

theorem Ordered.firstFit_iff (hs : Ordered s) (e : Use) : s.FirstFit e ↔ s.LastFit e := by
  obtain ⟨bs, hv, hlow⟩ := hs
  cases e with
  | malloc n => exact forall₂_congr fun hpos hn => hv.sound.complete_iff hlow hpos hn
  | realloc | free | store => exact Iff.rfl

theorem Ordered.step {s' : Session} {e : Use} (hs : Ordered s) (hstep : s.step e = some s') :
    (s.LowestGuard e → Ordered s') ∧ (NotPast s'.heap → s.LowestGuard e) := by
  obtain ⟨bs, hv, hlow⟩ := hs
  obtain ⟨bs', hfollows⟩ := hv.step hstep
  have hiff := hfollows.lowest hlow
  refine ⟨fun hguard => ⟨bs', hfollows.valid, hiff.mpr hguard⟩, fun hnot => hiff.mp ?_⟩
  exact hfollows.valid.sound.notPast_iff.mp hnot

/-- **First fit.**  In every run `lfree` is never behind a free block and each call of
`rt_malloc` for 1 to `mem_size_aligned` bytes that returns null finds no free block of the
size it looks for, if and only if `rt_realloc` cuts a block only when `lfree` is in front of
it or is the next one, and a call of `rt_malloc` that finds the last block free and of
exactly that size finds another one. -/
theorem first_fit_iff (hinit : rtSystemHeapInit ram beginAddr.toNat endAddr.toNat = some h)
    (events : List Use) :
    Always step (fun s => NotPast s.heap) ⟨h, []⟩ events ∧ Meets step FirstFit ⟨h, []⟩ events ↔
      Meets step FitGuard ⟨h, []⟩ events := by
  obtain ⟨hsound, hlowest⟩ := sound_rtSystemHeapInit endAddr.toNat_lt hinit
  have hstart : Ordered ⟨h, []⟩ := ⟨_, ⟨hsound, .refl [], fun hne => absurd rfl hne⟩, hlowest⟩
  have hkeep : ∀ s e s', Ordered s → s.LowestGuard e → s.step e = some s' → Ordered s' :=
    fun s e s' hs hguard hstep => (hs.step hstep).1 hguard
  have hlow : Always step (fun s => NotPast s.heap) ⟨h, []⟩ events ↔
      Meets step LowestGuard ⟨h, []⟩ events :=
    always_iff_meets (fun s hs => Ordered.notPast hs) hkeep
      (fun s e s' hs hstep => (Ordered.step hs hstep).2) hstart
  rw [hlow]
  unfold FitGuard
  rw [meets_and]
  refine and_congr_right fun hmeets => ?_
  exact (hmeets.always hkeep hstart).meets_congr fun s e hs => hs.firstFit_iff e

instance (s : Session) : (e : Use) → Decidable (s.LowestGuard e)
  | .realloc _ _ => inferInstanceAs (Decidable (_ → _ → _))
  | .malloc _ | .free _ | .store _ _ _ => inferInstanceAs (Decidable True)

instance (s : Session) : (e : Use) → Decidable (s.LastFit e)
  | .malloc _ => inferInstanceAs (Decidable (_ → _ → LastGuard _ _))
  | .realloc _ _ | .free _ | .store _ _ _ => inferInstanceAs (Decidable True)

instance (s : Session) (e : Use) : Decidable (s.FitGuard e) := inferInstanceAs (Decidable (_ ∧ _))

/-- A block is taken and cut, another one is taken, the first one is given back, and the
last request finds no block. -/
theorem first_fit_session :
    let events : List Use := [.malloc 40, .realloc 268 4, .malloc 10, .free 268, .malloc 60]
    (run step ⟨smallHeap, []⟩ events).map live = some [284] ∧
      Always step (fun s => NotPast s.heap) ⟨smallHeap, []⟩ events ∧
      Meets step FirstFit ⟨smallHeap, []⟩ events :=
  ⟨by decide +kernel, (first_fit_iff init_smallHeap _).mpr (by decide +kernel)⟩

/-- A heap of 64 data bytes does not serve a request for 64 bytes.  And when a block of 36
bytes is cut to 4 with a used block behind it, `lfree` stays at the end of the heap, and a
request for 12 bytes fails although the free part has 20. -/
theorem first_fit_misses :
    (∃ h', smallHeap.rtMalloc 64 = some (none, h')) ∧ smallHeap.blocks = [⟨64, false⟩] ∧
      ∃ s, run step ⟨smallHeap, []⟩ [.malloc 36, .malloc 12, .realloc 268 4] = some s ∧
        s.heap.blocks = [⟨4, true⟩, ⟨20, false⟩, ⟨16, true⟩] ∧ s.heap.lfree = s.heap.heapEnd ∧
        ∃ h', s.heap.rtMalloc 12 = some (none, h') := by
  have hexact : (smallHeap.rtMalloc 64).map Prod.fst = some none := by decide +kernel
  obtain ⟨⟨p, h'⟩, heq, rfl⟩ := map_eq_some_iff.mp hexact
  refine ⟨⟨h', heq⟩, by decide +kernel, exists_of_any (fun s =>
    s.heap.blocks = [⟨4, true⟩, ⟨20, false⟩, ⟨16, true⟩] ∧ s.heap.lfree = s.heap.heapEnd ∧
      (s.heap.rtMalloc 12).map Prod.fst = some none) (by decide +kernel) ?_⟩
  rintro s - ⟨hblocks, hlfree, hnull⟩
  obtain ⟨⟨q, h''⟩, heq', rfl⟩ := map_eq_some_iff.mp hnull
  exact ⟨hblocks, hlfree, h'', heq'⟩

end Session

end Easyio.Kernel.Heap
