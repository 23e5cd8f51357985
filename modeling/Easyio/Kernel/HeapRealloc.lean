import Easyio.Kernel.HeapCalls

/-!
# Reallocation in the kernel heap

`rt_malloc`, `rt_free` and `rt_realloc` by the blocks in use before and after.  `Leaves
others h bs h' bs'` is what they have in common: the heap is sound, the blocks `others`
keep their data, no small block is new, and `lfree` is the lowest free block if it was.

`rt_realloc` cuts a block that is much too large (`Sound.shrink`) and otherwise takes
another one, copies and frees (`Sound.expand`).  The cut is the one operation that may
leave `lfree` behind: the part cut off is free, and `plug_holes` only moves `lfree` to it
when `lfree` is its next block.
-/

namespace Easyio.Kernel.Heap

open Blocks Bytes List Nor Option

variable {h h' h'' : Heap} {ptr n o size x : ℕ} {b : Block} {bs bs' bs'' pre post : List Block}
  {others others' : List (ℕ × Block)} {bytes : List UInt8}

/-- What a call leaves: a sound heap with the blocks `others`, and no new small block. -/
structure Leaves (others : List (ℕ × Block)) (h : Heap) (bs : List Block) (h' : Heap)
    (bs' : List Block) : Prop where
  sound : Sound h' bs'
  keeps : Keeps others h h'
  small : NoNewSmall bs bs'
  lowest : Lowest h bs → Lowest h' bs'

namespace Leaves

theorem refl (hs : Sound h bs) (others : List (ℕ × Block)) : Leaves others h bs h bs :=
  ⟨hs, .refl others h, .refl bs, id⟩

theorem trans (h₁ : Leaves others h bs h' bs') (h₂ : Leaves others h' bs' h'' bs'') :
    Leaves others h bs h'' bs'' :=
  ⟨h₂.sound, h₁.keeps.trans h₂.keeps, h₁.small.trans h₂.small,
    fun hlow => h₂.lowest (h₁.lowest hlow)⟩

theorem mono (hl : Leaves others h bs h' bs') (hsub : others' ⊆ others) :
    Leaves others' h bs h' bs' :=
  ⟨hl.sound, hl.keeps.mono hsub, hl.small, hl.lowest⟩

end Leaves

/-! ## Writing data -/

/-- Bytes written at the offset `o`. -/
def write (h : Heap) (o : ℕ) (bytes : List UInt8) : Heap :=
  { h with ram := overwrite h.ram o bytes }

theorem ram_write (hx : x < o ∨ o + bytes.length ≤ x) : (h.write o bytes).ram x = h.ram x :=
  hx.elim (overwrite_apply_of_lt bytes) overwrite_apply_of_ge

theorem mem_write (hx : x + 12 ≤ o ∨ o + bytes.length ≤ x) : (h.write o bytes).mem x = h.mem x := by
  refine congrArg heapMemCodec.decode (window_congr fun i hi => ram_write ?_)
  have hi : i < 12 := hi
  omega

section
variable (hs : Sound h bs) (hb : (ptr, b) ∈ inUse 12 0 bs) (hlow : ptr + 12 ≤ o)
  (hhigh : o + bytes.length ≤ ptr + 12 + b.size)
include hb hlow hhigh

/-- The data of a block in use lie between the headers. -/
theorem mem_write_start (hx : Start 12 0 bs x) : (h.write o bytes).mem x = h.mem x := by
  have houtside := hx.outside (mem_inUse.mp hb).1
  simp only at houtside
  exact mem_write (by omega)

include hs

theorem Sound.write : Sound (h.write o bytes) bs := by
  have hmem : ∀ z, Start 12 0 bs z → (h.write o bytes).mem z = h.mem z := fun _ =>
    mem_write_start hb hlow hhigh
  refine ⟨⟨hs.tiled.congr hmem rfl rfl, hs.heapPtr_aligned, hs.size_aligned, fun r hr => ?_,
    hs.inside, hs.usedMem, hs.freeStart⟩, hs.separate⟩
  rw [hmem r.1 (.of_placed (mem_inUse.mp hr).1)]
  exact hs.magic r hr

theorem Sound.write_leaves (hothers : ∀ r ∈ others, r ∈ inUse 12 0 bs ∧ r ≠ (ptr, b)) :
    Leaves others h bs (h.write o bytes) bs := by
  refine ⟨hs.write hb hlow hhigh, ⟨rfl, rfl, fun r hr => ?_, fun r hr i hi hi' => ?_⟩, .refl bs, id⟩
  · rw [mem_write_start hb hlow hhigh (.of_placed (mem_inUse.mp (hothers r hr).1).1)]
  · obtain ⟨hin, hne⟩ := hothers r hr
    rcases placed_apart (mem_inUse.mp hin).1 (mem_inUse.mp hb).1 with heq | hlt | hlt
    · exact absurd heq hne
    · exact ram_write (.inl (by simp only at hlt; omega))
    · exact ram_write (.inr (by simp only at hlt; omega))

end

/-! ## Taking a block and giving it back -/

theorem Sound.rtMalloc (hs : Sound h bs) (hserves : h.Serves n) :
    ∃ x g h' bs', h.rtMalloc n = some (some (h.addr x), h') ∧ max (rtAlign n) 12 ≤ g ∧
      (∃ total, (x, ⟨total, false⟩) ∈ placed 12 0 bs) ∧
      (inUse 12 0 bs').Perm ((x, ⟨g, true⟩) :: inUse 12 0 bs) ∧
      Leaves (inUse 12 0 bs) h bs h' bs' := by
  obtain ⟨pre, total, post, h', rfl, htotal, heq, hs', hkept, hlow⟩ := hs.rtMalloc_serves hserves
  have hgranted : max (rtAlign n) 12 ≤ granted 12 12 (max (rtAlign n) 12) total := le_granted htotal
  refine ⟨extent 12 pre, granted 12 12 (max (rtAlign n) 12) total, h', _, heq, hgranted,
    ⟨total, mem_placed_zero⟩, perm_inUse_carve, hs', hkept, ?_, hlow⟩
  refine NoNewSmall.replace _ extent_carve fun x c hc hsmall => ?_
  -- both parts of the block are large
  have hmem : c ∈ carve 12 12 (max (rtAlign n) 12) total := mem_of_mem_placed hc
  obtain ⟨rest, hcarve, hrest⟩ : ∃ rest, carve 12 12 (max (rtAlign n) 12) total =
      ⟨granted 12 12 (max (rtAlign n) 12) total, true⟩ :: rest ∧
        (rest = [] ∨ ∃ left, 12 ≤ left ∧ rest = [⟨left, false⟩]) := carve_eq_cons
  rw [hcarve, mem_cons] at hmem
  rcases hmem with rfl | hmem
  · exact absurd hsmall (by simp only; omega)
  · rcases hrest with rfl | ⟨left, hleft, rfl⟩
    · cases hmem
    · rw [mem_singleton.mp hmem] at hsmall
      exact absurd hsmall (by simp only; omega)

theorem Sound.rtFree_leaves (hs : Sound h bs) (hb : (ptr, b) ∈ inUse 12 0 bs) :
    ∃ h' bs', h.rtFree (some (h.addr ptr)) = some h' ∧
      (inUse 12 0 bs).Perm ((ptr, b) :: inUse 12 0 bs') ∧
      Leaves (inUse 12 0 bs') h bs h' bs' := by
  obtain ⟨hplace, hused⟩ := mem_inUse.mp hb
  obtain ⟨pre, post, rfl, hptr⟩ := mem_placed.mp hplace
  rw [Nat.zero_add] at hptr
  subst hptr
  obtain ⟨h', heq, hs', hkept, hlow⟩ := hs.rtFree hused
  refine ⟨h', _, heq, ?_, hs', ?_, ?_, hlow⟩
  · rw [inUse_coalesce]
    exact perm_inUse_release hused
  · rwa [inUse_coalesce]
  · have hfreed : NoNewSmall (pre ++ b :: post) (pre ++ ([⟨b.size, false⟩] ++ post)) := by
      refine .replace _ rfl fun x c hc _ => ?_
      obtain ⟨rfl, rfl⟩ := Prod.mk.inj (mem_singleton.mp hc)
      exact ⟨rfl, rfl⟩
    exact hfreed.trans (noNewSmall_coalesce _)

/-! ## Cutting a block -/

theorem lowest_cut_iff {lfree : ℕ} (hb : b.used = true) (hsize : n + 12 ≤ b.size)
    (hlow : lfree = firstFree 12 0 (pre ++ b :: post)) (stop : ℕ) :
    (if lfree = extent 12 pre + 12 + b.size ∧ lfree ≠ stop then extent 12 pre + 12 + n else lfree) =
        firstFree 12 0 (pre ++ ⟨n, true⟩ :: ⟨b.size - n - 12, false⟩ :: post) ↔
      lfree < extent 12 pre ∨ lfree = extent 12 pre + 12 + b.size ∧ lfree ≠ stop := by
  have hfirst : (⟨0, false⟩ : Block).used = false := rfl
  rcases firstFree_middle (H := 12) 0 pre post (by decide) hfirst with ⟨hused, -⟩ | ⟨hfree, hlt⟩
  · -- the lowest block is behind the one that is cut
    rw [firstFree_append_of_used hused, firstFree, if_pos hb, Nat.zero_add] at hlow
    have hbehind := le_firstFree (H := 12) (extent 12 pre + 12 + b.size) post
    have hnew : firstFree 12 0 (pre ++ ⟨n, true⟩ :: ⟨b.size - n - 12, false⟩ :: post) =
        extent 12 pre + 12 + n := by
      simp [firstFree_append_of_used hused, firstFree]
    split <;> omega
  · -- and here in front of it
    rw [firstFree_append_of_free hfree] at hlt
    rw [firstFree_append_of_free hfree] at hlow ⊢
    split <;> omega

/-- `rt_realloc` to a size that leaves room for another block. -/
theorem Sound.shrink (hs : Sound h bs) (hb : (ptr, b) ∈ inUse 12 0 bs) (hsize : n + 24 < b.size)
    (halign : 4 ∣ n) :
    ∃ h' bs' others, h.shrink ptr b.size n = some h' ∧
      (inUse 12 0 bs).Perm ((ptr, b) :: others) ∧
      (inUse 12 0 bs').Perm ((ptr, ⟨n, true⟩) :: others) ∧
      Sound h' bs' ∧ Keeps (inUse 12 0 bs') h h' ∧ (12 ≤ n → NoNewSmall bs bs') ∧
      (Lowest h bs → (Lowest h' bs' ↔
        h.lfree < ptr ∨ h.lfree = ptr + 12 + b.size ∧ h.lfree ≠ h.heapEnd)) := by
  obtain ⟨hplace, hused⟩ := mem_inUse.mp hb
  obtain ⟨pre, post, rfl, hptr⟩ := mem_placed.mp hplace
  rw [Nat.zero_add] at hptr
  subst hptr
  have hfits : n + 12 ≤ b.size := by omega
  obtain ⟨hloose, hkept, hlfree⟩ := hs.cut hused hfits halign
  have hpre : Separate pre := (isChain_append.mp hs.separate).1
  have hpost : Separate post := (isChain_cons.mp (isChain_append.mp hs.separate).2.1).2
  have hpart : Separate (pre ++ [⟨n, true⟩]) := separate_append_used hpre rfl (isChain_singleton _)
  have hlist : pre ++ ⟨n, true⟩ :: ⟨b.size - n - 12, false⟩ :: post =
      (pre ++ [⟨n, true⟩]) ++ ⟨b.size - n - 12, false⟩ :: post := by
    rw [append_assoc, singleton_append]
  have hlast := hloose.tiled.lfree_plugHoles rfl rfl hloose.freeStart
  rw [hlist] at hloose hkept
  obtain ⟨h', heq, hvalue, hs', hkept', -⟩ := hloose.plugHoles rfl hpart hpost
  rw [extent_concat] at heq hvalue
  refine ⟨h', _, _, heq, perm_inUse_release hused, ?_, hs', ?_, fun hmin => ?_, fun hlow => ?_⟩
  · rw [inUse_coalesce, ← hlist]
    exact perm_inUse_cut hfits
  · rw [inUse_coalesce]
    exact hkept.trans hkept'
  · have hcut : NoNewSmall (pre ++ b :: post)
        (pre ++ ([⟨n, true⟩, ⟨b.size - n - 12, false⟩] ++ post)) := by
      refine .replace _ ?_ fun x c hc hsmall => absurd hsmall (Nat.not_lt.mpr ?_)
      · simp only [extent]
        omega
      · have hmem : c ∈ [⟨n, true⟩, ⟨b.size - n - 12, false⟩] := mem_of_mem_placed hc
        rcases mem_cons.mp hmem with rfl | hmem
        · exact hmin
        · rw [mem_singleton.mp hmem]
          simp only
          omega
    rw [← hlist]
    exact hcut.trans (noNewSmall_coalesce _)
  · rw [Lowest, firstFree_coalesce, ← hlist, hvalue, hlast, hlfree, hkept.heapEnd,
      show extent 12 pre + 12 + n + 12 + (b.size - n - 12) = extent 12 pre + 12 + b.size by omega]
    exact lowest_cut_iff hused hfits hlow h.heapEnd

/-! ## Moving a block -/

/-- `rt_realloc` that takes another block, copies and frees the old one. -/
theorem Sound.expand (hs : Sound h bs) (hb : (ptr, b) ∈ inUse 12 0 bs) (hserves : h.Serves n)
    (halign : rtAlign n = n) :
    ∃ x g h' bs' others, h.expand (h.addr ptr) b.size n = some (some (h.addr x), h') ∧
      max n 12 ≤ g ∧ (inUse 12 0 bs).Perm ((ptr, b) :: others) ∧
      (inUse 12 0 bs').Perm ((x, ⟨g, true⟩) :: others) ∧
      (∀ i < min b.size n, h'.ram (x + 12 + i) = h.ram (ptr + 12 + i)) ∧
      Leaves others h bs h' bs' := by
  obtain ⟨x, g, h₁, bs₁, heq₁, hg, ⟨total, hfree⟩, hperm₁, hleaves₁⟩ := hs.rtMalloc hserves
  rw [halign] at hg
  set count := if b.size < n then b.size else n with hcount
  have hnew : (x, ⟨g, true⟩) ∈ inUse 12 0 bs₁ := hperm₁.mem_iff.mpr mem_cons_self
  have hold : ∀ r ∈ inUse 12 0 bs, r ∈ inUse 12 0 bs₁ ∧ r ≠ (x, ⟨g, true⟩) := by
    refine fun r hr => ⟨hperm₁.mem_iff.mpr (mem_cons_of_mem _ hr), ?_⟩
    rintro rfl
    have hsame := placed_unique (by decide) (mem_inUse.mp hr).1 hfree
    exact absurd (congrArg Block.used hsame) Bool.true_eq_false.mp
  -- the copy goes into the new block
  set data := window h₁.ram (ptr + 12) count with hdata
  have hlength : data.length = count := by simp [hdata, window]
  have hcount_le : count ≤ n := by
    rw [hcount]
    split <;> omega
  have hroom : x + 12 + data.length ≤ x + 12 + g := by omega
  have hcopied : Leaves (inUse 12 0 bs) h₁ bs₁ (h₁.write (x + 12) data) bs₁ :=
    hleaves₁.sound.write_leaves hnew (Nat.le_refl _) hroom hold
  have hoffset : ∀ z, h.addr z - h₁.heapPtr = z + 12 := by
    intro z
    rw [hleaves₁.keeps.heapPtr, addr]
    omega
  have hmemcpy : h₁.rtMemcpy (h.addr x) (h.addr ptr) count = h₁.write (x + 12) data := by
    rw [rtMemcpy, hoffset, hoffset]
    rfl
  have haddr : (h₁.write (x + 12) data).addr ptr = h.addr ptr := by
    simp only [addr, (hleaves₁.keeps.trans hcopied.keeps).heapPtr]
  -- the old block is still in use and is freed
  obtain ⟨h', bs', heq', hperm', hleaves'⟩ := hcopied.sound.rtFree_leaves (hold _ hb).1
  rw [haddr] at heq'
  obtain ⟨others, hothers⟩ : ∃ others, (inUse 12 0 bs).Perm ((ptr, b) :: others) :=
    ⟨(inUse 12 0 bs).erase (ptr, b), perm_cons_erase hb⟩
  have hrest : (inUse 12 0 bs').Perm ((x, ⟨g, true⟩) :: others) := by
    have hboth : (inUse 12 0 bs₁).Perm ((ptr, b) :: (x, ⟨g, true⟩) :: others) :=
      hperm₁.trans ((hothers.cons _).trans (.swap ..))
    exact (perm_cons _).mp (hperm'.symm.trans hboth)
  have hsub : others ⊆ inUse 12 0 bs := fun r hr => hothers.mem_iff.mpr (mem_cons_of_mem _ hr)
  have hsub' : others ⊆ inUse 12 0 bs' := fun r hr => hrest.mem_iff.mpr (mem_cons_of_mem _ hr)
  refine ⟨x, g, h', bs', others, ?_, hg, hothers, hrest, fun i hi => ?_,
    (hleaves₁.trans hcopied |>.mono hsub).trans (hleaves'.mono hsub')⟩
  · rw [Heap.expand, heq₁, bind_some]
    simp only [← hcount, hmemcpy, heq', map_some]
  · have hlt : i < data.length := by
      rw [hlength, hcount]
      split <;> omega
    have hin : (x, ⟨g, true⟩) ∈ inUse 12 0 bs' := hrest.mem_iff.mpr mem_cons_self
    calc h'.ram (x + 12 + i)
        = (h₁.write (x + 12) data).ram (x + 12 + i) :=
          hleaves'.keeps.data _ hin _ (Nat.le_add_right ..) (by simp only; omega)
      _ = data[i] := overwrite_apply_of_mem hlt
      _ = h₁.ram (ptr + 12 + i) := by simp [hdata, window]
      _ = h.ram (ptr + 12 + i) :=
          hleaves₁.keeps.data _ hb _ (Nat.le_add_right ..) (by simp only; omega)

/-! ## The outcomes -/

/-- The outcomes of `rt_realloc` of the block `b` at `ptr` for a request of `n` bytes, a
multiple of 4. -/
inductive Reallocated (h : Heap) (bs : List Block) (ptr : ℕ) (b : Block) (n : ℕ) :
    Option ℕ → Heap → List Block → Prop
  | tooLarge (hn : h.memSizeAligned < n) : Reallocated h bs ptr b n none h bs
  | same (hn : n ≤ h.memSizeAligned) (hsize : b.size = n) :
      Reallocated h bs ptr b n (some (h.addr ptr)) h bs
  | cut {h' : Heap} {bs' : List Block} (others : List (ℕ × Block))
      (hn : n ≤ h.memSizeAligned) (hsize : n + 24 < b.size)
      (hbefore : (inUse 12 0 bs).Perm ((ptr, b) :: others))
      (hafter : (inUse 12 0 bs').Perm ((ptr, ⟨n, true⟩) :: others))
      (hsound : Sound h' bs') (hkeeps : Keeps (inUse 12 0 bs') h h')
      (hsmall : 12 ≤ n → NoNewSmall bs bs')
      (hlowest : Lowest h bs → (Lowest h' bs' ↔
        h.lfree < ptr ∨ h.lfree = ptr + 12 + b.size ∧ h.lfree ≠ h.heapEnd)) :
      Reallocated h bs ptr b n (some (h.addr ptr)) h' bs'
  | noRoom (hn : n ≤ h.memSizeAligned) (hne : b.size ≠ n) (hsize : b.size ≤ n + 24)
      (hserves : ¬h.Serves n) : Reallocated h bs ptr b n none h bs
  | moved {x : ℕ} {h' : Heap} {bs' : List Block} (g : ℕ) (others : List (ℕ × Block))
      (hn : n ≤ h.memSizeAligned) (hne : b.size ≠ n) (hsize : b.size ≤ n + 24)
      (hserves : h.Serves n) (hg : max n 12 ≤ g)
      (hbefore : (inUse 12 0 bs).Perm ((ptr, b) :: others))
      (hafter : (inUse 12 0 bs').Perm ((x, ⟨g, true⟩) :: others))
      (hcopied : ∀ i < min b.size n, h'.ram (x + 12 + i) = h.ram (ptr + 12 + i))
      (hleaves : Leaves others h bs h' bs') :
      Reallocated h bs ptr b n (some (h.addr x)) h' bs'

theorem rtAlign_rtAlign (n : ℕ) : rtAlign (rtAlign n) = rtAlign n := by
  unfold rtAlign
  omega

theorem Sound.rtRealloc (hs : Sound h bs) (hb : (ptr, b) ∈ inUse 12 0 bs)
    (hmin : 12 ≤ h.memSizeAligned) (newsize : ℕ) :
    ∃ result h' bs', h.rtRealloc (some (h.addr ptr)) newsize = some (result, h') ∧
      Reallocated h bs ptr b (rtAlign newsize) result h' bs' := by
  have hplace := (mem_inUse.mp hb).1
  have hinside : ptr + 12 < h.heapEnd := hs.inside _ hb
  have hsize : sub32 (sub32 (h.mem ptr).next ptr) 12 = b.size := by
    have := hs.usable_eq hplace
    rwa [usable, hs.sub32_addr hplace] at this
  have halign : 4 ∣ rtAlign newsize := Nat.dvd_mul_left ..
  have hrange : ¬(h.addr ptr < h.heapPtr ∨ h.heapPtr + h.heapEnd ≤ h.addr ptr) := by
    rw [addr]
    omega
  unfold Heap.rtRealloc
  simp only [hs.sub32_addr hplace, hsize]
  split
  · next hn => exact ⟨none, h, bs, rfl, .tooLarge hn⟩
  next hn =>
  have hn : rtAlign newsize ≤ h.memSizeAligned := Nat.le_of_not_lt hn
  split
  · next heq => exact ⟨_, h, bs, rfl, .same hn heq⟩
  next hne =>
  split
  · next hlt =>
      obtain ⟨h', bs', others, heq, hbefore, hafter, hs', hkeeps, hsmall, hlow⟩ :=
        hs.shrink hb (by omega) halign
      refine ⟨_, h', bs', ?_, .cut others hn (by omega) hbefore hafter hs' hkeeps hsmall hlow⟩
      rw [heq, map_some]
  · next hle =>
      have hle : b.size ≤ rtAlign newsize + 24 := by omega
      by_cases hserves : h.Serves (rtAlign newsize)
      · obtain ⟨x, g, h', bs', others, heq, hg, hbefore, hafter, hcopied, hleaves⟩ :=
          hs.expand hb hserves (rtAlign_rtAlign newsize)
        exact ⟨_, h', bs', heq,
          .moved g others hn hne hle hserves hg hbefore hafter hcopied hleaves⟩
      · refine ⟨none, h, bs, ?_, .noRoom hn hne hle hserves⟩
        rcases hs.rtMalloc_fails hserves with hnull | ⟨-, htiny⟩
        · rw [Heap.expand, hnull, bind_some]
        · omega

end Easyio.Kernel.Heap
