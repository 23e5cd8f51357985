import Easyio.Bytes.Record

/-!
# Aligned blocks

`rt_malloc_align` and `rt_free_align` of `src/kservice.c`.

The block comes from `rt_malloc`, which is a parameter.  The pointer that is returned
lies inside of it, and the word before the pointer holds the address of the block.
-/

namespace Easyio.Kernel

open BitVec Bytes Nat Nor

/-! ## Masks -/

section Masks

variable {w k : ℕ} {x mask : BitVec w}

theorem toNat_and_mask (hmask : mask.toNat = 2 ^ k - 1) : (x &&& mask).toNat = x.toNat % 2 ^ k := by
  rw [toNat_and, hmask, and_two_pow_sub_one_eq_mod]

theorem toNat_and_not_mask (hmask : mask.toNat = 2 ^ k - 1) :
    (x &&& ~~~mask).toNat = x.toNat / 2 ^ k * 2 ^ k := by
  have hshift : x &&& ~~~mask = (x >>> k) <<< k := by
    apply eq_of_getLsbD_eq
    intro i hi
    have hbit : mask.getLsbD i = decide (i < k) := by
      rw [← testBit_toNat, hmask, Nat.testBit_two_pow_sub_one]
    rw [getLsbD_and, getLsbD_not, hbit]
    by_cases hk : i < k
    · simp [hk]
    · simp [hk, hi, Nat.add_sub_cancel' (Nat.le_of_not_lt hk)]
  rw [hshift, toNat_shiftLeft, toNat_ushiftRight, Nat.shiftLeft_eq,
    Nat.shiftRight_eq_div_pow]
  exact Nat.mod_eq_of_lt (Nat.lt_of_le_of_lt (Nat.div_mul_le_self ..) x.isLt)

end Masks

/-! ## The two functions -/

/-- A pointer in memory. -/
def wordCodec : Codec (BitVec 32) where
  size := 4
  encode v := le32 (UInt32.ofBitVec v)
  decode bytes := (getLe32 bytes 0).toBitVec
  Fits _ := True
  length_encode _ := rfl
  decode_encode v _ := by
    have h := getLe32_le32 [] [] (UInt32.ofBitVec v)
    rw [List.nil_append, List.append_nil] at h
    exact congrArg UInt32.toBitVec h
  fits_decode _ := trivial

/-- The memory, with whatever else `rt_malloc` and `rt_free` keep. -/
structure Memory (σ : Type*) where
  ram : Cells
  rest : σ

variable {σ : Type*}

/-- `align`, rounded up to words. -/
def wordAlign (align : BitVec 32) : BitVec 32 := (align + 3#32) &&& ~~~3#32

/-- `align_size` -/
def alignSize (size align : BitVec 32) : BitVec 32 := ((size + 3#32) &&& ~~~3#32) + wordAlign align

/-- `align_ptr`, for an `align` that was rounded. -/
def alignPtr (ptr align : BitVec 32) : BitVec 32 :=
  if ptr &&& (align - 1#32) = 0#32 then ptr + align
  else (ptr + (align - 1#32)) &&& ~~~(align - 1#32)

def rtMallocAlign (rtMalloc : Memory σ → BitVec 32 → Option (BitVec 32) × Memory σ)
    (m : Memory σ) (size align : BitVec 32) : Option (BitVec 32) × Memory σ :=
  match rtMalloc m (alignSize size align) with
  | (none, m) => (none, m)
  | (some ptr, m) =>
    let p := alignPtr ptr (wordAlign align)
    (some p, { m with ram := store wordCodec m.ram (p - 4#32).toNat ptr })

def rtFreeAlign (rtFree : Memory σ → BitVec 32 → Memory σ) (m : Memory σ) (ptr : BitVec 32) :
    Memory σ :=
  rtFree m (load wordCodec m.ram (ptr - 4#32).toNat)

/-- What is assumed of `rt_malloc`: its blocks are aligned to words and end inside of the
address space. -/
def Serves (rtMalloc : Memory σ → BitVec 32 → Option (BitVec 32) × Memory σ) : Prop :=
  ∀ m n ptr m', rtMalloc m n = (some ptr, m') → 4 ∣ ptr.toNat ∧ ptr.toNat + n.toNat < 2 ^ 32

/-- The sums of `rt_malloc_align` before the call of `rt_malloc` do not wrap. -/
structure NoWrap (size align : BitVec 32) : Prop where
  align_add : align.toNat + 3 < 2 ^ 32
  size_add : size.toNat + 3 < 2 ^ 32
  total : ((size + 3#32) &&& ~~~3#32).toNat + (wordAlign align).toNat < 2 ^ 32

/-! ## Where the pointer lies -/

section Pointer

variable {size align ptr p : BitVec 32} {k : ℕ}

/-- `(n + 3) & ~3` -/
theorem toNat_roundUp {n : BitVec 32} (h : n.toNat + 3 < 2 ^ 32) :
    ((n + 3#32) &&& ~~~3#32).toNat = (n.toNat + 3) / 4 * 4 := by
  have hmask : (3#32).toNat = 2 ^ 2 - 1 := rfl
  rw [toNat_and_not_mask hmask, toNat_add_of_lt h]
  rfl

theorem toNat_wordAlign (hk : k < 32) : (wordAlign (twoPow 32 k)).toNat = 2 ^ max k 2 := by
  have hle : 2 ^ k ≤ 2 ^ 31 := Nat.pow_le_pow_right (Nat.le_add_left 1 1) (Nat.le_of_lt_succ hk)
  have halign : (twoPow 32 k).toNat = 2 ^ k := by
    rw [toNat_twoPow, mod_eq_of_lt (by omega)]
  rw [wordAlign, toNat_roundUp (by omega), halign]
  rcases lt_or_ge k 2 with hlt | hge
  · obtain rfl | rfl : k = 0 ∨ k = 1 := by omega
    all_goals rfl
  · rw [max_eq_left hge]
    obtain ⟨j, rfl⟩ := Nat.exists_eq_add_of_le hge
    rw [pow_add]
    omega

theorem toNat_alignSize (h : NoWrap size align) :
    (alignSize size align).toNat = (size.toNat + 3) / 4 * 4 + (wordAlign align).toNat := by
  rw [alignSize, toNat_add_of_lt h.total, toNat_roundUp h.size_add]

theorem toNat_alignPtr (halign : align.toNat = 2 ^ k) (hend : ptr.toNat + align.toNat < 2 ^ 32) :
    (alignPtr ptr align).toNat = (ptr.toNat / 2 ^ k + 1) * 2 ^ k := by
  have hpos := Nat.two_pow_pos k
  have hmask : (align - 1#32).toNat = 2 ^ k - 1 := by
    rw [toNat_sub_of_le, halign]
    · rfl
    · rw [le_def, halign]
      exact hpos
  have hdiv := div_add_mod ptr.toNat (2 ^ k)
  unfold alignPtr
  split_ifs with hzero
  · have hmod : ptr.toNat % 2 ^ k = 0 := by
      rw [← toNat_and_mask hmask, hzero]
      rfl
    rw [toNat_add_of_lt hend, Nat.add_mul, Nat.mul_comm]
    omega
  · have hmod : ptr.toNat % 2 ^ k ≠ 0 := by
      intro hmod
      rw [← toNat_and_mask hmask] at hmod
      exact hzero (eq_of_toNat_eq hmod)
    rw [toNat_and_not_mask hmask, toNat_add_of_lt (by omega)]
    refine congrArg (· * 2 ^ k) (Nat.div_eq_of_lt_le ?_ ?_)
    · rw [Nat.add_mul, Nat.mul_comm]
      omega
    · rw [Nat.add_mul, Nat.add_mul, Nat.mul_comm]
      omega

/-- It lies a word or more behind the start, and not more than the alignment. -/
theorem alignPtr_bounds (halign : align.toNat = 2 ^ k) (hk : 2 ≤ k) (hptr : 4 ∣ ptr.toNat)
    (hend : ptr.toNat + align.toNat < 2 ^ 32) :
    ptr.toNat + 4 ≤ (alignPtr ptr align).toNat ∧
      (alignPtr ptr align).toNat ≤ ptr.toNat + align.toNat := by
  have hdiv := div_add_mod ptr.toNat (2 ^ k)
  have hp := toNat_alignPtr halign hend
  have hfour : 4 ∣ (alignPtr ptr align).toNat := by
    rw [hp]
    exact Nat.dvd_mul_left_of_dvd (Nat.pow_dvd_pow 2 hk) _
  rw [Nat.add_mul, Nat.mul_comm] at hp
  omega

end Pointer

/-- A block that is returned is aligned, it and the word before it lie inside of the block
that `rt_malloc` has given, and freeing it frees that block, as long as the word before it
is not changed. -/
theorem rtMallocAlign_sound {rtMalloc : Memory σ → BitVec 32 → Option (BitVec 32) × Memory σ}
    (hmalloc : Serves rtMalloc) (rtFree : Memory σ → BitVec 32 → Memory σ) {m m' : Memory σ}
    {size p : BitVec 32} {k : ℕ} (hk : k < 32) (hwrap : NoWrap size (twoPow 32 k))
    (h : rtMallocAlign rtMalloc m size (twoPow 32 k) = (some p, m')) :
    ∃ ptr m₁, rtMalloc m (alignSize size (twoPow 32 k)) = (some ptr, m₁) ∧
      2 ^ k ∣ p.toNat ∧ ptr.toNat + 4 ≤ p.toNat ∧
      p.toNat + size.toNat ≤ ptr.toNat + (alignSize size (twoPow 32 k)).toNat ∧
      ∀ later : Memory σ, (∀ i < 4, later.ram (p.toNat - 4 + i) = m'.ram (p.toNat - 4 + i)) →
        rtFreeAlign rtFree later p = rtFree later ptr := by
  unfold rtMallocAlign at h
  split at h
  · cases h
  · rename_i ptr m₁ hserved
    obtain ⟨hp, rfl⟩ := Prod.mk.inj h
    obtain rfl := Option.some.inj hp
    obtain ⟨hptr, hend⟩ := hmalloc _ _ _ _ hserved
    have halign := toNat_wordAlign hk
    have hsize := toNat_alignSize hwrap
    have hfits : ptr.toNat + (wordAlign (twoPow 32 k)).toNat < 2 ^ 32 := by omega
    have hdvd := toNat_alignPtr halign hfits
    obtain ⟨hlow, hhigh⟩ := alignPtr_bounds halign (le_max_right k 2) hptr hfits
    generalize alignPtr ptr (wordAlign (twoPow 32 k)) = p at *
    have hword : (p - 4#32).toNat = p.toNat - 4 := by
      refine toNat_sub_of_le ?_
      exact le_trans (le_add_left ..) hlow
    refine ⟨ptr, m₁, hserved, ?_, hlow, by omega, fun later hlater => ?_⟩
    · rw [hdvd]
      exact Nat.dvd_mul_left_of_dvd (Nat.pow_dvd_pow 2 (Nat.le_max_left k 2)) _
    · refine congrArg (rtFree later) ?_
      rw [hword]
      have hsame : load wordCodec later.ram (p.toNat - 4) =
          load wordCodec (store wordCodec m₁.ram (p.toNat - 4) ptr) (p.toNat - 4) :=
        congrArg wordCodec.decode (window_congr fun i hi => by rw [hlater i hi, hword])
      rw [hsame, load_store trivial]

/-- Memory with a list of the pointers that were freed, and one block for small requests. -/
def onlyBlock (m : Memory (List (BitVec 32))) (n : BitVec 32) :
    Option (BitVec 32) × Memory (List (BitVec 32)) :=
  if n.toNat < 2 ^ 16 then (some 0x20000004#32, m) else (none, m)

def freeBlock (m : Memory (List (BitVec 32))) (ptr : BitVec 32) : Memory (List (BitVec 32)) :=
  { m with rest := ptr :: m.rest }

theorem serves_onlyBlock : Serves onlyBlock := by
  intro m n ptr m' h
  unfold onlyBlock at h
  split at h
  · obtain rfl := Option.some.inj (Prod.mk.inj h).1
    refine ⟨by decide, ?_⟩
    change 0x20000004 + n.toNat < 2 ^ 32
    omega
  · cases h

/-- Five bytes at a multiple of sixteen. -/
theorem rtMallocAlign_sound_sixteen :
    ∃ ptr m₁, onlyBlock ⟨fun _ => 0, []⟩ (alignSize 5#32 (twoPow 32 4)) = (some ptr, m₁) ∧
      2 ^ 4 ∣ (0x20000010#32).toNat ∧ ptr.toNat + 4 ≤ (0x20000010#32).toNat ∧
      (0x20000010#32).toNat + (5#32).toNat ≤
        ptr.toNat + (alignSize 5#32 (twoPow 32 4)).toNat ∧
      ∀ later : Memory (List (BitVec 32)), (∀ i < 4, later.ram ((0x20000010#32).toNat - 4 + i) =
          (rtMallocAlign onlyBlock ⟨fun _ => 0, []⟩ 5#32 (twoPow 32 4)).2.ram
            ((0x20000010#32).toNat - 4 + i)) →
        rtFreeAlign freeBlock later 0x20000010#32 = freeBlock later ptr :=
  rtMallocAlign_sound serves_onlyBlock freeBlock (by decide) ⟨by decide, by decide, by decide⟩ rfl

end Easyio.Kernel
