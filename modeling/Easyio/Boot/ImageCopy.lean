import Easyio.Boot.Rounds
import Mathlib.Data.List.Nodup

/-!
# The copied image

What `spiflash_2_chipflash` does to the program memory when it is called with a
size that passed the bootloader's check (`image_copy`): the partition holds the
payload, the 16-bit word counter counts the words without wrapping, each word is
programmed once, and neither the inclusive erase loop nor the last, filled up
word leaves the partition.

The size of the header is what keeps both in range.  The partition has exactly
2^16 words, so that a payload as large as the partition would take the counter
back to zero, and `flash_erase` would erase the page behind it.
-/

namespace Easyio.Boot

open List Crash W25q16 ChipFlash Config

variable {α : Type*} {size : ℕ} {op : ChipOp α}

/-- The addresses of the words that are programmed, in order. -/
def wordAddrs (ops : List (ChipOp α)) : List ℕ :=
  ops.filterMap fun
    | .programWord addr _ => some addr
    | .erasePage _ => none

/-- The page or word of an operation lies inside the application partition. -/
def InPartition : ChipOp α → Prop
  | .erasePage addr =>
    easyioAddress ≤ addr / 256 * 256 ∧ addr / 256 * 256 + 256 ≤ easyioAddress + easyioAppSize
  | .programWord addr word =>
    easyioAddress ≤ addr ∧ addr + word.length ≤ easyioAddress + easyioAppSize ∧ word.length = 4

theorem wordAddrs_append (first second : List (ChipOp α)) :
    wordAddrs (first ++ second) = wordAddrs first ++ wordAddrs second :=
  filterMap_append

/-! ## The erase loop -/

/-- `flash_erase` ends by itself, and erases the pages up to the one of its last
address. -/
theorem flashErase_eq {fuel first last : ℕ} (hle : first ≤ last)
    (hfuel : (last - first) / 256 < fuel) : (flashErase fuel first last : List (ChipOp α)) =
      (range ((last - first) / 256 + 1)).map fun k => .erasePage (first + k * 256) := by
  induction fuel generalizing first with
  | zero => omega
  | succ fuel ih =>
    rw [flashErase, if_pos hle, range_succ_eq_map, map_cons, map_map]
    congr 1
    by_cases hnext : first + 256 ≤ last
    · have hrest : (last - first) / 256 = (last - (first + 256)) / 256 + 1 := by omega
      rw [ih hnext (by omega), hrest]
      apply map_congr_left
      intro k _
      congr 1
      omega
    · have hlast : (last - first) / 256 = 0 := by omega
      rw [hlast, range_zero, map_nil]
      cases fuel with
      | zero => rfl
      | succ fuel => rw [flashErase, if_neg hnext]

theorem wordAddrs_flashErase (fuel first last : ℕ) :
    wordAddrs (flashErase fuel first last : List (ChipOp α)) = [] := by
  induction fuel generalizing first with
  | zero => rfl
  | succ fuel ih =>
    rw [flashErase]
    split
    · exact ih _
    · rfl

theorem inPartition_flashErase (hsize : size ≤ maxPayload)
    (hop : op ∈ flashErase (size + 1) easyioAddress (easyioAddress + size)) : InPartition op := by
  rw [flashErase_eq (by omega) (by omega)] at hop
  obtain ⟨k, hk, rfl⟩ := mem_map.mp hop
  have hk := mem_range.mp hk
  simp only [maxPayload, easyioAppSize, headerSize] at hsize
  simp only [InPartition, easyioAddress, easyioAppSize]
  omega

/-! ## The words -/

theorem wordAddrs_wordOps (start : ℕ) (data : List α) :
    wordAddrs (wordOps start data) =
      (range (data.length / 4)).map fun k => start + k * 4 := by
  rw [wordAddrs, wordOps, filterMap_map, ← filterMap_eq_map]
  rfl

theorem nodup_wordAddrs_wordOps (start : ℕ) (data : List α) :
    (wordAddrs (wordOps start data)).Nodup := by
  rw [wordAddrs_wordOps]
  refine Nodup.map ?_ nodup_range
  intro i j hij
  simp only at hij
  omega

theorem inPartition_wordOps {data : List α} (hdata : data.length ≤ easyioAppSize)
    (hop : op ∈ wordOps easyioAddress data) : InPartition op := by
  obtain ⟨k, hk, rfl⟩ := mem_map.mp hop
  have hk := mem_range.mp hk
  have hword : ((data.drop (k * 4)).take 4).length = 4 := by
    rw [length_take, length_drop]
    omega
  refine ⟨by omega, ?_, hword⟩
  omega

/-! ## The word counter -/

section

variable (s : Programmer α)
  (data : List α)
  (hindex : s.writeFlashBufferIndex = 0)
  (hcount : s.progWriteCnt = 0)
  (hlen : data.length + 4 < 2 ^ 18)
include s data hindex hcount hlen

theorem progWriteCnt_appendBuffer : (flashAppendBuffer s data).progWriteCnt = data.length / 4 := by
  obtain ⟨full, tail, rfl, h⟩ := filling_appendBuffer s data hindex hcount hlen
  have hwhole := h.whole
  have hroom := h.room
  rw [h.count_eq, length_append]
  omega

/-- The counter at the end: the words of the data, the last one filled up. -/
theorem progWriteCnt_appendEnd :
    (flashAppendEnd (flashAppendBuffer s data)).progWriteCnt = (data.length + 3) / 4 := by
  obtain ⟨full, tail, rfl, h⟩ := filling_appendBuffer s data hindex hcount hlen
  have hwhole := h.whole
  have hroom := h.room
  rw [length_append] at hlen ⊢
  unfold flashAppendEnd
  split
  · next hpos =>
      rw [h.index_eq] at hpos
      simp only [flushWord, h.count_eq]
      omega
  · next hnone =>
      rw [h.index_eq] at hnone
      rw [h.count_eq]
      omega

end

/-! ## The whole copy -/

/-- `spiflash_2_chipflash` into the application partition, with the operations that
it issues itself in `ops`. -/
def copyImage (spi : Nor.Cells) (spiAddress size : ℕ) (s : Programmer UInt8) :
    Programmer UInt8 × Bool :=
  spiflash2chipflash true spi spiAddress easyioAddress size { s with ops := [] }

/-- What the copy comes to. -/
structure ImageCopied (spi chip : Nor.Cells) (spiAddress size : ℕ) (s : Programmer UInt8) :
    Prop where
  returns : (copyImage spi spiAddress size s).2 = true
  /-- The partition holds the bytes of the SPI flash. -/
  image : Nor.window (replay chipApply chip (copyImage spi spiAddress size s).1.ops)
    easyioAddress size = readCells spi spiAddress size
  /-- After `k` bytes the counter is the number of words so far: it has not wrapped. -/
  counter : ∀ k ≤ size, (flashAppendBuffer (flashProgramStart easyioAddress size s)
    ((readCells spi spiAddress size).take k)).progWriteCnt = k / 4
  /-- Nor has it at the end. -/
  counter_end : (copyImage spi spiAddress size s).1.progWriteCnt = (size + 3) / 4
  /-- The words of the image, and no others, are programmed. -/
  words : wordAddrs (copyImage spi spiAddress size s).1.ops =
    (List.range ((size + 3) / 4)).map fun k => easyioAddress + k * 4
  once : (wordAddrs (copyImage spi spiAddress size s).1.ops).Nodup
  /-- The page of each of them has been erased. -/
  erased : ∀ addr ∈ wordAddrs (copyImage spi spiAddress size s).1.ops,
    .erasePage (addr / 256 * 256) ∈ (copyImage spi spiAddress size s).1.ops
  inside : ∀ op ∈ (copyImage spi spiAddress size s).1.ops, InPartition op

theorem length_readCells (cell : ℕ → α) (addr n : ℕ) : (readCells cell addr n).length = n := by
  simp [readCells]

theorem mem_flashErase_of_word {k : ℕ} (hk : k < (size + 3) / 4) :
    (.erasePage ((easyioAddress + k * 4) / 256 * 256) : ChipOp α) ∈
      flashErase (size + 1) easyioAddress (easyioAddress + size) := by
  rw [flashErase_eq (by omega) (by omega)]
  refine mem_map.mpr ⟨k * 4 / 256, mem_range.mpr (by omega), ?_⟩
  simp only [easyioAddress]
  congr 1
  omega

/-- **The image copy.**  Every size that passes the bootloader's check, every
content of either flash, every earlier state of the programmer. -/
theorem image_copy (spi chip : Nor.Cells) (spiAddress : ℕ) {size : ℕ} (s : Programmer UInt8)
    (hsize : size ≤ maxPayload) : ImageCopied spi chip spiAddress size s := by
  have hbound : size + 4 < 2 ^ 18 := by
    have : maxPayload + 4 < 2 ^ 18 := by decide
    omega
  have hlen := length_readCells spi spiAddress size
  obtain ⟨filler, hfiller, hops⟩ :=
    spiflash2chipflash_ops spi spiAddress easyioAddress { s with ops := [] } hbound
  have hwhole := hfiller.whole
  have hshort := hfiller.short
  have hlength : (readCells spi spiAddress size ++ filler).length = (size + 3) / 4 * 4 := by
    rw [length_append, hlen] at hwhole ⊢
    omega
  rw [nil_append, ← copyImage] at hops
  have hwords : wordAddrs (copyImage spi spiAddress size s).1.ops =
      (range ((size + 3) / 4)).map fun k => easyioAddress + k * 4 := by
    rw [hops, wordAddrs_append, wordAddrs_flashErase, nil_append, wordAddrs_wordOps, hlength,
      Nat.mul_div_cancel _ (by omega)]
  refine ⟨rfl, ?_, ?_, ?_, hwords, ?_, ?_, ?_⟩
  · have hwindow := window_replay_copy chip easyioAddress
      (flashErase (size + 1) easyioAddress (easyioAddress + size)) hwhole
    rwa [hlen, ← hops] at hwindow
  · intro k hk
    rw [progWriteCnt_appendBuffer _ _ rfl rfl (by rw [length_take, hlen]; omega),
      length_take, hlen, Nat.min_eq_left hk]
  · rw [copyImage, spiflash2chipflash]
    simp only [if_true]
    rw [copyLoop_eq _ _ (Nat.lt_succ_self size), progWriteCnt_appendEnd _ _ rfl rfl
      (by rw [length_readCells]; omega), length_readCells]
  · rw [hops, wordAddrs_append, wordAddrs_flashErase, nil_append]
    exact nodup_wordAddrs_wordOps _ _
  · intro addr haddr
    rw [hwords] at haddr
    obtain ⟨k, hk, rfl⟩ := mem_map.mp haddr
    rw [hops]
    exact mem_append_left _ (mem_flashErase_of_word (mem_range.mp hk))
  · intro op hop
    rw [hops, mem_append] at hop
    rcases hop with hop | hop
    · exact inPartition_flashErase hsize hop
    · refine inPartition_wordOps ?_ hop
      simp only [easyioAppSize]
      omega

/-- The largest payload, from the firmware region of an erased flash. -/
theorem image_copy_largest :
    maxPayload = 256 * 1024 - 23 ∧
      ImageCopied (fun _ => 0xFF) (fun _ => 0) (spiFlashFwAddress + headerSize) maxPayload
        (.reset 0) :=
  ⟨rfl, image_copy _ _ _ _ le_rfl⟩

end Easyio.Boot
