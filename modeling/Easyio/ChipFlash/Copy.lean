import Easyio.ChipFlash.Programmer

/-!
# What a copy programs

The word buffer is a staging buffer of four bytes, and the argument is that of
the sector session of the SPI flash: after any number of appended bytes the data
is `full ++ tail`, where `full` is whole words already issued and `tail` is still
in the buffer.

`FLASH_AppendEnd` programs the last word with whatever the rest of the buffer
holds.  Those bytes are left over from the word before, so they are bytes of the
data again, unless there was no word before.
-/

namespace Easyio.ChipFlash

open Crash Function List Nor W25q16

variable {α : Type*} {full word tail : List α} {first s : Programmer α} {data : List UInt8}

/-- The words of `data` programmed from `start` on. -/
def wordOps (start : ℕ) (data : List α) : List (ChipOp α) :=
  (List.range (data.length / 4)).map fun k =>
    .programWord (start + k * 4) ((data.drop (k * 4)).take 4)

theorem wordOps_append (start : ℕ) (hfull : full.length % 4 = 0) (hword : word.length = 4) :
    wordOps start (full ++ word) =
      wordOps start full ++ [.programWord (start + full.length) word] := by
  have hcount : (full ++ word).length / 4 = full.length / 4 + 1 := by
    rw [length_append]
    omega
  have hwhole : full.length / 4 * 4 = full.length := by omega
  rw [wordOps, hcount, range_succ, map_append]
  congr 1
  · apply map_congr_left
    intro k hk
    have hk := mem_range.mp hk
    rw [drop_append_of_le_length (by omega), take_append_of_le_length (by rw [length_drop]; omega)]
  · rw [map_singleton, hwhole, drop_left, take_of_length_le (by omega)]

/-- A programmer that started at `first`, after the bytes of `full ++ tail`. -/
structure Filling (first : Programmer α) (full tail : List α) (s : Programmer α) : Prop where
  start_eq : s.progStratAddress = first.progStratAddress
  whole : full.length % 4 = 0
  room : tail.length < 4
  index_eq : s.writeFlashBufferIndex = tail.length
  count_eq : s.progWriteCnt = full.length / 4
  ops_eq : s.ops = first.ops ++ wordOps first.progStratAddress full
  staged : (List.range tail.length).map s.writeFlashBuffer = tail
  /-- The rest of the buffer: left over from the last word, or never touched. -/
  stale : ∀ i, tail.length ≤ i → i < 4 →
    s.writeFlashBuffer i ∈ full ∨ full = [] ∧ s.writeFlashBuffer i = first.writeFlashBuffer i

theorem map_range_update {buf : ℕ → α} (b : α) (h : (range tail.length).map buf = tail) :
    (range (tail.length + 1)).map (update buf tail.length b) = tail ++ [b] := by
  rw [range_succ, map_append]
  congr 1
  · conv_rhs => rw [← h]
    apply map_congr_left
    intro i hi
    have := mem_range.mp hi
    rw [update_of_ne (by omega)]
  · simp

section

variable (h : Filling first full tail s)
include h

theorem Filling.append_short (b : α) (hroom : tail.length + 1 < 4) :
    Filling first full (tail ++ [b]) (flashAppendOneByte s b) := by
  rw [flashAppendOneByte, h.index_eq]
  simp only
  rw [if_neg (by omega)]
  constructor
  · exact h.start_eq
  · exact h.whole
  · simpa using hroom
  · simp
  · exact h.count_eq
  · exact h.ops_eq
  · rw [length_append]
    exact map_range_update b h.staged
  · intro i hlow hhigh
    rw [length_append, length_singleton] at hlow
    simp only [update_of_ne (show i ≠ tail.length by omega)]
    exact h.stale i (by omega) hhigh

/-- A word leaves the buffer, and stays in it as what is left over. -/
theorem Filling.flush (hword : word.length = 4) (buf : ℕ → α)
    (index : ℕ) (hbuf : (range 4).map buf = word) (hlen : full.length + 4 < 2 ^ 18) :
    Filling first (full ++ word) []
      (flushWord { s with writeFlashBuffer := buf, writeFlashBufferIndex := index }) := by
  have hwhole := h.whole
  constructor
  · exact h.start_eq
  · rw [length_append]
    omega
  · simp
  · rfl
  · simp only [flushWord, h.count_eq, length_append]
    omega
  · simp only [flushWord, h.ops_eq, h.start_eq, h.count_eq, hbuf, append_assoc]
    rw [wordOps_append _ hwhole hword, show full.length / 4 * 4 = full.length by omega]
  · rfl
  · intro i _ hi
    have hmem : buf i ∈ word := by
      rw [← hbuf]
      exact mem_map.mpr ⟨i, mem_range.mpr hi, rfl⟩
    exact Or.inl (mem_append_right _ hmem)

theorem Filling.append (b : α) (hlen : full.length + 4 < 2 ^ 18) :
    ∃ full' tail', full' ++ tail' = full ++ tail ++ [b] ∧
      Filling first full' tail' (flashAppendOneByte s b) := by
  rcases Nat.lt_or_ge (tail.length + 1) 4 with hshort | hfull
  · exact ⟨full, tail ++ [b], (append_assoc ..).symm, h.append_short b hshort⟩
  · have hroom := h.room
    have hword : (tail ++ [b]).length = 4 := by
      rw [length_append, length_singleton]
      omega
    have hbuf := map_range_update b h.staged
    rw [show tail.length + 1 = 4 by omega] at hbuf
    refine ⟨full ++ (tail ++ [b]), [], by simp, ?_⟩
    rw [flashAppendOneByte, h.index_eq]
    rw [if_pos (by omega)]
    exact h.flush hword _ _ hbuf hlen

theorem Filling.appendBuffer (data : List α)
    (hlen : (full ++ tail).length + data.length + 4 ≤ 2 ^ 18) :
    ∃ full' tail', full' ++ tail' = full ++ tail ++ data ∧
      Filling first full' tail' (flashAppendBuffer s data) := by
  induction data generalizing full tail s with
  | nil => exact ⟨full, tail, by simp, h⟩
  | cons b rest ih =>
    rw [length_append, length_cons] at hlen
    obtain ⟨full', tail', hsent, h'⟩ := h.append b (by omega)
    have hsent_len := congrArg length hsent
    simp only [length_append, length_singleton] at hsent_len
    obtain ⟨full'', tail'', hdata, h''⟩ := ih h' (by rw [length_append]; omega)
    exact ⟨full'', tail'', by rw [hdata, hsent]; simp, h''⟩

end

/-- Bytes that fill `data` up to whole words, taken from `data` itself or, when
that is less than a word, from the buffer as it was. -/
structure IsFiller (buffer : ℕ → α) (data filler : List α) : Prop where
  whole : (data ++ filler).length % 4 = 0
  short : filler.length < 4
  source : ∀ x ∈ filler, x ∈ data ∧ 4 ≤ data.length ∨ data.length < 4 ∧ ∃ i, x = buffer i

theorem Filling.end (h : Filling first full tail s) (hlen : full.length + 4 < 2 ^ 18) :
    ∃ filler, IsFiller first.writeFlashBuffer (full ++ tail) filler ∧
      (flashAppendEnd s).ops =
        first.ops ++ wordOps first.progStratAddress (full ++ tail ++ filler) := by
  have hwhole := h.whole
  have hroom := h.room
  by_cases htail : tail = []
  · subst htail
    refine ⟨[], ⟨by simpa using hwhole, by simp, by simp⟩, ?_⟩
    rw [flashAppendEnd, h.index_eq, length_nil, if_neg (by omega), h.ops_eq]
    simp
  · have hpos : 0 < tail.length := length_pos_iff.mpr htail
    let word := (range 4).map s.writeFlashBuffer
    have hword : word.length = 4 := by simp [word]
    have htake : word.take tail.length = tail := by
      conv_rhs => rw [← h.staged]
      simp only [word, ← map_take, take_range]
      rw [Nat.min_eq_left (by omega)]
    have hsplit : tail ++ word.drop tail.length = word := by
      conv_lhs => rw [← htake]
      rw [length_take, Nat.min_eq_left (by omega), take_append_drop]
    refine ⟨word.drop tail.length, ⟨?_, ?_, ?_⟩, ?_⟩
    · rw [append_assoc, hsplit, length_append]
      omega
    · rw [length_drop]
      omega
    · -- every byte behind the tail is stale
      intro x hx
      obtain ⟨i, hi, rfl⟩ := mem_iff_getElem.mp hx
      rw [length_drop] at hi
      simp only [word, getElem_drop, getElem_map, getElem_range]
      rcases h.stale (tail.length + i) (by omega) (by omega) with hin | ⟨rfl, hbuf⟩
      · have := length_pos_iff.mpr (ne_nil_of_mem hin)
        exact Or.inl ⟨mem_append_left _ hin, by rw [length_append]; omega⟩
      · exact Or.inr ⟨by simpa using hroom, tail.length + i, hbuf⟩
    · rw [flashAppendEnd, h.index_eq, if_pos hpos, append_assoc, hsplit]
      exact (h.flush hword s.writeFlashBuffer s.writeFlashBufferIndex rfl hlen).ops_eq

theorem filling_appendBuffer (s : Programmer α) (data : List α)
    (hindex : s.writeFlashBufferIndex = 0) (hcount : s.progWriteCnt = 0)
    (hlen : data.length + 4 < 2 ^ 18) :
    ∃ full tail, full ++ tail = data ∧ Filling s full tail (flashAppendBuffer s data) := by
  have hstart : Filling s [] [] s := by
    constructor <;> simp [hindex, hcount, wordOps]
  obtain ⟨full, tail, hdata, h⟩ := hstart.appendBuffer data (by simp; omega)
  exact ⟨full, tail, by simpa using hdata, h⟩

theorem appendEnd_ops (s : Programmer α) (data : List α) (hindex : s.writeFlashBufferIndex = 0)
    (hcount : s.progWriteCnt = 0) (hlen : data.length + 4 < 2 ^ 18) :
    ∃ filler, IsFiller s.writeFlashBuffer data filler ∧
      (flashAppendEnd (flashAppendBuffer s data)).ops =
        s.ops ++ wordOps s.progStratAddress (data ++ filler) := by
  obtain ⟨full, tail, rfl, h⟩ := filling_appendBuffer s data hindex hcount hlen
  rw [length_append] at hlen
  exact h.end (by omega)

/-! ## The copy loop -/

theorem readCells_add (cell : ℕ → α) (addr m n : ℕ) :
    readCells cell addr (m + n) = readCells cell addr m ++ readCells cell (addr + m) n := by
  simp [readCells, range_add, Nat.add_assoc]

/-- The loop appends the bytes from its address on, whatever its chunks. -/
theorem copyLoop_eq (cell : ℕ → α) {fuel address rcnt total : ℕ} (s : Programmer α)
    (hfuel : total < fuel) :
    copyLoop cell fuel address rcnt total s =
      flashAppendBuffer s (readCells cell (address + rcnt * 256) total) := by
  induction fuel generalizing rcnt total s with
  | zero => omega
  | succ fuel ih =>
    rw [copyLoop]
    rcases Nat.eq_zero_or_pos total with rfl | hpos
    · rfl
    rw [if_pos hpos]
    split
    · next hlong =>
        obtain ⟨rest, rfl⟩ := Nat.exists_eq_add_of_le hlong.le
        have hnext : address + (rcnt + 1) * 256 = address + rcnt * 256 + 256 := by omega
        set first := readCells cell (address + rcnt * 256) 256
        calc copyLoop cell fuel address (rcnt + 1) (256 + rest - 256) (flashAppendBuffer s first)
              = flashAppendBuffer (flashAppendBuffer s first)
                  (readCells cell (address + rcnt * 256 + 256) rest) := by
                rw [ih _ (by omega), hnext, Nat.add_sub_cancel_left]
          _ = flashAppendBuffer s (first ++ readCells cell (address + rcnt * 256 + 256) rest) :=
                foldl_append.symm
          _ = flashAppendBuffer s (readCells cell (address + rcnt * 256) (256 + rest)) := by
                rw [readCells_add]
    · rw [ih _ (by omega)]
      rfl

/-- **What a copy issues.**  The erases of its pages, then the words of the copied
bytes. -/
theorem spiflash2chipflash_ops (cell : ℕ → α) (spiAddress chipAddress : ℕ) {size : ℕ}
    (s : Programmer α) (hsize : size + 4 < 2 ^ 18) :
    ∃ filler, IsFiller s.writeFlashBuffer (readCells cell spiAddress size) filler ∧
      (spiflash2chipflash true cell spiAddress chipAddress size s).1.ops =
        s.ops ++ (flashErase (size + 1) chipAddress (chipAddress + size) ++
          wordOps chipAddress (readCells cell spiAddress size ++ filler)) := by
  have hlen : (readCells cell spiAddress size).length = size := by simp [readCells]
  obtain ⟨filler, hfiller, hops⟩ := appendEnd_ops (flashProgramStart chipAddress size s)
    (readCells cell spiAddress size) rfl rfl (by omega)
  refine ⟨filler, hfiller, ?_⟩
  rw [spiflash2chipflash]
  simp only [if_true]
  rw [copyLoop_eq _ _ (Nat.lt_succ_self size), Nat.add_zero, hops, ← append_assoc]
  rfl

/-! ## The effect on the program memory -/

/-- The effect of an operation: an erased page of this microcontroller reads as
zero, and a word is stored as a whole. -/
def chipApply (mem : Nor.Cells) : ChipOp UInt8 → Nor.Cells
  | .erasePage addr => fun i => if i / 256 = addr / 256 then 0 else mem i
  | .programWord addr word => Nor.overwrite mem addr word

theorem replay_wordOps (mem : Nor.Cells) (start : ℕ) {words : ℕ} (hdata : data.length = words * 4) :
    replay chipApply mem (wordOps start data) = overwrite mem start data := by
  induction words generalizing data with
  | zero =>
    obtain rfl : data = [] := eq_nil_of_length_eq_zero (by omega)
    rw [overwrite_nil]
    rfl
  | succ words ih =>
    have hfront : (data.take (words * 4)).length = words * 4 := by
      rw [length_take]
      omega
    rw [← take_append_drop (words * 4) data, wordOps_append _ (by omega)
      (by rw [length_drop]; omega), replay_append, ih hfront, overwrite_append]
    rfl

/-- After a copy the memory from the chip address on holds the copied bytes,
whatever it held before. -/
theorem window_replay_copy (mem : Nor.Cells) (chipAddress : ℕ) {filler : List UInt8}
    (erases : List (ChipOp UInt8)) (hwhole : (data ++ filler).length % 4 = 0) :
    window (replay chipApply mem (erases ++ wordOps chipAddress (data ++ filler)))
      chipAddress data.length = data := by
  rw [replay_append, replay_wordOps _ _ (show _ = (data ++ filler).length / 4 * 4 by omega)]
  exact window_overwrite_append _ _ _ _

end Easyio.ChipFlash
