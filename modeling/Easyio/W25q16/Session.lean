import Easyio.W25q16.PageWrite

/-!
# The streaming session

`append_w25x_byte` collects bytes in `SPI_FLASH_BUF` and writes the buffer out
as one sector when it is full.  The invariant `Streaming` describes the driver
in the middle of a session that started from `start`: the bytes sent so far are
`full ++ tail`, where `full` is whole sectors already on the chip and `tail` is
still in the buffer.

`SPI_Flash_Write2` is called with the staging buffer both as its source and as
its scratch sector.  The copy between them stores every byte onto itself as
long as the sector offset is zero (`copyToBuf_self`), which a sector-aligned
base guarantees.
-/

namespace Easyio.W25q16

open Crash Function List Nat Nor

/-- The commands that write one whole sector at `addr`. -/
def sectorWrite (addr : ℕ) (data : List UInt8) : List Nor.Op :=
  .erase addr :: pagePrograms addr data

/-- The commands of a session that wrote the whole sectors of `full` from `base`
on. -/
def sectorOps (base : ℕ) (full : List UInt8) : List Nor.Op :=
  (List.range (full.length / 4096)).flatMap fun j =>
    sectorWrite (base + j * 4096) ((full.drop (j * 4096)).take 4096)

theorem copyToBuf_self (n : ℕ) (d : Driver) : copyToBuf (.buf 0) 0 n d = d := by
  induction n with
  | zero => rfl
  | succ n ih =>
    rw [copyToBuf, range_succ, foldl_append, ← copyToBuf, ih]
    simp [Source.get]

variable {sector base : ℕ} {data full tail sent : List UInt8} {start d : Driver}

theorem write2_buf (d : Driver) (hchip : (sector + 1) * 4096 ≤ 2 ^ 24) :
    spiFlashWrite2 (.buf 0) (sector * 4096) 4096 d =
      d.emitAll (sectorWrite (sector * 4096) (window d.spiFlashBuf 0 4096)) := by
  have hdiv : sector * 4096 / 4096 = sector := by omega
  have hmod : sector * 4096 % 4096 = 0 := by omega
  have haddr : addr24 (sector * 4096) = sector * 4096 := mod_eq_of_lt (by omega)
  rw [spiFlashWrite2, writeSectors, hdiv, hmod]
  rw [writeSectorsLoop]
  rw [writeSectorRound]
  simp only
  rw [copyToBuf_self, writeNoCheck_eq _ _ (by omega) (by omega), spiFlashEraseSector, haddr,
    sectorWrite, emitAll_cons]
  rfl

/-! ## The commands of a session -/

theorem replay_sectorWrite (mem : Cells) (sector : ℕ) (hdata : data.length = 4096) :
    replay norApply mem (sectorWrite (sector * 4096) data) =
      overwrite mem (sector * 4096) data := by
  rw [sectorWrite, replay_cons, replay_pagePrograms]
  exact andInto_eraseBlock mem sector (by omega) hdata

theorem sectorOps_append {last : List UInt8} (base : ℕ) (hfull : full.length % 4096 = 0)
    (hlast : last.length = 4096) :
    sectorOps base (full ++ last) = sectorOps base full ++
      sectorWrite (base + full.length) last := by
  have hcount : (full ++ last).length / 4096 = full.length / 4096 + 1 := by
    rw [length_append]
    omega
  have hwhole : full.length / 4096 * 4096 = full.length := by omega
  rw [sectorOps, hcount, range_succ, flatMap_append]
  congr 1
  · refine flatMap_congr ?_
    intro j hj
    have hin : j * 4096 + 4096 ≤ full.length := by
      have := mem_range.mp hj
      omega
    rw [drop_append_of_le_length (by lia), take_append_of_le_length (by rw [length_drop]; lia)]
  · rw [flatMap_singleton, hwhole, drop_left, take_of_length_le (by omega)]

theorem sectorOf_of_mem_sectorWrite {op : Nor.Op} (hdata : data.length = 4096)
    (hop : op ∈ sectorWrite (sector * 4096) data) : sectorOf op = sector := by
  rcases mem_cons.mp hop with rfl | hop
  · simp [sectorOf, Nor.Op.addr]
  · obtain ⟨addr, bytes, rfl, -, hlow, hhigh, hne⟩ := mem_pagePrograms hop
    have hpos : 0 < bytes.length := length_pos_iff.mpr (hne (length_pos_iff.mp (by omega)))
    simp only [sectorOf, Nor.Op.addr]
    omega

/-- The sectors a session touches are those of the bytes it wrote out. -/
theorem exists_sectorOps_iff (hbase : base % 4096 = 0) (s : ℕ) :
    (∃ op ∈ sectorOps base full, sectorOf op = s) ↔
      base / 4096 ≤ s ∧ s < base / 4096 + full.length / 4096 := by
  have hsector : ∀ j, base + j * 4096 = (base / 4096 + j) * 4096 := by
    intro j
    omega
  have hlen : ∀ j < full.length / 4096, ((full.drop (j * 4096)).take 4096).length = 4096 := by
    intro j hj
    rw [length_take, length_drop]
    omega
  constructor
  · rintro ⟨op, hop, rfl⟩
    obtain ⟨j, hj, hop⟩ := mem_flatMap.mp hop
    have hj := mem_range.mp hj
    rw [hsector] at hop
    rw [sectorOf_of_mem_sectorWrite (hlen j hj) hop]
    omega
  · rintro ⟨hlow, hhigh⟩
    refine ⟨.erase (base + (s - base / 4096) * 4096), ?_, ?_⟩
    · refine mem_flatMap.mpr ⟨s - base / 4096, mem_range.mpr (by omega), ?_⟩
      exact mem_cons_self ..
    · simp only [sectorOf, Nor.Op.addr]
      omega

/-! ## The invariant of a session -/

/-- A session opened at `base` on `start`, after the bytes of `full ++ tail`. -/
structure Streaming (start : Driver) (base : ℕ) (full tail : List UInt8) (d : Driver) : Prop where
  base_eq : d.historyBaseaddr = base
  whole : full.length % 4096 = 0
  room : tail.length < 4096
  index_eq : d.pageBufferIndex = tail.length
  sector_eq : d.pageSectorIndex = full.length / 4096
  staged : window d.spiFlashBuf 0 tail.length = tail
  ops_eq : d.ops = start.ops ++ sectorOps base full
  flash_eq : d.flash = overwrite start.flash base full

theorem streaming_init (start : Driver) (base : ℕ) :
    Streaming start base [] [] (initWriteFlash base start) := by
  constructor <;> simp [initWriteFlash, sectorOps, window]

theorem window_update_snoc {buf : ℕ → UInt8} (b : UInt8) (h : window buf 0 tail.length = tail) :
    window (update buf tail.length b) 0 (tail ++ [b]).length = tail ++ [b] := by
  rw [length_append, window_add]
  congr 1
  · conv_rhs => rw [← h]
    refine window_congr ?_
    intro i hi
    rw [update_of_ne (by omega)]
  · simp [window]

theorem Streaming.append_short (h : Streaming start base full tail d) (b : UInt8)
    (hroom : tail.length + 1 < 4096) :
    Streaming start base full (tail ++ [b]) (appendW25xByte d b) := by
  have hindex : (tail.length + 1) % 2 ^ 16 = tail.length + 1 := mod_eq_of_lt (by omega)
  rw [appendW25xByte, h.index_eq]
  simp only [hindex]
  rw [if_neg (by omega)]
  constructor
  · exact h.base_eq
  · exact h.whole
  · simpa using hroom
  · simp
  · exact h.sector_eq
  · exact window_update_snoc b h.staged
  · exact h.ops_eq
  · exact h.flash_eq

theorem appendW25xByte_of_full (b : UInt8) (hindex : d.pageBufferIndex = 4095)
    (haddr : (d.pageSectorIndex * 4096 + d.historyBaseaddr) % 2 ^ 32 = sector * 4096)
    (hchip : (sector + 1) * 4096 ≤ 2 ^ 24) : let written := d.emitAll (sectorWrite (sector * 4096)
      (window (update d.spiFlashBuf 4095 b) 0 4096))
    let after := appendW25xByte d b
    after.flash = written.flash ∧ after.ops = written.ops ∧ after.pageBufferIndex = 0 ∧
      after.pageSectorIndex = (d.pageSectorIndex + 1) % 2 ^ 16 ∧
      after.historyBaseaddr = d.historyBaseaddr := by
  intro written after
  have hafter : after = appendW25xByte d b := rfl
  rw [appendW25xByte, hindex] at hafter
  simp only [reducePow, le_refl, if_true] at hafter
  simp only [reducePow] at haddr
  rw [haddr, write2_buf _ hchip] at hafter
  rw [hafter]
  simp only [spiFlashReadToBuf, Driver.emitAll, written, reducePow, and_self]

theorem Streaming.append_full (h : Streaming start base full tail d) (b : UInt8)
    (hroom : tail.length + 1 = 4096) (hbase : base % 4096 = 0)
    (hchip : base + full.length + 4096 ≤ 2 ^ 24) :
    Streaming start base (full ++ (tail ++ [b])) [] (appendW25xByte d b) := by
  have hlen : (tail ++ [b]).length = 4096 := by simpa using hroom
  have hwhole := h.whole
  have hsector : (base + full.length) / 4096 * 4096 = base + full.length := by omega
  have haddr : (d.pageSectorIndex * 4096 + d.historyBaseaddr) % 2 ^ 32 =
      ((base + full.length) / 4096) * 4096 := by
    rw [h.sector_eq, h.base_eq]
    lia
  have hindex : d.pageBufferIndex = 4095 := by rw [h.index_eq]; omega
  have htotal : (full ++ (tail ++ [b])).length = full.length + 4096 := by
    rw [length_append, hlen]
  obtain ⟨hflash, hops, hindex', hsector', hbase'⟩ :=
    appendW25xByte_of_full b hindex haddr (by omega)
  have hstaged := window_update_snoc b h.staged
  rw [hlen, ← h.index_eq, hindex] at hstaged
  rw [hstaged] at hflash hops
  constructor
  · rw [hbase', h.base_eq]
  · omega
  · simp
  · exact hindex'
  · rw [hsector', h.sector_eq]
    omega
  · rfl
  · calc (appendW25xByte d b).ops
          = d.ops ++ sectorWrite ((base + full.length) / 4096 * 4096) (tail ++ [b]) := by
            rw [hops, emitAll_ops]
      _ = start.ops ++ (sectorOps base full ++ sectorWrite (base + full.length) (tail ++ [b])) := by
            rw [h.ops_eq, hsector, append_assoc]
      _ = start.ops ++ sectorOps base (full ++ (tail ++ [b])) := by
            rw [sectorOps_append _ hwhole hlen]
  · calc (appendW25xByte d b).flash
          = overwrite d.flash (base + full.length) (tail ++ [b]) := by
            rw [hflash, emitAll_flash, replay_sectorWrite _ _ hlen, hsector]
      _ = overwrite start.flash base (full ++ (tail ++ [b])) := by
            rw [h.flash_eq, overwrite_append _ _ full]

/-- What has been sent, as one list: a session in progress. -/
def InSession (start : Driver) (base : ℕ) (sent : List UInt8) (d : Driver) : Prop :=
  ∃ full tail, sent = full ++ tail ∧ Streaming start base full tail d

section

variable (h : InSession start base sent d)
include h

theorem InSession.append (b : UInt8) (hbase : base % 4096 = 0)
    (hchip : base + sent.length + 4096 ≤ 2 ^ 24) :
    InSession start base (sent ++ [b]) (appendW25xByte d b) := by
  obtain ⟨full, tail, rfl, hs⟩ := h
  rw [length_append] at hchip
  rcases lt_or_ge (tail.length + 1) 4096 with hshort | hfull
  · exact ⟨full, tail ++ [b], append_assoc .., hs.append_short b hshort⟩
  · have hroom := hs.room
    exact ⟨full ++ (tail ++ [b]), [], by simp, hs.append_full b (by omega) hbase (by omega)⟩

theorem InSession.appendBuffer (buffer : List UInt8)
    (hbase : base % 4096 = 0) (hchip : base + sent.length + buffer.length + 4096 ≤ 2 ^ 24) :
    InSession start base (sent ++ buffer) (appendW25xAppendBuffer d buffer) := by
  induction buffer generalizing sent d with
  | nil => simpa [appendW25xAppendBuffer] using h
  | cons b rest ih =>
    rw [length_cons] at hchip
    have hstep := ih (h.append b hbase (by omega)) (by simp; omega)
    simpa [appendW25xAppendBuffer] using hstep

end

/-! ## Beyond the chip

The invariant follows a session as long as it stays on the chip.  For what a longer one does
it is enough that commands are never taken back. -/

theorem ops_writeNoCheckLoop (fuel : ℕ) (p : Source) (writeAddr n pageremain : ℕ) (d : Driver) :
    d.ops <+: (writeNoCheckLoop fuel p writeAddr n pageremain d).ops := by
  induction fuel generalizing p writeAddr n pageremain d with
  | zero => exact prefix_rfl
  | succ fuel ih =>
    have hpage : d.ops <+: (spiFlashWritePage p writeAddr pageremain d).ops := prefix_append _ _
    rw [writeNoCheckLoop]
    split
    · exact hpage
    · exact hpage.trans (ih ..)

theorem copyToBuf_ops (p : Source) (secoff n : ℕ) (d : Driver) :
    (copyToBuf p secoff n d).ops = d.ops := by
  induction n with
  | zero => rfl
  | succ n ih =>
    rw [copyToBuf, range_succ, foldl_append]
    exact ih

theorem ops_write2 (p : Source) (writeAddr n : ℕ) (d : Driver) :
    d.ops <+: (spiFlashWrite2 p writeAddr n d).ops := by
  have hround : ∀ (p : Source) (writeAddr secpos secoff secremain : ℕ) (d : Driver),
      d.ops <+: (writeSectorRound (fun _ _ _ d => (d, 0)) p writeAddr secpos secoff secremain
        d).ops := by
    intro p writeAddr secpos secoff secremain d
    rw [writeSectorRound]
    dsimp only
    split
    · have herase :
          d.ops <+: (copyToBuf p secoff secremain (spiFlashEraseSector secpos d)).ops := by
        rw [copyToBuf_ops]
        exact prefix_append _ _
      exact herase.trans (ops_writeNoCheckLoop ..)
    · exact ops_writeNoCheckLoop ..
  have hloop : ∀ (fuel : ℕ) (p : Source) (writeAddr secpos secoff n secremain : ℕ) (d : Driver),
      d.ops <+: (writeSectorsLoop (fun _ _ _ d => (d, 0)) fuel p writeAddr secpos secoff n secremain
        d).ops := by
    intro fuel
    induction fuel with
    | zero => exact fun _ _ _ _ _ _ _ => prefix_rfl
    | succ fuel ih =>
      intro p writeAddr secpos secoff n secremain d
      rw [writeSectorsLoop]
      split
      · exact hround ..
      · exact (hround ..).trans (ih ..)
  exact hloop ..

theorem ops_appendW25xByte (d : Driver) (b : UInt8) : d.ops <+: (appendW25xByte d b).ops := by
  rw [appendW25xByte]
  split
  · exact ops_write2 (.buf 0) _ 4096 { d with
      spiFlashBuf := update d.spiFlashBuf d.pageBufferIndex b
      pageBufferIndex := (d.pageBufferIndex + 1) % 2 ^ 16 }
  · exact prefix_rfl

/-- Commands are never taken back. -/
theorem ops_appendBytes (d : Driver) (bytes : List UInt8) :
    d.ops <+: (bytes.foldl appendW25xByte d).ops := by
  induction bytes generalizing d with
  | nil => exact prefix_rfl
  | cons b rest ih => exact (ops_appendW25xByte d b).trans (ih _)

theorem foldl_appendBuffer (d : Driver) (chunks : List (List UInt8)) :
    chunks.foldl appendW25xAppendBuffer d = chunks.flatten.foldl appendW25xByte d :=
  foldl_flatten.symm

/-! ## A whole session -/

/-- The `0xFF` bytes `w25x_append_end` adds after `n` bytes: a whole sector when
`n` is a multiple of the sector size. -/
def padding (n : ℕ) : List UInt8 := List.replicate (4096 - n % 4096) 0xFF

theorem length_append_padding (data : List UInt8) :
    (data ++ padding data.length).length = (data.length / 4096 + 1) * 4096 := by
  rw [length_append, padding, length_replicate]
  omega

section

variable (h : InSession start base sent d)
  (hbase : base % 4096 = 0)
  (hchip : base + sent.length + 8192 ≤ 2 ^ 24)
include h hbase hchip

/-- Closing a session writes the data out with its padding, and nothing stays in
the buffer. -/
theorem InSession.close :
    Streaming start base (sent ++ padding sent.length) [] (w25xAppendEnd d) := by
  obtain ⟨full, tail, hsent, hs⟩ := h
  have hindex : 4096 - d.pageBufferIndex = 4096 - sent.length % 4096 := by
    have hwhole := hs.whole
    have hroom := hs.room
    rw [hs.index_eq, hsent, length_append]
    omega
  have hend : InSession start base (sent ++ padding sent.length) (w25xAppendEnd d) := by
    rw [w25xAppendEnd, hindex]
    refine InSession.appendBuffer ⟨full, tail, hsent, hs⟩ (padding sent.length) hbase ?_
    rw [padding, length_replicate]
    omega
  obtain ⟨full', tail', hdata, hs'⟩ := hend
  -- the total is a multiple of the sector size, so the tail is empty
  have htail : tail' = [] := by
    have hlen := congrArg List.length hdata
    rw [length_append_padding, length_append] at hlen
    have hwhole := hs'.whole
    have hroom := hs'.room
    exact eq_nil_of_length_eq_zero (by omega)
  subst htail
  rw [append_nil] at hdata
  rwa [hdata]

theorem InSession.window_close : window (w25xAppendEnd d).flash base sent.length = sent := by
  rw [(h.close hbase hchip).flash_eq]
  exact window_overwrite_append _ _ _ _

end

theorem session_streaming {chunks : List (List UInt8)} (d : Driver) (hbase : base % 4096 = 0)
    (hchip : base + chunks.flatten.length + 8192 ≤ 2 ^ 24) :
    Streaming d base (chunks.flatten ++ padding chunks.flatten.length) []
      (session base chunks d) := by
  have hstart : InSession d base [] (initWriteFlash base d) := ⟨[], [], rfl, streaming_init d base⟩
  have hdata := hstart.appendBuffer chunks.flatten hbase (by rw [length_nil]; omega)
  rw [appendW25xAppendBuffer, ← foldl_appendBuffer] at hdata
  exact hdata.close hbase hchip

end Easyio.W25q16
