import Easyio.W25q16.Session

/-!
# What a streaming session writes, and where

The content of the chip after a session does not depend on how the data was cut
into chunks, nor on what the chip held before (`session_content`).

Which sectors it touches is a different matter.  `w25x_append_end` pads the
staging buffer up to a whole sector even when the buffer is empty, so a session
whose length is a multiple of the sector size, the empty session included,
erases one sector more than its data needs.  `session_sectorFrame_iff` says that
this is the only way to leave the frame.
-/

namespace Easyio.W25q16

open Crash Driver List Nor

variable {base : ℕ} {chunks : List (List UInt8)} (d : Driver)

/-- The number of sectors `n` bytes need. -/
def sectorCount (n : ℕ) : ℕ := (n + 4095) / 4096

/-- The commands issued between two states of the driver. -/
def issuedSince (before after : Driver) : List Nor.Op := after.ops.drop before.ops.length

/-- Between `before` and `after` exactly the sectors of `n` bytes at `base` were
erased or programmed, and every byte outside them has its old value. -/
def SectorFrame (base n : ℕ) (before after : Driver) : Prop :=
  (∀ s, (∃ op ∈ issuedSince before after, sectorOf op = s) ↔
      base / 4096 ≤ s ∧ s < base / 4096 + sectorCount n) ∧
    ∀ i, i < base ∨ base + sectorCount n * 4096 ≤ i → after.flash i = before.flash i

theorem room_of_inside_chip {n : ℕ} (hchip : base + n ≤ capacity) : base + n + 8192 ≤ 2 ^ 24 := by
  have : capacity + 8192 ≤ 2 ^ 24 := by decide
  omega

/-- **A session stores its data.**  For every sector-aligned base, every way of
cutting the data into chunks and every previous content of the chip, the bytes
from the base on are the data, and the rest of the last sector is `0xFF`. -/
theorem session_content (hbase : base % 4096 = 0)
    (hchip : base + chunks.flatten.length ≤ capacity) :
    Nor.window (session base chunks d).flash base chunks.flatten.length = chunks.flatten ∧
      ∀ i, base + chunks.flatten.length ≤ i →
        i < base + sectorCount chunks.flatten.length * 4096 →
          (session base chunks d).flash i = 0xFF := by
  have hs := session_streaming d hbase (room_of_inside_chip hchip)
  set data := chunks.flatten
  rw [hs.flash_eq]
  constructor
  · exact window_overwrite_append _ _ _ _
  · intro i hlow hhigh
    unfold sectorCount at hhigh
    obtain ⟨j, rfl⟩ := Nat.exists_eq_add_of_le hlow
    have hj : j < (padding data.length).length := by
      rw [padding, length_replicate]
      omega
    rw [overwrite_append, overwrite_apply_of_mem hj]
    simp [padding]

/-- Five bytes in two chunks at the second sector of a chip full of zeros. -/
theorem session_content_two_chunks :
    Nor.window (session 4096 [[1, 2], [3, 4, 5]] (boot fun _ => 0)).flash 4096 5 =
        [1, 2, 3, 4, 5] ∧
      ∀ i, 4096 + 5 ≤ i → i < 4096 + sectorCount 5 * 4096 →
        (session 4096 [[1, 2], [3, 4, 5]] (boot fun _ => 0)).flash i = 0xFF :=
  session_content (boot fun _ => 0) (by decide) (by decide)

/-! ## The sectors touched -/

section

variable (hbase : base % 4096 = 0) (hchip : base + chunks.flatten.length ≤ capacity)
include hbase hchip

theorem issuedSince_session :
    issuedSince d (session base chunks d) =
      sectorOps base (chunks.flatten ++ padding chunks.flatten.length) := by
  have hs := session_streaming d hbase (room_of_inside_chip hchip)
  rw [issuedSince, hs.ops_eq, drop_left]

/-- A session touches one sector for each full sector of data, and one more. -/
theorem touched_session_iff (s : ℕ) :
    (∃ op ∈ issuedSince d (session base chunks d), sectorOf op = s) ↔
      base / 4096 ≤ s ∧ s < base / 4096 + (chunks.flatten.length / 4096 + 1) := by
  rw [issuedSince_session d hbase hchip, exists_sectorOps_iff hbase, length_append_padding,
    Nat.mul_div_cancel _ (by decide)]

theorem sectorFrame_of_partial_sector (hmod : chunks.flatten.length % 4096 ≠ 0) :
    SectorFrame base chunks.flatten.length d (session base chunks d) := by
  have hcount : sectorCount chunks.flatten.length = chunks.flatten.length / 4096 + 1 := by
    unfold sectorCount
    omega
  have hs := session_streaming d hbase (room_of_inside_chip hchip)
  rw [SectorFrame, hcount]
  refine ⟨touched_session_iff d hbase hchip, ?_⟩
  intro i hi
  rw [hs.flash_eq]
  rcases hi with hlt | hge
  · exact overwrite_apply_of_lt _ hlt
  · exact overwrite_apply_of_ge (by rw [length_append_padding]; exact hge)

theorem not_sectorFrame_of_whole_sectors (hwhole : chunks.flatten.length % 4096 = 0) :
    ¬ SectorFrame base chunks.flatten.length d (session base chunks d) := by
  have hcount : sectorCount chunks.flatten.length = chunks.flatten.length / 4096 := by
    unfold sectorCount
    omega
  rintro ⟨htouched, -⟩
  -- the sector right after the data is erased and programmed with padding
  have hextra := (touched_session_iff d hbase hchip
    (base / 4096 + chunks.flatten.length / 4096)).mpr ⟨by omega, by omega⟩
  have hinside := (htouched _).mp hextra
  omega

end

/-- **The frame of a session.**  A session that appends `n` bytes at a
sector-aligned base keeps to the sectors of its data exactly when `n` is not a
multiple of the sector size. -/
theorem session_sectorFrame_iff (hbase : base % 4096 = 0)
    (hchip : base + chunks.flatten.length ≤ capacity) :
    SectorFrame base chunks.flatten.length d (session base chunks d) ↔
      chunks.flatten.length % 4096 ≠ 0 := by
  constructor
  · intro hframe hwhole
    exact not_sectorFrame_of_whole_sectors d hbase hchip hwhole hframe
  · exact sectorFrame_of_partial_sector d hbase hchip

/-- One byte at the start of the chip. -/
theorem session_sectorFrame_iff_one_byte :
    SectorFrame 0 1 (boot fun _ => 0) (session 0 [[7]] (boot fun _ => 0)) ↔
      1 % 4096 ≠ 0 :=
  session_sectorFrame_iff (boot fun _ => 0) (by decide) (by decide)

/-- The empty session erases a sector. -/
theorem empty_session_leaves_frame :
    ¬ SectorFrame 0 0 (boot fun _ => 0) (session 0 [] (boot fun _ => 0)) :=
  not_sectorFrame_of_whole_sectors (boot fun _ => 0) (by decide) (by decide) (by decide)

/-! ## Sessions in a region -/

/-- Between `before` and `after` only sectors of the `size` bytes at `base` were erased or
programmed, and every byte outside them has its old value. -/
def RegionFrame (base size : ℕ) (before after : Driver) : Prop :=
  (∀ op ∈ issuedSince before after,
      base / 4096 ≤ sectorOf op ∧ sectorOf op < (base + size) / 4096) ∧
    ∀ i, i < base ∨ base + size ≤ i → after.flash i = before.flash i

/-- A session keeps the commands of its first whole sectors, however long it is. -/
theorem touched_of_long_session (sectors : ℕ) (hbase : base % 4096 = 0)
    (hroom : base + sectors * 4096 + 4096 ≤ 2 ^ 24)
    (hlong : sectors * 4096 ≤ chunks.flatten.length) {s : ℕ} (hlow : base / 4096 ≤ s)
    (hhigh : s < base / 4096 + sectors) :
    ∃ op ∈ issuedSince d (session base chunks d), sectorOf op = s := by
  have hlen : (chunks.flatten.take (sectors * 4096)).length = sectors * 4096 := by
    rw [length_take]
    omega
  have hstart : InSession d base [] (initWriteFlash base d) := ⟨[], [], rfl, streaming_init d base⟩
  obtain ⟨full, tail, hsent, hs⟩ := hstart.appendBuffer (chunks.flatten.take (sectors * 4096)) hbase
    (by rw [hlen, length_nil]; omega)
  -- these bytes fill their sectors
  have hfull : full.length = sectors * 4096 := by
    have htotal := congrArg List.length hsent
    rw [nil_append, length_append] at htotal
    have hwhole := hs.whole
    have htail := hs.room
    omega
  have hsectors : base / 4096 ≤ s ∧ s < base / 4096 + full.length / 4096 := by
    omega
  obtain ⟨op, hop, hsector⟩ := (exists_sectorOps_iff hbase s).mpr hsectors
  have hgrows : (appendW25xAppendBuffer (initWriteFlash base d)
      (chunks.flatten.take (sectors * 4096))).ops <+: (session base chunks d).ops := by
    rw [session, foldl_appendBuffer]
    refine IsPrefix.trans ?_ (ops_appendBytes _ _)
    conv_rhs => rw [← take_append_drop (sectors * 4096) chunks.flatten, foldl_append]
    exact ops_appendBytes _ _
  obtain ⟨later, hlater⟩ := hgrows
  refine ⟨op, ?_, hsector⟩
  rw [issuedSince, ← hlater, hs.ops_eq, append_assoc, drop_left]
  exact mem_append_left _ hop

/-- **A session stays in a region** of whole sectors exactly if it is shorter than the
region. -/
theorem session_regionFrame_iff {size : ℕ} (hbase : base % 4096 = 0) (hsize : size % 4096 = 0)
    (hroom : base + size + 8192 ≤ capacity) :
    RegionFrame base size d (session base chunks d) ↔ chunks.flatten.length < size := by
  have hchip : capacity + 8192 ≤ 2 ^ 24 := by decide
  constructor
  · rintro ⟨htouched, -⟩
    by_contra hlong
    -- the sector right behind the region is written
    have hextra : ∃ op ∈ issuedSince d (session base chunks d),
        sectorOf op = base / 4096 + size / 4096 := by
      rcases Nat.lt_or_ge chunks.flatten.length (size + 4096) with hshort | hmore
      · exact (touched_session_iff d hbase (by omega) _).mpr ⟨by omega, by omega⟩
      · exact touched_of_long_session d (size / 4096 + 1) hbase (by omega) (by omega)
          (by omega) (by omega)
    obtain ⟨op, hop, hsector⟩ := hextra
    have hinside := (htouched op hop).2
    omega
  · intro hshort
    have hs := session_streaming d hbase
      (show base + chunks.flatten.length + 8192 ≤ 2 ^ 24 by omega)
    constructor
    · intro op hop
      have htouched := (touched_session_iff d hbase (by omega) _).mp ⟨op, hop, rfl⟩
      omega
    · rintro i (hlt | hge)
      · rw [hs.flash_eq]
        exact overwrite_apply_of_lt _ hlt
      · rw [hs.flash_eq]
        refine overwrite_apply_of_ge ?_
        rw [length_append_padding]
        omega

end Easyio.W25q16
