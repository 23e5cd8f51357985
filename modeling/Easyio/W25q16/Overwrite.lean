import Easyio.W25q16.PageWrite

/-!
# `SPI_Flash_Write` is an exact overwrite

The sector writer reads each sector it touches, and either programs the new
bytes directly (the destination is blank) or erases the sector and programs it
again from the patched copy in `SPI_FLASH_BUF`.  Either way one round stores
its part of the data and changes nothing else (`writeRound_spec`), and the
rounds compose to one overwrite.

The source is a buffer of the caller (`Source.ext`); a pointer into
`SPI_FLASH_BUF` would be changed under the writer's feet by its own read.
-/

namespace Easyio.W25q16

open Crash List Nat Nor Source

theorem copyToBuf_ext (bytes : List UInt8) (secoff n : ℕ) (d : Driver) :
    copyToBuf (.ext bytes) secoff n d =
      { d with spiFlashBuf := overwrite d.spiFlashBuf secoff ((ext bytes).bytes d n) } := by
  induction n with
  | zero => simp [copyToBuf, Source.bytes]
  | succ n ih =>
    have hsnoc : (Source.ext bytes).bytes d (n + 1) =
        (Source.ext bytes).bytes d n ++ [bytes.getD n 0] := by
      simp [Source.bytes, range_succ, Source.get]
    rw [copyToBuf, range_succ, foldl_append, ← copyToBuf, ih, hsnoc,
      overwrite_append, overwrite_singleton]
    simp only [foldl_cons, foldl_nil, Source.get, Source.length_bytes, add_comm n secoff]

/-- When the scan of a sector finds no byte other than `0xFF`, the destination is
blank. -/
theorem erased_of_le_firstNotErased {buf : ℕ → UInt8} {secoff secremain : ℕ}
    (h : ¬ firstNotErased buf secoff secremain < secremain) :
    ∀ j < secremain, buf (secoff + j) = 0xFF := by
  intro j hj
  unfold firstNotErased at h
  cases hfind : (List.range secremain).find? fun i => buf (secoff + i) ≠ 0xFF with
  | none =>
    have := List.find?_eq_none.mp hfind j (mem_range.mpr hj)
    simpa using this
  | some found =>
    have hmem := mem_range.mp (mem_of_find?_eq_some hfind)
    rw [hfind] at h
    exact absurd hmem h

/-- The probe of `SPI_Flash_Write`. -/
def readProbe (secpos secoff secremain : ℕ) (d : Driver) : Driver × ℕ :=
  let d := spiFlashReadToBuf (secpos * 4096) 4096 d
  (d, firstNotErased d.spiFlashBuf secoff secremain)

theorem spiFlashReadToBuf_apply {addr n i : ℕ} (d : Driver) (hi : i < n)
    (hend : addr + n ≤ 2 ^ 24) : (spiFlashReadToBuf addr n d).spiFlashBuf i =
      d.flash (addr + i) := by
  simp only [spiFlashReadToBuf, if_pos hi, addr24]
  rw [mod_eq_of_lt (by omega)]

/-- One round stores its `n` bytes at their place, and every page program it
issues stays in its page. -/
theorem writeRound_spec (data : List UInt8) (secpos secoff n : ℕ) (d : Driver)
    (hn : n ≤ data.length) (hoff : secoff < 4096) (hfit : secoff + n ≤ 4096)
    (hchip : (secpos + 1) * 4096 ≤ 2 ^ 24) :
    let after := writeSectorRound readProbe (.ext data) (secpos * 4096 + secoff) secpos secoff n d
    after.flash = overwrite d.flash (secpos * 4096 + secoff) (data.take n) ∧
      ∃ issued, after.ops = d.ops ++ issued ∧ ∀ op ∈ issued, op.InPage 256 := by
  have hread : ∀ i < 4096,
      (spiFlashReadToBuf (secpos * 4096) 4096 d).spiFlashBuf i = d.flash (secpos * 4096 + i) :=
    fun i hi => spiFlashReadToBuf_apply d hi (by omega)
  have hlen : (data.take n).length = n := by rw [length_take, min_eq_left hn]
  unfold writeSectorRound readProbe
  simp only
  split
  · -- the sector is erased and written back from the patched copy
    have hsector : addr24 (secpos * 4096) = secpos * 4096 := mod_eq_of_lt (by omega)
    rw [copyToBuf_ext, bytes_ext _ hn, writeNoCheck_eq _ _ (by omega) (by omega),
      spiFlashEraseSector, hsector]
    constructor
    · rw [emitAll_flash, replay_pagePrograms]
      exact (andInto_eraseBlock d.flash secpos (by omega) (by simp)).trans
        (overwrite_patched_block hread (by omega))
    · refine ⟨.erase (secpos * 4096) :: pagePrograms (secpos * 4096) _,
        append_assoc d.ops [.erase (secpos * 4096)] _, ?_⟩
      intro op hop
      rcases mem_cons.mp hop with rfl | hop
      · trivial
      · exact inPage_of_mem_pagePrograms hop
  · rename_i hscan
    have herased := erased_of_le_firstNotErased hscan
    rw [writeNoCheck_eq _ _ (by omega) (by omega), bytes_ext _ hn]
    refine ⟨?_, pagePrograms (secpos * 4096 + secoff) (data.take n), rfl,
      fun op hop => inPage_of_mem_pagePrograms hop⟩
    rw [emitAll_flash, replay_pagePrograms]
    refine andInto_eq_overwrite ?_
    intro j hj
    rw [add_assoc]
    exact (hread (secoff + j) (by omega)).symm.trans (herased j (by omega))

/-- The sector loop stores all of `data` at its place. -/
theorem writeSectorsLoop_spec (fuel : ℕ) (data : List UInt8) (secpos secoff secremain : ℕ)
    (d : Driver) (hfuel : data.length < fuel) (hle : secremain ≤ data.length)
    (hoff : secoff < 4096) (hfit : secoff + secremain ≤ 4096)
    (hmore : secremain < data.length → secoff + secremain = 4096)
    (hchip : secpos * 4096 + secoff + data.length ≤ 2 ^ 21) :
    let after := writeSectorsLoop readProbe fuel (.ext data) (secpos * 4096 + secoff) secpos secoff
      data.length secremain d
    after.flash = overwrite d.flash (secpos * 4096 + secoff) data ∧
      ∃ issued, after.ops = d.ops ++ issued ∧ ∀ op ∈ issued, op.InPage 256 := by
  induction fuel generalizing secpos secoff secremain data d with
  | zero => omega
  | succ fuel ih =>
    obtain ⟨hflash, issued, hops, hpages⟩ :=
      writeRound_spec data secpos secoff secremain d hle hoff hfit (by omega)
    simp only [writeSectorsLoop]
    set after := writeSectorRound readProbe (.ext data) (secpos * 4096 + secoff) secpos secoff
      secremain d
    by_cases hlast : data.length = secremain
    · rw [if_pos hlast]
      refine ⟨?_, issued, hops, hpages⟩
      rw [hflash, take_of_length_le (by omega)]
    · have hlen : (data.drop secremain).length = data.length - secremain := length_drop
      have hnext : secpos * 4096 + secoff + secremain = (secpos + 1) * 4096 + 0 := by omega
      have hroom : (secpos + 1) * 4096 + 0 + (data.drop secremain).length ≤ 2 ^ 21 := by
        rw [← hnext, hlen, Nat.add_assoc, Nat.add_sub_cancel' hle]
        exact hchip
      rw [if_neg hlast, hnext, advance, ← hlen]
      obtain ⟨hflash', issued', hops', hpages'⟩ := ih (data.drop secremain) (secpos + 1) 0
        (if 4096 < (data.drop secremain).length then 4096 else (data.drop secremain).length)
        after (by omega) (by split <;> omega) (by omega) (by split <;> omega)
        (by split <;> omega) hroom
      refine ⟨?_, issued ++ issued', ?_, ?_⟩
      · rw [hflash', hflash]
        conv_rhs => rw [← take_append_drop secremain data]
        rw [overwrite_append, length_take, min_eq_left hle, hnext]
      · rw [hops', hops, append_assoc]
      · intro op hop
        rcases mem_append.mp hop with hop | hop
        · exact hpages op hop
        · exact hpages' op hop

/-- **`SPI_Flash_Write` is an exact overwrite.**  For every address and length
that fit the chip, every previous content and every source buffer of the caller,
the chip afterwards holds the buffer at the address and is unchanged elsewhere,
and no page program issued on the way crosses a page boundary. -/
theorem spiFlashWrite_overwrites (d : Driver) (addr : ℕ) (n : UInt16) (data : List UInt8)
    (hdata : data.length = n.toNat) (hchip : addr + n.toNat ≤ capacity) :
    (spiFlashWrite (.ext data) addr n.toNat d).flash = overwrite d.flash addr data ∧
      ∃ issued, (spiFlashWrite (.ext data) addr n.toNat d).ops = d.ops ++ issued ∧
        ∀ op ∈ issued, op.InPage 256 := by
  have hsplit : addr / 4096 * 4096 + addr % 4096 = addr := by omega
  rw [← hdata] at hchip ⊢
  have h := writeSectorsLoop_spec (data.length + 1) data (addr / 4096) (addr % 4096)
    (if data.length ≤ 4096 - addr % 4096 then data.length else 4096 - addr % 4096) d (by omega)
    (by split <;> omega) (by omega) (by split <;> omega) (by split <;> omega)
    (by rw [hsplit]; exact hchip)
  rw [hsplit] at h
  exact h

/-- Three bytes across a page boundary of a chip full of zeros. -/
theorem spiFlashWrite_overwrites_zeros :
    (spiFlashWrite (.ext [1, 2, 3]) 255 3 (Driver.boot fun _ => 0)).flash =
        overwrite (fun _ => 0) 255 [1, 2, 3] ∧
      ∃ issued, (spiFlashWrite (.ext [1, 2, 3]) 255 3 (Driver.boot fun _ => 0)).ops = [] ++ issued ∧
        ∀ op ∈ issued, op.InPage 256 :=
  spiFlashWrite_overwrites (Driver.boot fun _ => 0) 255 3 [1, 2, 3] rfl (by decide)

end Easyio.W25q16
