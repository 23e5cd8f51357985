import Easyio.Config.Layout
import Easyio.W25q16.SessionSpec

/-!
# Reading and writing the configuration

`readconfig` and `writeconfig` of `applications/spiflash_config.c`.  The functions
`spiflash_release_powerdown` and `spiflash_powerdown` around them have empty
bodies.

A write erases the sector and programs it page by page.  The 49 bytes of the
structure all lie in the first page, so the chip goes through three views of the
configuration: the old one, none (an erased sector fails its CRC), the new one.
`stored_erase`, `stored_first_page` and `stored_of_later_page` say this command
by command.
-/

namespace Easyio.Config

open List Crash W25q16 Nor SpiflashConfig

/-- The structure as `SPI_Flash_Read` brings it into RAM. -/
def load (d : Driver) : SpiflashConfig :=
  .ofBytes (spiFlashRead d configAddress size)

/-- `readconfig`.  The result `none` is the endless loop it enters when the CRC is
wrong. -/
def readconfig (d : Driver) : Option SpiflashConfig :=
  let c := load d
  if c.configCrc = c.crc then some c else none

/-- `writeconfig`: fill in the CRC and write the structure to its sector. -/
def writeconfig (c : SpiflashConfig) (d : Driver) : SpiflashConfig × Driver :=
  let c := c.withCrc
  (c, w25xAppendEnd (appendW25xAppendBuffer (initWriteFlash configAddress d) c.toBytes))

/-- The configuration a chip holds, if its CRC is right. -/
def stored (mem : Cells) : Option SpiflashConfig :=
  let c := ofBytes (window mem configAddress size)
  if c.configCrc = c.crc then some c else none

/-- The commands of `writeconfig`. -/
def configOps (c : SpiflashConfig) : List Nor.Op :=
  sectorWrite configAddress (c.withCrc.toBytes ++ padding size)

theorem load_eq (d : Driver) : load d = .ofBytes (window d.flash configAddress size) := by
  rw [load, spiFlashRead_eq_window d (by decide)]

theorem readconfig_eq (d : Driver) : readconfig d = stored d.flash := by
  rw [readconfig, load_eq, stored]

section

variable (c : SpiflashConfig)
include c

theorem length_configImage : (c.withCrc.toBytes ++ padding size).length = 4096 := by
  rw [← c.withCrc.length_toBytes, length_append_padding, c.withCrc.length_toBytes]
  rfl

section

variable (d : Driver)
include d

theorem writeconfig_eq_session :
    writeconfig c d = (c.withCrc, session configAddress [c.withCrc.toBytes] d) := by
  rw [writeconfig, session, foldl_cons, foldl_nil]

theorem writeconfig_streaming :
    Streaming d configAddress (c.withCrc.toBytes ++ padding size) []
      (writeconfig c d).2 := by
  have hlen := c.withCrc.length_toBytes
  have hflat : [c.withCrc.toBytes].flatten = c.withCrc.toBytes := flatten_singleton
  have hroom : configAddress + size + 8192 ≤ 2 ^ 24 := by decide
  have hs : Streaming d configAddress
      ([c.withCrc.toBytes].flatten ++ padding [c.withCrc.toBytes].flatten.length) []
      (session configAddress [c.withCrc.toBytes] d) :=
    session_streaming d (by decide) (by rw [hflat, hlen]; exact hroom)
  rw [hflat, hlen] at hs
  rw [writeconfig_eq_session]
  exact hs

theorem writeconfig_spec : (writeconfig c d).1 = c.withCrc ∧
      issuedSince d (writeconfig c d).2 = configOps c ∧
      (writeconfig c d).2.flash = replay norApply d.flash (configOps c) := by
  have hs := writeconfig_streaming c d
  have hlen := length_configImage c
  have hops : sectorOps configAddress (c.withCrc.toBytes ++ padding size) =
      configOps c := by
    have hnil : sectorOps configAddress [] = [] := rfl
    rw [← nil_append (c.withCrc.toBytes ++ _), sectorOps_append _ rfl hlen, hnil,
      nil_append, length_nil, Nat.add_zero, configOps]
  refine ⟨by rw [writeconfig_eq_session], ?_, ?_⟩
  · rw [issuedSince, hs.ops_eq, drop_left, hops]
  · rw [hs.flash_eq]
    exact (replay_sectorWrite d.flash 256 hlen).symm

theorem window_writeconfig :
    window (writeconfig c d).2.flash configAddress size =
      c.withCrc.toBytes := by
  rw [(writeconfig_streaming c d).flash_eq, ← c.withCrc.length_toBytes]
  exact window_overwrite_append _ _ _ _

theorem stored_writeconfig : stored (writeconfig c d).2.flash = some c.withCrc := by
  rw [stored, window_writeconfig, ofBytes_toBytes]
  simp

theorem writeconfig_frame {i : ℕ}
    (hi : i / 4096 ≠ configAddress / 4096) : (writeconfig c d).2.flash i = d.flash i := by
  have hlen := length_configImage c
  rw [(writeconfig_streaming c d).flash_eq]
  rcases Nat.lt_or_ge i configAddress with hlt | hge
  · exact overwrite_apply_of_lt _ hlt
  · refine overwrite_apply_of_ge ?_
    rw [hlen]
    rw [configAddress] at hi hge ⊢
    omega

end

end

/-! ## The views a write goes through -/

theorem stored_congr {first second : Cells}
    (h : ∀ i < size, first (configAddress + i) = second (configAddress + i)) :
    stored first = stored second := by
  rw [stored, stored, window_congr h]

theorem stored_erase (mem : Cells) : stored (norApply mem (.erase configAddress)) = none := by
  have hcrc : ¬ (ofBytes (replicate 49 0xFF)).configCrc =
      (ofBytes (replicate 49 0xFF)).crc := by
    decide +kernel
  rw [stored]
  exact if_neg hcrc

variable {mem : Cells}

/-- Programming the first page of an erased sector makes the structure valid. -/
theorem stored_first_page (c : SpiflashConfig)
    (herased : ∀ i < size, mem (configAddress + i) = 0xFF) :
    stored (norApply mem (.program configAddress
      ((c.withCrc.toBytes ++ padding size).take 256))) = some c.withCrc := by
  set image := c.withCrc.toBytes ++ padding size
  have hlen : (image.take 256).length = 256 := by
    rw [length_take, length_configImage]
    rfl
  have hpage : norApply mem (.program configAddress (image.take 256)) =
      andInto mem configAddress (image.take 256) :=
    programPage_eq_andInto _ _ _ (by rw [hlen]; decide)
  have hwindow : window (andInto mem configAddress (image.take 256)) configAddress
      size = c.withCrc.toBytes := by
    have hbytes := c.withCrc.length_toBytes
    refine ext_getElem (by rw [length_window, hbytes]) ?_
    intro i hi hi'
    rw [length_window] at hi
    have hsmall : i < 49 := hi
    have hget : (image.take 256)[i]? = some c.withCrc.toBytes[i] := by
      rw [getElem?_take_of_lt (by omega), getElem?_append_left hi',
        getElem?_eq_getElem hi']
    simp only [window, getElem_map, getElem_range, andInto, hget, herased i hi,
      Nat.le_add_right, if_true, Nat.add_sub_cancel_left, Option.map_some, Option.getD_some,
      and_erased]
  rw [hpage, stored, hwindow, ofBytes_toBytes]
  simp

/-- The later pages hold none of the structure's bytes. -/
theorem stored_of_later_page {start : ℕ} {bytes : List UInt8}
    (hpage : start % 256 + bytes.length ≤ 256) (hstart : configAddress + 256 ≤ start) :
    stored (norApply mem (.program start bytes)) = stored mem := by
  have hand : norApply mem (.program start bytes) = andInto mem start bytes :=
    programPage_eq_andInto _ _ _ hpage
  rw [hand]
  refine stored_congr fun i hi => andInto_apply_of_lt _ ?_
  have : i < 49 := hi
  omega

end Easyio.Config
