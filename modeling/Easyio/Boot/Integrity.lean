import Easyio.Boot.Rounds
import Easyio.Config.Checksum

/-!
# Integrity of the configuration

`writeconfig` followed by `bootloader_readconfig` (`config_integrity`): what was
written is read back, and with a burst of at most 16 wrong bits in between the
bootloader installs its default configuration.
-/

namespace Easyio.Boot

open Config Crc List Nor SpiflashConfig W25q16

variable {α : Type*}

theorem powerOn_flash (blank : α) (spi : Nor.Cells) : (powerOn blank spi).spi.flash = spi := rfl

theorem bootloaderReadconfig_eq (m : Machine α) :
    bootloaderReadconfig m =
      match stored m.spi.flash with
      | some c => { m with spiflashConf := c }
      | none => saveConfig { m with spiflashConf := defaultConfig } := by
  rw [bootloaderReadconfig, load_eq, stored]
  by_cases hcrc : (ofBytes (window m.spi.flash configAddress
      size)).configCrc = (ofBytes (window m.spi.flash
        configAddress size)).crc
  · rw [if_pos hcrc, if_pos hcrc]
  · rw [if_neg hcrc, if_neg hcrc]

/-- **Integrity of the configuration.**  For every value and every earlier content
of the flash: read back unaltered the value is as `writeconfig` left it in RAM,
which is the value with its CRC filled in.  After a burst of at most 16 wrong bits
the bootloader has the default configuration instead, in RAM and in the flash. -/
theorem config_integrity (c : SpiflashConfig) (d : Driver) (m : Machine α) :
    (m.spi.flash = (writeconfig c d).2.flash →
      bootloaderReadconfig m = { m with spiflashConf := (writeconfig c d).1 }) ∧
    (writeconfig c d).1 = { c with configCrc := c.crc } ∧
    ∀ error, Burst 16 (8 * size) error →
      storedBits m.spi.flash =
          zipWith xor (storedBits (writeconfig c d).2.flash) error →
        (bootloaderReadconfig m).spiflashConf = defaultConfig.withCrc ∧
        (bootloaderReadconfig m).spiflashConf.status = some .none ∧
        stored (bootloaderReadconfig m).spi.flash = some defaultConfig.withCrc := by
  have hvalue : (writeconfig c d).1 = c.withCrc := (writeconfig_spec c d).1
  have hstored : stored (writeconfig c d).2.flash = some c.withCrc := stored_writeconfig c d
  refine ⟨?_, hvalue, ?_⟩
  · intro hflash
    rw [bootloaderReadconfig_eq, hflash, hstored, hvalue]
  · intro error herror hbits
    have hread : bootloaderReadconfig m = saveConfig { m with spiflashConf := defaultConfig } := by
      rw [bootloaderReadconfig_eq, stored_burst hstored herror hbits]
    have hconf : (bootloaderReadconfig m).spiflashConf = defaultConfig.withCrc := by
      rw [hread, saveConfig_conf]
    refine ⟨hconf, ?_, ?_⟩
    · rw [hconf, status_withCrc]
      rfl
    · rw [hread]
      exact stored_writeconfig _ _

/-- One wrong bit in the state byte of a finished download, on an erased flash. -/
theorem config_integrity_one_bit :
    let c := defaultConfig.setStatus .downloadFinish
    let d := Driver.boot fun _ => 0xFF
    let error := replicate 192 false ++ [true] ++ replicate 199 false
    let bytes := c.withCrc.toBytes.take 24 ++ [0] ++ c.withCrc.toBytes.drop 25
    let altered := Nor.overwrite (writeconfig c d).2.flash configAddress bytes
    bootloaderReadconfig (powerOn (0 : UInt8) (writeconfig c d).2.flash) =
        { powerOn (0 : UInt8) (writeconfig c d).2.flash with spiflashConf := c.withCrc } ∧
      storedBits altered = zipWith xor (storedBits (writeconfig c d).2.flash) error ∧
      (bootloaderReadconfig (powerOn (0 : UInt8) altered)).spiflashConf.status = some .none := by
  intro c d error bytes altered
  have herror : Burst 16 (8 * size) error := by
    refine ⟨?_, ?_, 192, [true], 199, rfl, by decide⟩
    · rw [length_append, length_append, length_replicate, length_replicate]
      rfl
    · exact mem_append_left _ (mem_append_right _ (mem_singleton.mpr rfl))
  have hlen : bytes.length = size := by
    simp [bytes, length_toBytes, size]
  have hwindow : window altered configAddress size = bytes := by
    rw [← hlen]
    exact window_overwrite _ _ _
  have hbits : storedBits altered =
      zipWith xor (storedBits (writeconfig c d).2.flash) error := by
    rw [storedBits, storedBits, hwindow, window_writeconfig]
    decide +kernel
  refine ⟨?_, hbits, ?_⟩
  · exact (config_integrity c d (powerOn (0 : UInt8) (writeconfig c d).2.flash)).1
      (powerOn_flash _ _)
  · exact ((config_integrity c d (powerOn (0 : UInt8) altered)).2.2 error herror hbits).2.1

end Easyio.Boot
