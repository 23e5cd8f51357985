import Easyio.ChipFlash.Copy
import Easyio.Boot.Mainloop

/-!
# Power losses on the device

`Device` is what survives a power loss: the two flash memories.  A loss may come
between any two flash operations, or inside one: an interrupted write of the
configuration sector leaves a configuration whose CRC is wrong, and an
interrupted operation on the program memory may leave anything in its page.

`crashSafe_configOps` is the rule for rewriting the configuration.  It asks for
the invariant in three views: the old configuration, a broken one and the new
one.  The rest of this file relates the machine of a boot to the device it runs
on (`Booting`), so that a boot can be followed round by round.
-/

namespace Easyio.Boot

open ChipFlash Config Crash List W25q16

/-- The SPI flash and the chip's program memory. -/
structure Device where
  spi : Nor.Cells
  chip : Nor.Cells

def configSector : ℕ := configAddress / 4096

/-- The address an operation on the program memory carries. -/
def chipAddr : ChipOp UInt8 → ℕ
  | .erasePage addr => addr
  | .programWord addr _ => addr

def Device.apply (p : Device) : DeviceOp UInt8 → Device
  | .spi op => { p with spi := norApply p.spi op }
  | .chip op => { p with chip := chipApply p.chip op }

/-- The SPI flash is the same outside the configuration sector. -/
def SameSpi (p q : Device) : Prop := ∀ i, i / 4096 ≠ configSector → q.spi i = p.spi i

/-- What an interrupted operation may leave. -/
def Device.torn (p : Device) : DeviceOp UInt8 → Device → Prop
  | .spi op, q => sectorOf op = configSector ∧ SameSpi p q ∧ q.chip = p.chip ∧ stored q.spi = none
  | .chip op, q => q.spi = p.spi ∧ ∀ i, i / 256 ≠ chipAddr op / 256 → q.chip i = p.chip i

variable {p : Device} {c : SpiflashConfig} {op : Nor.Op}

theorem SameSpi.trans {q r : Device} (h : SameSpi p q) (h' : SameSpi q r) : SameSpi p r :=
  fun i hi => (h' i hi).trans (h i hi)

theorem mem_configOps (hop : op ∈ configOps c) : op.InPage 256 ∧ sectorOf op = configSector := by
  have hsector : sectorOf op = 256 := sectorOf_of_mem_sectorWrite (length_configImage c) hop
  refine ⟨?_, hsector⟩
  rcases mem_cons.mp hop with rfl | hop
  · trivial
  · exact inPage_of_mem_pagePrograms hop

theorem sameSpi_apply (hop : op ∈ configOps c) : SameSpi p (p.apply (.spi op)) := by
  intro i hi
  obtain ⟨hpage, hsector⟩ := mem_configOps hop
  exact norApply_of_other_sector hpage (by rwa [hsector])

section

variable (c : SpiflashConfig)

/-- The first page of the sector `writeconfig` programs. -/
def firstPage : List UInt8 :=
  (c.withCrc.toBytes ++ padding SpiflashConfig.size).take 256

theorem configOps_eq :
    ∃ rest, configOps c = .erase configAddress :: .program configAddress (firstPage c) :: rest ∧
      ∀ op ∈ rest, ∀ mem, stored (norApply mem op) = stored mem := by
  obtain ⟨rest, hrest, hlater⟩ := pagePrograms_of_aligned configAddress
    (c.withCrc.toBytes ++ padding SpiflashConfig.size) (by decide)
    (by rw [length_configImage]; decide)
  refine ⟨rest, by rw [configOps, sectorWrite, hrest, firstPage], ?_⟩
  intro op hop mem
  obtain ⟨start, bytes, rfl, hpage, hstart, -⟩ := hlater op hop
  exact stored_of_later_page hpage hstart

theorem stored_erase_program (mem : Nor.Cells) :
    stored (norApply (norApply mem (.erase configAddress)) (.program configAddress (firstPage c))) =
      some c.withCrc := by
  refine stored_first_page c fun i hi => Nor.eraseBlock_apply_of_eq ?_
  have : i < 49 := hi
  rw [configAddress]
  omega

/-- **Rewriting the configuration.**  If `Inv` holds with the old configuration,
with a broken one and with the new one, then it holds wherever the write is
interrupted. -/
theorem crashSafe_configOps {Inv : Device → Prop} (hold : Inv p)
    (hbroken : ∀ q, SameSpi p q → q.chip = p.chip → stored q.spi = none → Inv q)
    (hnew : ∀ q, SameSpi p q → q.chip = p.chip → stored q.spi = some c.withCrc → Inv q) :
    CrashSafe Device.apply Device.torn Inv p ((configOps c).map .spi) := by
  obtain ⟨rest, hops, hrest⟩ := configOps_eq c
  -- what every interruption of the write leaves, from the erase on
  let Kept := fun q : Device =>
    SameSpi p q ∧ q.chip = p.chip ∧ (stored q.spi = none ∨ stored q.spi = some c.withCrc)
  have hkept : ∀ q, Kept q → Inv q := by
    rintro q ⟨hspi, hchip, hnone | hsome⟩
    · exact hbroken q hspi hchip hnone
    · exact hnew q hspi hchip hsome
  have htorn : ∀ op q q', SameSpi p q → q.chip = p.chip → q.torn (.spi op) q' → Kept q' := by
    rintro op q q' hspi hchip ⟨-, hspi', hchip', hnone⟩
    exact ⟨hspi.trans hspi', hchip'.trans hchip, Or.inl hnone⟩
  have hmem : ∀ op, op ∈ [.erase configAddress, .program configAddress (firstPage c)] ++ rest →
      op ∈ configOps c := fun op hop => by rw [hops]; exact hop
  have herase : SameSpi p (p.apply (.spi (.erase configAddress))) :=
    sameSpi_apply (hmem _ (by simp))
  have hfirst : SameSpi p ((p.apply (.spi (.erase configAddress))).apply
      (.spi (.program configAddress (firstPage c)))) :=
    herase.trans (sameSpi_apply (hmem _ (by simp)))
  have hsafe : CrashSafe Device.apply Device.torn Kept
      ((p.apply (.spi (.erase configAddress))).apply
      (.spi (.program configAddress (firstPage c)))) (rest.map .spi) := by
    refine crashSafe_of_step ⟨hfirst, rfl, Or.inr (stored_erase_program c p.spi)⟩ ?_ ?_
    · rintro op hop q ⟨hspi, hchip, hstored⟩
      obtain ⟨op, hin, rfl⟩ := mem_map.mp hop
      refine ⟨hspi.trans (sameSpi_apply (hmem op (by simp [hin]))), hchip, ?_⟩
      have hsame : stored (q.apply (.spi op)).spi = stored q.spi := hrest op hin q.spi
      rwa [hsame]
    · rintro op hop q q' ⟨hspi, hchip, -⟩ hq
      obtain ⟨op, -, rfl⟩ := mem_map.mp hop
      exact htorn op q q' hspi hchip hq
  rw [hops, map_cons, map_cons, crashSafe_cons, crashSafe_cons]
  refine ⟨hold, fun q hq => hkept q (htorn _ p q (fun _ _ => rfl) rfl hq), ?_, ?_, hsafe.mono hkept⟩
  · exact hbroken _ herase rfl (stored_erase p.spi)
  · exact fun q hq => hkept q (htorn _ _ q herase rfl hq)

end

theorem replay_configOps (p : Device) (c : SpiflashConfig) :
    SameSpi p (replay Device.apply p ((configOps c).map .spi)) ∧
      (replay Device.apply p ((configOps c).map .spi)).chip = p.chip ∧
      stored (replay Device.apply p ((configOps c).map .spi)).spi = some c.withCrc := by
  obtain ⟨rest, hops, hrest⟩ := configOps_eq c
  have hspi : SameSpi p (replay Device.apply p ((configOps c).map .spi)) := by
    intro i hi
    refine replay_frame (fun q : Device => q.spi i) ?_
    intro op hop q
    obtain ⟨op, hin, rfl⟩ := mem_map.mp hop
    exact sameSpi_apply hin i hi
  have hchip : (replay Device.apply p ((configOps c).map .spi)).chip = p.chip := by
    refine replay_frame Device.chip ?_
    intro op hop q
    obtain ⟨op, -, rfl⟩ := mem_map.mp hop
    rfl
  refine ⟨hspi, hchip, ?_⟩
  rw [hops, map_cons, map_cons, replay_cons, replay_cons]
  refine (replay_frame (fun q : Device => stored q.spi) ?_).trans
    (stored_erase_program c p.spi)
  intro op hop q
  obtain ⟨op, hin, rfl⟩ := mem_map.mp hop
  exact hrest op hin q.spi

end Easyio.Boot
