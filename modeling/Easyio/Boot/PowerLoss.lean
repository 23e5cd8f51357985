import Easyio.Boot.Rounds

/-!
# An update survives power losses

The device starts with an old image in the application partition, a valid
configuration in state `NONE` or `DOWNLOAD_FINISH`, and anything in the firmware
region of the SPI flash.  Power may fail at any time, any number of times.  Then
the bootloader only ever jumps to the old image or to the complete new one
(`jump_to_complete_image`).

The invariant `UpdateInv` says for each stored state what the partition holds.
Only `BACKUP_FINISH` allows a mixture, and in that state the copy starts over at
the next boot.  Two details carry the argument:

* a broken configuration is replaced by one in state `NONE`, so the partition has
  to be complete whenever a write of the configuration can be interrupted;
* in state `BACKUP_FINISH` the hardware version is already right, so that
  `write_hardware_version` does not rewrite (and possibly break) the
  configuration while the partition is a mixture.
-/

namespace Easyio.Boot

open ChipFlash Config Crash Device Nor SpiflashConfig W25q16

/-- The new image: the payload behind the header. -/
def newImage (p : Device) : List UInt8 :=
  Nor.window p.spi (spiFlashFwAddress + headerSize) (newSize p)

section

variable (start p : Device)

/-- The application partition of `p` holds what it held in `start`. -/
def HoldsOld : Prop :=
  ∀ i, easyioAddress ≤ i → i < easyioAddress + easyioAppSize → p.chip i = start.chip i

/-- The application partition of `p` holds the new image of `start`. -/
def HoldsNew : Prop :=
  newSize start ≤ maxPayload ∧ Nor.window p.chip easyioAddress (newSize start) = newImage start

def Complete : Prop := HoldsOld start p ∨ HoldsNew start p

/-- What the partition holds, by stored configuration. -/
def PartitionInv : Option SpiflashConfig → Prop
  | none => Complete start p
  | some c =>
    match c.status with
    | some .none => Complete start p
    | some .downloadFinish => Complete start p
    | some .backupFinish => HardwareOk c ∧ (newSize start ≤ maxPayload ∨ Complete start p)
    | some .updateFinish => HoldsNew start p
    | _ => False

end

/-- The invariant of an update that began in `start`. -/
structure UpdateInv (start p : Device) : Prop where
  spi_same : SameSpi start p
  partition : ∀ view, stored p.spi = view → PartitionInv start p view

section Frame

variable {start p q : Device}

theorem PartitionInv.updating {c : SpiflashConfig} (h : PartitionInv start p (some c)) :
    Updating c.status := by
  rw [PartitionInv] at h
  rcases hstatus : c.status with - | status
  · simp only [hstatus] at h
  · cases status with
    | none | downloadFinish | backupFinish | updateFinish => simp [Updating]
    | waitFwSuccessRun | fwRun1 | fwRun2 | fwError => simp only [hstatus] at h

theorem Complete.congr (h : Complete start p) (hchip : q.chip = p.chip) : Complete start q := by
  rw [Complete, HoldsOld, HoldsNew, hchip]
  exact h

theorem SameSpi.newImage_eq (h : SameSpi p q) (hfits : newSize p ≤ maxPayload) :
    newImage q = newImage p := by
  rw [newImage, newImage, h.newSize_eq]
  refine window_congr fun i hi => h _ ?_
  simp only [maxPayload, easyioAppSize, headerSize] at hfits
  simp only [spiFlashFwAddress, configSector, configAddress]
  omega

theorem fwPayload_inside {size : ℕ} (h : size ≤ maxPayload) :
    spiFlashFwAddress + headerSize + size ≤ 2 ^ 24 := by
  simp only [maxPayload, easyioAppSize, headerSize] at h
  simp only [spiFlashFwAddress, easyioAppSize, headerSize]
  omega

theorem UpdateInv.of_broken (hspi : SameSpi start p) (hnone : stored p.spi = none)
    (h : Complete start p) : UpdateInv start p :=
  ⟨hspi, by rintro view rfl; rw [hnone]; exact h⟩

/-- The invariant holds also wherever the power is lost. -/
abbrev Safe (start p : Device) (ops : List (DeviceOp UInt8)) : Prop :=
  CrashSafe apply torn (UpdateInv start) p ops

/-- Storing a configuration that fits the partition, while that is complete. -/
theorem crashSafe_of_complete (hp : UpdateInv start p) (h : Complete start p) (c : SpiflashConfig)
    (hnew : ∀ q, q.chip = p.chip → PartitionInv start q (some c.withCrc)) :
    Safe start p ((configOps c).map .spi) := by
  refine crashSafe_configOps c hp ?_ ?_
  · intro q hspi hchip hnone
    exact .of_broken (hp.spi_same.trans hspi) hnone (h.congr hchip)
  · intro q hspi hchip hsome
    refine ⟨hp.spi_same.trans hspi, ?_⟩
    rintro view rfl
    rw [hsome]
    exact hnew q hchip

end Frame

/-! ## One round -/

/-- A machine in the middle of a boot, and what has been shown about it. -/
structure RoundOk (start p : Device) (r : Machine UInt8 × Option Outcome) : Prop where
  safe : CrashSafe apply torn (UpdateInv start) p r.1.log
  booting : r.2 = none → Booting p r.1
  complete : r.2 = some .jump → Complete start (replay apply p r.1.log)

section Round

variable {start p : Device} {m : Machine UInt8}

section

variable (hb : Booting p m) (hsafe : Safe start p m.log)
include hb hsafe

theorem Booting.partition : PartitionInv start (replay apply p m.log) (some m.spiflashConf) := by
  have hinv : UpdateInv start (replay apply p m.log) := hsafe.final
  exact hinv.partition _ (by rw [hb.flash_eq, hb.stored_eq])

theorem Booting.updating : Updating m.spiflashConf.status :=
  PartitionInv.updating (hb.partition hsafe)

theorem roundOk_save (h : Complete start (replay apply p m.log)) (status : OtaStatusMachine)
    (hnew : ∀ q : Device, q.chip = (replay apply p m.log).chip →
      PartitionInv start q (some (m.spiflashConf.setStatus status).withCrc)) :
    RoundOk start p (saveConfig (setStatus status m), none) := by
  have hsaved : Safe start p (saveConfig (setStatus status m)).log := by
    rw [saveConfig_log, setStatus_log, setStatus_conf]
    exact crashSafe_append.mpr ⟨hsafe, crashSafe_of_complete hsafe.final h _ hnew⟩
  exact ⟨hsaved, fun _ => hb.save status, nofun⟩

/-- During the copy the stored state stays `BACKUP_FINISH`, so the partition may be
anything. -/
theorem crashSafe_copy
    (hstatus : m.spiflashConf.status = some .backupFinish) (hfits : newSize start ≤ maxPayload)
    (ops : List (ChipOp UInt8)) : Safe start p (m.log ++ ops.map .chip) := by
  have hinv : UpdateInv start (replay apply p m.log) := hsafe.final
  set s := replay apply p m.log
  have hkeep : ∀ q : Device, q.spi = s.spi → UpdateInv start q := by
    intro q hq
    refine ⟨fun i hi => by rw [hq]; exact hinv.spi_same i hi, ?_⟩
    rintro view rfl
    rw [hq, hb.flash_eq, hb.stored_eq, PartitionInv, hstatus]
    exact ⟨hb.hardware, Or.inl hfits⟩
  refine crashSafe_append.mpr ⟨hsafe, ?_⟩
  have hcopy : CrashSafe apply torn (fun q : Device => q.spi = s.spi) s (ops.map .chip) := by
    refine crashSafe_of_step rfl ?_ ?_
    · intro op hop q hq
      obtain ⟨op, -, rfl⟩ := List.mem_map.mp hop
      exact hq
    · intro op hop q q' hq htorn
      obtain ⟨op, -, rfl⟩ := List.mem_map.mp hop
      exact htorn.1.trans hq
  exact hcopy.mono hkeep

end

theorem holdsNew_copy (hspi : SameSpi start (replay apply p m.log))
    (hflash : (replay apply p m.log).spi = m.spi.flash) (hfits : newSize start ≤ maxPayload) :
    HoldsNew start (replay apply p (copyPayload true (fun mem => mem) spiFlashFwAddress
      (newSize start) m).1.log) := by
  refine ⟨hfits, ?_⟩
  calc window (replay apply p (copyPayload true (fun mem => mem) spiFlashFwAddress
          (newSize start) m).1.log).chip easyioAddress (newSize start)
        = window m.spi.flash (spiFlashFwAddress + headerSize) (newSize start) :=
          window_copyPayload p m hfits (fwPayload_inside hfits)
    _ = newImage (replay apply p m.log) := by
          rw [newImage, hspi.newSize_eq, hflash]
    _ = newImage start := hspi.newImage_eq hfits

/-- The branch for `BACKUP_FINISH` with a size that fits. -/
theorem roundOk_update (heap : Heap) (hb : Booting p m) (hsafe : Safe start p m.log)
    (hstatus : m.spiflashConf.status = some .backupFinish) (hfits : newSize start ≤ maxPayload) :
    let copied := copyPayload heap.copyBuffer (fun mem => mem) spiFlashFwAddress (newSize start) m
    RoundOk start p (if copied.2 && heap.checkBuffer then
      (saveConfig (setStatus .updateFinish copied.1), some .jump) else (copied.1, some .halt)) := by
  intro copied
  obtain ⟨hspi, hconf, hreturn, ops, hlog⟩ :=
    copyPayload_frame m heap.copyBuffer (fun mem => mem) spiFlashFwAddress (newSize start)
  have hcopy : Safe start p copied.1.log := by
    rw [hlog]
    exact crashSafe_copy hb hsafe hstatus hfits ops
  split
  · next hdone =>
      have hmalloc : heap.copyBuffer = true := by
        rw [← hreturn]
        exact (Bool.and_eq_true_iff.mp hdone).1
      have hinv : UpdateInv start (replay apply p m.log) := hsafe.final
      have hnew : HoldsNew start (replay apply p copied.1.log) := by
        have h := holdsNew_copy hinv.spi_same hb.flash_eq hfits
        rwa [← hmalloc] at h
      have hsave := crashSafe_of_complete hcopy.final (Or.inr hnew)
        (m.spiflashConf.setStatus .updateFinish) (fun q hchip => by
          rw [PartitionInv, status_withCrc, status_setStatus]
          simp only [HoldsNew, hchip]
          exact hnew)
      have hsaved : (saveConfig (setStatus .updateFinish copied.1)).log = copied.1.log ++
          (configOps (m.spiflashConf.setStatus .updateFinish)).map .spi := by
        rw [saveConfig_log, setStatus_log, setStatus_conf, hconf]
      refine ⟨?_, nofun, ?_⟩
      · rw [hsaved]
        exact crashSafe_append.mpr ⟨hcopy, hsave⟩
      · intro _
        rw [hsaved, replay_append]
        exact Complete.congr (Or.inr hnew) (replay_configOps _ _).2.1
  · exact ⟨hcopy, nofun, nofun⟩

/-- **What a round keeps.** -/
theorem roundOk_round (heap : Heap) (hb : Booting p m) (hsafe : Safe start p m.log) :
    RoundOk start p (round heap (fun mem => mem) m) := by
  have hpart := hb.partition hsafe
  have hinv : UpdateInv start (replay apply p m.log) := hsafe.final
  have hsize : firmwareSize m.spi spiFlashFwAddress = newSize start := by
    rw [firmwareSize_eq _ (by decide), ← hb.flash_eq]
    exact hinv.spi_same.newSize_eq
  rw [PartitionInv] at hpart
  rw [round]
  rcases hstatus : m.spiflashConf.status with - | status
  · simp only [hstatus] at hpart
  · cases status with
    | none =>
      simp only [hstatus] at hpart
      exact ⟨hsafe, by simp, fun _ => hpart⟩
    | downloadFinish =>
      simp only [hstatus] at hpart
      refine roundOk_save hb hsafe hpart .backupFinish ?_
      intro q hchip
      exact ⟨hb.hardware, Or.inr (hpart.congr hchip)⟩
    | backupFinish =>
      simp only [hstatus] at hpart
      simp only [hsize]
      split
      · next hbig =>
          have hcomplete := hpart.2.resolve_left (Nat.not_le.mpr hbig)
          refine roundOk_save hb hsafe hcomplete .none ?_
          intro q hchip
          exact hcomplete.congr hchip
      · next hfits => exact roundOk_update heap hb hsafe hstatus (Nat.not_lt.mp hfits)
    | updateFinish =>
      simp only [hstatus] at hpart
      exact ⟨hsafe, by simp, fun _ => Or.inr hpart⟩
    | waitFwSuccessRun | fwRun1 | fwRun2 | fwError => simp only [hstatus] at hpart

theorem crashSafe_beforeLoop (hp : UpdateInv start p) : Safe start p (beforeLoop 0 p.spi).log := by
  rcases beforeLoop_cases (0 : UInt8) p.spi with ⟨c, -, -, heq⟩ | ⟨c, hc, hhw, heq⟩ | ⟨hnone, heq⟩
  · rw [heq, powerOn]
    exact crashSafe_nil.mpr hp
  · have hpart := hp.partition _ hc
    rw [heq, saveConfig_log]
    rw [PartitionInv] at hpart
    -- the state is unchanged, and `BACKUP_FINISH` comes with the right hardware version
    have hsame : (withHardwareVersion c).withCrc.status = c.status := rfl
    rcases hstatus : c.status with - | status
    · simp only [hstatus] at hpart
    · cases status with
      | none | downloadFinish =>
        simp only [hstatus] at hpart
        refine crashSafe_of_complete hp hpart _ ?_
        intro q hchip
        rw [PartitionInv, hsame, hstatus]
        exact hpart.congr hchip
      | backupFinish =>
        simp only [hstatus] at hpart
        exact absurd hpart.1 hhw
      | updateFinish =>
        simp only [hstatus] at hpart
        refine crashSafe_of_complete hp (Or.inr hpart) _ ?_
        intro q hchip
        rw [PartitionInv, hsame, hstatus]
        simp only [HoldsNew, hchip]
        exact hpart
      | waitFwSuccessRun | fwRun1 | fwRun2 | fwError => simp only [hstatus] at hpart
  · have hcomplete : Complete start p := hp.partition _ hnone
    rw [heq, saveConfig_log]
    refine crashSafe_of_complete hp hcomplete _ ?_
    intro q hchip
    exact hcomplete.congr hchip

/-- A boot keeps the invariant, and jumps only to a complete partition. -/
theorem boot_safe (heap : Heap) (hp : UpdateInv start p) :
    Safe start p (bootLog heap p) ∧
      ((bootDevice heap p).2 = some .jump → Complete start (afterBoot heap p)) := by
  have hloop : RoundOk start p (bootDevice heap p) :=
    boot_induction heap _ (P := fun m => Booting p m ∧ Safe start p m.log) (Q := RoundOk start p)
      (fun m h hnext => ⟨(roundOk_round heap h.1 h.2).booting hnext,
        (roundOk_round heap h.1 h.2).safe⟩)
      (fun m h _ => roundOk_round heap h.1 h.2) ⟨booting_beforeLoop p, crashSafe_beforeLoop hp⟩
  exact ⟨hloop.safe, hloop.complete⟩

end Round

/-! ## The application -/

/-- The operations the application issues when it starts on `p`. -/
def appLog (p : Device) : List (DeviceOp UInt8) := (appMainloop (powerOn 0 p.spi)).log

section App

variable {start p : Device} {m : Machine UInt8}

/-- The application in its first steps, on a complete partition. -/
structure Confirming (start p : Device) (m : Machine UInt8) : Prop where
  safe : CrashSafe apply torn (UpdateInv start) p m.log
  complete : Complete start (replay apply p m.log)

theorem Confirming.saveConfig (h : Confirming start p m)
    (hstatus : m.spiflashConf.status = some .none) : Confirming start p (saveConfig m) := by
  constructor
  · rw [saveConfig_log]
    refine crashSafe_append.mpr ⟨h.safe, crashSafe_of_complete h.safe.final h.complete _ ?_⟩
    intro q hchip
    rw [PartitionInv, status_withCrc, hstatus]
    exact h.complete.congr hchip
  · rw [saveConfig_log, replay_append]
    exact h.complete.congr (replay_configOps _ _).2.1

theorem Confirming.confirmUpdate (h : Confirming start p m) :
    Confirming start p (confirmUpdate m) ∧
      (Boot.confirmUpdate m).spiflashConf.status = some .none := by
  rw [Boot.confirmUpdate]
  split
  · have hstatus := status_setStatus (withFirmwareVersion m.spiflashConf) .none
    exact ⟨Confirming.saveConfig ⟨h.safe, h.complete⟩ hstatus,
      by rw [saveConfig_conf]; exact hstatus⟩
  · next hnone =>
      refine ⟨h, ?_⟩
      rw [SpiflashConfig.status, not_not.mp hnone, OtaStatusMachine.ofByte_toByte]

theorem Confirming.storeVersion (h : Confirming start p m)
    (hstatus : m.spiflashConf.status = some .none) : Confirming start p (storeVersion m) := by
  rw [Boot.storeVersion]
  split
  · exact Confirming.saveConfig ⟨h.safe, h.complete⟩ hstatus
  · exact h

theorem app_safe (hp : UpdateInv start p) (hcomplete : Complete start p) :
    Safe start p (appLog p) := by
  rw [appLog, appMainloop]
  split
  · exact crashSafe_nil.mpr hp
  · next c _ =>
      have hstart : Confirming start p { powerOn (0 : UInt8) p.spi with spiflashConf := c } :=
        ⟨crashSafe_nil.mpr hp, hcomplete⟩
      obtain ⟨hconfirmed, hstatus⟩ := hstart.confirmUpdate
      exact (hconfirmed.storeVersion hstatus).safe

end App

/-! ## Any number of power losses -/

/-- What a device may issue from power on to the next loss: the operations of a
boot and, if that jumps, those of the application. -/
inductive PowerCycle (p : Device) : List (DeviceOp UInt8) → Prop
  | boot (heap : Heap) : PowerCycle p (bootLog heap p)
  | app (heap : Heap) : (bootDevice heap p).2 = some .jump →
      PowerCycle p (bootLog heap p ++ appLog (afterBoot heap p))

theorem powerCycle_safe {start p : Device} {ops : List (DeviceOp UInt8)} (hp : UpdateInv start p)
    (hops : PowerCycle p ops) : Safe start p ops := by
  cases hops with
  | boot heap => exact (boot_safe heap hp).1
  | app heap hjump =>
    obtain ⟨hsafe, hcomplete⟩ := boot_safe heap hp
    exact crashSafe_append.mpr ⟨hsafe, app_safe hsafe.final (hcomplete hjump)⟩

theorem updateInv_start {start : Device} {c : SpiflashConfig} (hconf : stored start.spi = some c)
    (hstatus : c.status = some .none ∨ c.status = some .downloadFinish) :
    UpdateInv start start := by
  refine ⟨fun _ _ => rfl, ?_⟩
  rintro view rfl
  have hold : Complete start start := Or.inl fun _ _ _ => rfl
  rw [hconf, PartitionInv]
  rcases hstatus with h | h
  · rw [h]
    exact hold
  · rw [h]
    exact hold

/-- **Power-loss safety.**  From an old image, a valid configuration in state
`NONE` or `DOWNLOAD_FINISH` and any content of the firmware region: after any
number of power losses, when the bootloader jumps, the application partition
holds the complete old image or the complete new one. -/
theorem jump_to_complete_image {start p : Device} {c : SpiflashConfig} (heap : Heap)
    (hconf : stored start.spi = some c)
    (hstatus : c.status = some .none ∨ c.status = some .downloadFinish)
    (hreach : Reach apply torn PowerCycle start p)
    (hjump : (bootDevice heap p).2 = some .jump) :
    HoldsOld start (afterBoot heap p) ∨ HoldsNew start (afterBoot heap p) := by
  have hinv : UpdateInv start p :=
    hreach.invariant (updateInv_start hconf hstatus) fun _ _ hp hops => powerCycle_safe hp hops
  exact (boot_safe heap hinv).2 hjump

theorem UpdateInv.jumps {start p : Device} (hp : UpdateInv start p) :
    (bootDevice ⟨true, true⟩ p).2 = some .jump :=
  boot_jumps _ _ _ _ rfl rfl ((booting_beforeLoop p).updating (crashSafe_beforeLoop hp))

/-- The power is lost when the copy has erased the first page of the old image.  The next
boot jumps to the old image or to the new one. -/
theorem jump_to_complete_image_interrupted :
    newImage (imageDevice []) = [2, 2, 2, 2] ∧
    ∃ p, Reach apply torn PowerCycle (imageDevice []) p ∧ p.chip easyioAddress = 0 ∧
      (imageDevice []).chip easyioAddress = 1 ∧ (bootDevice ⟨true, true⟩ p).2 = some .jump ∧
      (HoldsOld (imageDevice []) (afterBoot ⟨true, true⟩ p) ∨
        HoldsNew (imageDevice []) (afterBoot ⟨true, true⟩ p)) := by
  obtain ⟨hspi, hchip, hconf⟩ := replay_configOps _ _
  have himage : newImage (imageDevice []) = [2, 2, 2, 2] := by
    rw [imageDevice, hspi.newImage_eq (by decide +kernel)]
    decide +kernel
  obtain ⟨p, hcrash, hzero⟩ := @afterCrash_update (imageDevice []) ⟨true, true⟩ _ hconf (by simp)
    newSize_imageDevice rfl rfl
  have hreach : Reach apply torn PowerCycle (imageDevice []) p := .crash .init (.boot _) hcrash
  have hinv : UpdateInv (imageDevice []) p :=
    hreach.invariant (updateInv_start hconf (.inr (by simp))) fun _ _ hp => powerCycle_safe hp
  exact ⟨himage, p, hreach, hzero, by rw [imageDevice, hchip], hinv.jumps,
    jump_to_complete_image ⟨true, true⟩ hconf (.inr (by simp)) hreach hinv.jumps⟩

end Easyio.Boot
