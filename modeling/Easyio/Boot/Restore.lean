import Easyio.Boot.PowerLoss

/-!
# The backup region and the restore branch

The bootloader has a branch that copies the backup region of the SPI flash back
into the application partition.  It is taken when the stored state is
`WAIT_FW_SUCCESS_RUN`, and it does what it should (`restore_jumps`).

But nothing in the bootloader stores this state: the branch for `UPDATE_FINISH` sets
it in RAM and jumps, without the `writeconfig` that follows every other change of the
state.  So a firmware that does not confirm itself is started again at every reset,
unless it stores the state itself.  Nor does anything write the backup region: the
branch for `DOWNLOAD_FINISH` leaves before the code that would fill it.  Which runs
roll back nevertheless is said by `rolls_back_iff`.
-/

namespace Easyio.Boot

open ChipFlash Config Crash Device List Nor Option SpiflashConfig W25q16

/-- The payload size in the header of the backup region. -/
def backupSize (p : Device) : ℕ := headerSizeAt p.spi spiFlashFwBckpAddress

def backupImage (p : Device) : List UInt8 :=
  Nor.window p.spi (spiFlashFwBckpAddress + headerSize) (backupSize p)

/-- The state in the configuration, if a valid one is stored. -/
def storedStatus (p : Device) : Option OtaStatusMachine := (stored p.spi).bind SpiflashConfig.status

section Frame

variable {p q : Device}

theorem SameSpi.backup_eq (h : SameSpi p q) {i : ℕ} (hlow : spiFlashFwBckpAddress ≤ i)
    (hhigh : i < spiFlashFwBckpAddress + easyioAppSize) : q.spi i = p.spi i := by
  refine h i ?_
  simp only [spiFlashFwBckpAddress, easyioAppSize] at hlow hhigh
  simp only [configSector, configAddress]
  omega

theorem SameSpi.backupSize_eq (h : SameSpi p q) : backupSize q = backupSize p := by
  rw [backupSize, headerSizeAt]
  congr 2
  refine window_congr fun i hi => h.backup_eq (by omega) ?_
  have : i < 23 := hi
  simp only [easyioAppSize]
  omega

theorem SameSpi.backupImage_eq (h : SameSpi p q) (hfits : backupSize p ≤ maxPayload) :
    backupImage q = backupImage p := by
  rw [backupImage, h.backupSize_eq]
  refine window_congr fun i hi => h.backup_eq (by omega) ?_
  simp only [maxPayload, easyioAppSize, headerSize] at hfits
  simp only [easyioAppSize, headerSize]
  omega

end Frame

/-! ## The restore branch -/

section Restore

variable {p : Device} {heap : Heap}

theorem restore_size (p : Device) :
    firmwareSize (beforeLoop (0 : UInt8) p.spi).spi spiFlashFwBckpAddress = backupSize p := by
  rw [firmwareSize_eq _ (by decide), ← (booting_beforeLoop p).flash_eq]
  exact (booting_beforeLoop p).spi_same.backupSize_eq

variable (hwait : storedStatus p = some .waitFwSuccessRun) (hfits : backupSize p ≤ maxPayload)
  (hmalloc : heap.copyBuffer = true)
include hwait hfits hmalloc

theorem bootDevice_restore :
    bootDevice heap p = (saveConfig (setStatus .none (copyPayload true (fun mem => mem)
      spiFlashFwBckpAddress (backupSize p) (beforeLoop 0 p.spi)).1), some .jump) := by
  obtain ⟨c, hc, hstatus⟩ := bind_eq_some_iff.mp hwait
  obtain ⟨-, -, hreturn, -⟩ := copyPayload_frame (beforeLoop (0 : UInt8) p.spi) true
    (fun mem => mem) spiFlashFwBckpAddress (backupSize p)
  rw [bootDevice, boot, loop, round, status_beforeLoop _ hc, hstatus]
  simp only [restore_size, if_neg (Nat.not_lt.mpr hfits), hmalloc, hreturn, if_true]
  rw [loop, round, saveConfig_conf, status_withCrc, setStatus_conf,
    status_setStatus]

/-- A restore whose size fits brings the backup back and jumps to it. -/
theorem restore_jumps : (bootDevice heap p).2 = some .jump ∧
      window (afterBoot heap p).chip easyioAddress (backupSize p) = backupImage p ∧
      storedStatus (afterBoot heap p) = some .none := by
  have hboot := bootDevice_restore hwait hfits hmalloc
  have hb := (booting_beforeLoop p).copyPayload true spiFlashFwBckpAddress (backupSize p)
  set copied := (copyPayload true (fun mem => mem) spiFlashFwBckpAddress (backupSize p)
    (beforeLoop 0 p.spi)).1
  have hsaved := hb.save .none
  have hsame := (booting_beforeLoop p).spi_same
  have hend : spiFlashFwBckpAddress + headerSize + backupSize p ≤ 2 ^ 24 := by
    simp only [maxPayload, easyioAppSize] at hfits
    simp only [spiFlashFwBckpAddress, headerSize]
    omega
  have hafter : afterBoot heap p =
      replay apply p (saveConfig (setStatus .none copied)).log := by
    rw [afterBoot, bootLog, hboot]
  refine ⟨by rw [hboot], ?_, ?_⟩
  · calc window (afterBoot heap p).chip easyioAddress (backupSize p)
          = window (replay apply p copied.log).chip easyioAddress (backupSize p) := by
            rw [hafter, saveConfig_log, setStatus_log, replay_append, (replay_configOps _ _).2.1]
      _ = window (beforeLoop (0 : UInt8) p.spi).spi.flash (spiFlashFwBckpAddress + headerSize)
            (backupSize p) := by
            rw [window_copyPayload p _ hfits hend]
      _ = backupImage p := by
            rw [← hsame.backupImage_eq hfits, backupImage, hsame.backupSize_eq,
              (booting_beforeLoop p).flash_eq]
  · rw [storedStatus, hafter, hsaved.flash_eq, hsaved.stored_eq]
    simp

end Restore

/-! ## Resets after an update -/

/-- A boot and a reset.  If the boot jumps, the firmware stores the configurations
`stores` in between. -/
structure Cycle where
  heap : Heap
  stores : List SpiflashConfig

def afterCycle (p : Device) (k : Cycle) : Device :=
  if (bootDevice k.heap p).2 = some .jump then
    replay apply (afterBoot k.heap p) (k.stores.flatMap fun c => (configOps c).map .spi)
  else afterBoot k.heap p

/-- The state that the firmware stores last is `WAIT_FW_SUCCESS_RUN`. -/
def Cycle.Waits (k : Cycle) : Prop :=
  ∃ c, k.stores.getLast? = some c ∧ c.status = some .waitFwSuccessRun

/-- The firmware neither confirms itself nor begins another update. -/
def Cycle.Unconfirmed (k : Cycle) : Prop :=
  ∀ c ∈ k.stores, c.status = some .updateFinish ∨ c.status = some .waitFwSuccessRun

/-- The boots of a run that jump before one of them enters the restore branch. -/
def jumpsBeforeRestore : List Cycle → Device → ℕ
  | [], _ => 0
  | k :: rest, p =>
    if storedStatus p = some .waitFwSuccessRun then 0
    else
      (if (bootDevice k.heap p).2 = some .jump then 1 else 0) +
        jumpsBeforeRestore rest (afterCycle p k)

section Cycles

variable {p : Device} {k : Cycle} {heap : Heap}

theorem sameSpi_afterCycle (p : Device) (k : Cycle) : SameSpi p (afterCycle p k) := by
  have hstart : SameSpi p p := fun _ _ => rfl
  have hboot : SameSpi p (afterBoot k.heap p) :=
    (crashSafe_sameSpi hstart (bootOps_bootLog k.heap p)).final
  unfold afterCycle
  split
  · refine (crashSafe_sameSpi hboot fun op hop => ?_).final
    obtain ⟨c, -, hc⟩ := mem_flatMap.mp hop
    obtain ⟨op, hin, rfl⟩ := mem_map.mp hc
    exact ⟨c, hin⟩
  · exact hboot

theorem sameSpi_run (p : Device) (run : List Cycle) : SameSpi p (replay afterCycle p run) := by
  induction run generalizing p with
  | nil => exact fun _ _ => rfl
  | cons k rest ih =>
    rw [replay_cons]
    exact (sameSpi_afterCycle p k).trans (ih (afterCycle p k))

theorem storedStatus_stores (p : Device) (stores : List SpiflashConfig) :
    storedStatus (replay apply p (stores.flatMap fun c => (configOps c).map .spi)) =
      stores.getLast?.elim (storedStatus p) SpiflashConfig.status := by
  rcases eq_nil_or_concat stores with rfl | ⟨front, c, rfl⟩
  · rw [flatMap_nil, replay_nil, getLast?_nil, elim_none]
  · rw [concat_eq_append, flatMap_append, replay_append, flatMap_singleton, storedStatus,
      (replay_configOps _ c).2.2, getLast?_concat]
    simp

/-- A boot that jumps to the new firmware and leaves `UPDATE_FINISH` stored. -/
structure Lands (heap : Heap) (p : Device) : Prop where
  early : storedStatus p ≠ some .waitFwSuccessRun
  jump : (bootDevice heap p).2 = some .jump
  status : storedStatus (afterBoot heap p) = some .updateFinish

theorem lands_of_downloadFinish {c : SpiflashConfig} (hc : stored p.spi = some c)
    (hstatus : c.status = some .downloadFinish) (hfits : newSize p ≤ maxPayload)
    (hcopy : heap.copyBuffer = true) (hcheck : heap.checkBuffer = true) : Lands heap p := by
  have hboot := bootDevice_update hc hstatus hfits hcopy hcheck
  have hb := (((booting_beforeLoop p).save .backupFinish).copyPayload true spiFlashFwAddress
    (newSize p)).save .updateFinish
  refine ⟨by rw [storedStatus, hc, bind_some, hstatus]; decide, by rw [hboot], ?_⟩
  rw [storedStatus, afterBoot, bootLog, hboot, hb.flash_eq, hb.stored_eq]
  simp

/-- With `UPDATE_FINISH` stored a boot jumps and stores no other state: the next one is
only set in RAM. -/
theorem lands_of_updateFinish (h : storedStatus p = some .updateFinish) (heap : Heap) :
    Lands heap p := by
  obtain ⟨c, hc, hstatus⟩ := bind_eq_some_iff.mp h
  have hb := booting_beforeLoop p
  have hboot : bootDevice heap p =
      (setStatus .waitFwSuccessRun (beforeLoop 0 p.spi), some .jump) := by
    rw [bootDevice, boot, loop, round, status_beforeLoop _ hc, hstatus]
  refine ⟨by rw [h]; decide, by rw [hboot], ?_⟩
  rw [storedStatus, afterBoot, bootLog, hboot, setStatus_log, hb.flash_eq, hb.stored_eq, bind_some,
    status_beforeLoop _ hc, hstatus]

theorem Lands.of_waits (h : Lands k.heap p) (hwaits : k.Waits) :
    storedStatus (afterCycle p k) = some .waitFwSuccessRun := by
  obtain ⟨c, hlast, hc⟩ := hwaits
  rw [afterCycle, if_pos h.jump, storedStatus_stores, hlast, elim_some, hc]

theorem Lands.of_not_waits (h : Lands k.heap p) (hk : k.Unconfirmed) (hwaits : ¬ k.Waits) :
    storedStatus (afterCycle p k) = some .updateFinish := by
  rw [afterCycle, if_pos h.jump, storedStatus_stores]
  cases hlast : k.stores.getLast? with
  | none => rw [elim_none, h.status]
  | some c =>
    rw [elim_some]
    exact (hk c (mem_of_getLast? hlast)).resolve_right fun hc => hwaits ⟨c, hlast, hc⟩

/-- A firmware that does not confirm itself is started at every reset, until it stores
`WAIT_FW_SUCCESS_RUN` itself. -/
theorem Lands.jumps_le_iff {rest : List Cycle} (h : Lands k.heap p)
    (hrun : ∀ k' ∈ k :: rest, k'.Unconfirmed) (n : ℕ) :
    jumpsBeforeRestore (k :: rest) p ≤ n ↔
      (k :: rest).length ≤ n ∨ ∃ k' ∈ (k :: rest).take n, k'.Waits := by
  induction rest generalizing k p n with
  | nil =>
    rw [jumpsBeforeRestore, if_neg h.early, if_pos h.jump, jumpsBeforeRestore]
    cases n <;> simp
  | cons next rest ih =>
    obtain ⟨hk, hrest⟩ := forall_mem_cons.mp hrun
    rw [jumpsBeforeRestore, if_neg h.early, if_pos h.jump]
    cases n with
    | zero => simp
    | succ n =>
      simp only [take_succ_cons, mem_cons, exists_eq_or_imp, length_cons, Nat.add_comm 1,
        Nat.add_le_add_iff_right]
      by_cases hwaits : k.Waits
      · rw [jumpsBeforeRestore, if_pos (h.of_waits hwaits)]
        exact iff_of_true (Nat.zero_le n) (.inr (.inl hwaits))
      · have hlands := lands_of_updateFinish (h.of_not_waits hk hwaits) next.heap
        rw [ih hlands hrest n]
        simp [hwaits]

end Cycles

/-- The backup region of `p` holds the image of `size` bytes that was in the partition of
`before`. -/
def BackupHolds (before : Device) (size : ℕ) (p : Device) : Prop :=
  size ≤ maxPayload ∧ backupSize p = size ∧
    backupImage p = Nor.window before.chip easyioAddress size

theorem SameSpi.backupHolds_iff {before p q : Device} {size : ℕ} (h : SameSpi p q) :
    BackupHolds before size q ↔ BackupHolds before size p := by
  unfold BackupHolds
  rw [h.backupSize_eq]
  refine and_congr_right fun hfits => and_congr_right fun hsize => ?_
  rw [h.backupImage_eq (hsize ▸ hfits)]

/-- The run `run` of a device, which was `before` when the update began, rolls back to the
image of `size` bytes that ran then. -/
structure RollsBack (before : Device) (size : ℕ) (run : List Cycle) : Prop where
  /-- the new firmware is started twice at most -/
  jumps : jumpsBeforeRestore run before ≤ 2
  /-- the restore branch puts the old image back, stores `NONE` and jumps -/
  restores : ∀ done k, done ++ [k] <+: run →
    storedStatus (replay afterCycle before done) = some .waitFwSuccessRun →
    k.heap.copyBuffer = true →
      (bootDevice k.heap (replay afterCycle before done)).2 = some .jump ∧
      Nor.window (afterBoot k.heap (replay afterCycle before done)).chip easyioAddress size =
        Nor.window before.chip easyioAddress size ∧
      storedStatus (afterBoot k.heap (replay afterCycle before done)) = some .none
  backup : BackupHolds before size (replay afterCycle before run)

end Easyio.Boot
