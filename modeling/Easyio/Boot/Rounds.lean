import Easyio.Boot.Device

/-!
# Following a boot

Small lemmas about the pieces of `mainloop`, and the relation `Booting` between
the machine of a boot and the device under it: the device that the operations
issued so far lead to has the machine's SPI flash, and the configuration stored
there is the one in RAM.
-/

namespace Easyio.Boot

open ChipFlash Config Crash Device List Nor W25q16

section Pieces

variable {α : Type*} (m : Machine α)

@[simp] theorem saveConfig_conf : (saveConfig m).spiflashConf = m.spiflashConf.withCrc :=
  (writeconfig_spec m.spiflashConf m.spi).1

@[simp] theorem saveConfig_log :
    (saveConfig m).log = m.log ++ (configOps m.spiflashConf).map .spi := by
  rw [saveConfig, (writeconfig_spec m.spiflashConf m.spi).2.1]

@[simp] theorem saveConfig_flash :
    (saveConfig m).spi.flash = replay norApply m.spi.flash (configOps m.spiflashConf) :=
  (writeconfig_spec m.spiflashConf m.spi).2.2

@[simp] theorem setStatus_conf (s : OtaStatusMachine) :
    (setStatus s m).spiflashConf = m.spiflashConf.setStatus s := rfl

@[simp] theorem setStatus_log (s : OtaStatusMachine) : (setStatus s m).log = m.log := rfl

/-- `firmware_header.size` of the header at `addr`, as a function of the cells. -/
def headerSizeAt (mem : Cells) (addr : ℕ) : ℕ :=
  (Bytes.getLe32 (window mem addr headerSize) 0).toNat

theorem firmwareSize_eq (d : Driver) {addr : ℕ} (haddr : addr + headerSize ≤ 2 ^ 24) :
    firmwareSize d addr = headerSizeAt d.flash addr := by
  rw [firmwareSize, spiFlashRead_eq_window d haddr, headerSizeAt]

/-- What a copy that got its buffer adds to the log. -/
theorem copyPayload_true (cell : Cells → ℕ → α) (addr : ℕ) {size : ℕ} (hsize : size ≤ maxPayload) :
    ∃ filler, IsFiller m.prog.writeFlashBuffer
        (readCells (cell m.spi.flash) (addr + headerSize) size) filler ∧
      (copyPayload true cell addr size m).1.log = m.log ++
        (flashErase (size + 1) easyioAddress (easyioAddress + size) ++
          wordOps easyioAddress
            (readCells (cell m.spi.flash) (addr + headerSize) size ++ filler)).map .chip ∧
      (copyPayload true cell addr size m).2 = true := by
  have hbound : size + 4 < 2 ^ 18 := by
    have : maxPayload + 4 < 2 ^ 18 := by decide
    omega
  obtain ⟨filler, hfiller, hops⟩ := spiflash2chipflash_ops (cell m.spi.flash)
    (addr + headerSize) easyioAddress { m.prog with ops := [] } hbound
  refine ⟨filler, hfiller, ?_, rfl⟩
  rw [copyPayload]
  simp only
  rw [hops, nil_append]

/-- Whether it got its buffer or not, a copy only issues operations on the program
memory and leaves the SPI flash and the configuration alone. -/
theorem copyPayload_frame (malloc : Bool) (cell : Cells → ℕ → α) (addr size : ℕ) :
    (copyPayload malloc cell addr size m).1.spi = m.spi ∧
      (copyPayload malloc cell addr size m).1.spiflashConf = m.spiflashConf ∧
      (copyPayload malloc cell addr size m).2 = malloc ∧
      ∃ ops : List (ChipOp α),
        (copyPayload malloc cell addr size m).1.log = m.log ++ ops.map .chip := by
  refine ⟨rfl, rfl, ?_, _, rfl⟩
  cases malloc <;> rfl

/-- `HARDWARE_VERSION_H_VAL` and `HARDWARE_VERSION_L_VAL` are in the configuration. -/
def HardwareOk (c : SpiflashConfig) : Prop := c.hardwareVersionH = 1 ∧ c.hardwareVersionL = 0

/-- The configuration in RAM and the commands issued when the loop begins, in the
three cases: a valid configuration of this hardware, a valid one of another, and
none. -/
theorem beforeLoop_cases (blank : α) (spi : Cells) :
    (∃ c, stored spi = some c ∧ HardwareOk c ∧ beforeLoop blank spi =
        { powerOn blank spi with spiflashConf := c }) ∨
      (∃ c, stored spi = some c ∧ ¬ HardwareOk c ∧ beforeLoop blank spi =
        saveConfig { powerOn blank spi with spiflashConf := withHardwareVersion c }) ∨
      (stored spi = none ∧ beforeLoop blank spi =
        saveConfig { powerOn blank spi with spiflashConf := defaultConfig }) := by
  have hload : load (powerOn blank spi).spi =
      .ofBytes (window spi configAddress SpiflashConfig.size) := load_eq _
  rw [beforeLoop, bootloaderReadconfig, hload]
  simp only [stored]
  set c := SpiflashConfig.ofBytes (window spi configAddress SpiflashConfig.size)
  by_cases hcrc : c.configCrc = c.crc
  · rw [if_pos hcrc, if_pos hcrc]
    by_cases hhw : c.hardwareVersionH = 1 ∧ c.hardwareVersionL = 0
    · exact Or.inl ⟨c, rfl, hhw, if_pos hhw⟩
    · exact Or.inr (Or.inl ⟨c, rfl, hhw, if_neg hhw⟩)
  · rw [if_neg hcrc, if_neg hcrc]
    refine Or.inr (Or.inr ⟨rfl, if_pos ?_⟩)
    exact ⟨rfl, rfl⟩

theorem status_beforeLoop (blank : α) {spi : Cells} {c : SpiflashConfig}
    (hc : stored spi = some c) : (beforeLoop blank spi).spiflashConf.status = c.status := by
  rcases beforeLoop_cases blank spi with ⟨c', hc', -, heq⟩ | ⟨c', hc', -, heq⟩ | ⟨hnone, -⟩
  · obtain rfl : c = c' := Option.some.inj (hc.symm.trans hc')
    rw [heq]
  · obtain rfl : c = c' := Option.some.inj (hc.symm.trans hc')
    rw [heq]
    rfl
  · rw [hc] at hnone
    cases hnone

end Pieces

/-! ## The number of rounds -/

/-- A bound on the rounds `mainloop` still takes. -/
def roundsLeft : Option OtaStatusMachine → ℕ
  | some .downloadFinish => 3
  | some .backupFinish => 2
  | some .waitFwSuccessRun => 2
  | _ => 1

section Rounds

variable {α : Type*} (heap : Heap) (cell : Cells → ℕ → α)

theorem roundsLeft_round (m : Machine α) (h : (round heap cell m).2 = none) :
    roundsLeft (round heap cell m).1.spiflashConf.status < roundsLeft m.spiflashConf.status := by
  revert h
  rw [round]
  rcases m.spiflashConf.status with - | s
  · simp
  · cases s with
    | none | updateFinish | fwRun1 | fwRun2 | fwError => simp
    | downloadFinish => simp [roundsLeft]
    | backupFinish =>
      simp only
      split
      · simp [roundsLeft]
      · split <;> simp
    | waitFwSuccessRun =>
      simp only
      split
      · simp
      · split <;> simp [roundsLeft]

/-- The rule for the loop: the rounds keep `P`, and the last one leaves `Q`. -/
theorem boot_induction {P : Machine α → Prop} {Q : Machine α × Option Outcome → Prop}
    (hnext : ∀ m, P m → (round heap cell m).2 = none → P (round heap cell m).1)
    (hlast : ∀ m, P m → (round heap cell m).2 ≠ none → Q (round heap cell m))
    {blank : α} {spi : Cells} (h : P (beforeLoop blank spi)) : Q (boot heap cell blank spi) := by
  have hloop : ∀ fuel m, roundsLeft m.spiflashConf.status ≤ fuel → P m →
      Q (loop heap cell fuel m) := by
    intro fuel
    induction fuel with
    | zero =>
      intro m hfuel
      have : 0 < roundsLeft m.spiflashConf.status := by
        unfold roundsLeft
        split <;> omega
      omega
    | succ fuel ih =>
      intro m hfuel hm
      have hleft := roundsLeft_round heap cell m
      have hnext := hnext m hm
      have hlast := hlast m hm
      rw [loop]
      rcases hround : round heap cell m with ⟨m', - | outcome⟩
      · rw [hround] at hleft hnext
        exact ih m' (Nat.le_of_lt_succ ((hleft rfl).trans_le hfuel)) (hnext rfl)
      · rw [hround] at hlast
        exact hlast nofun
  refine hloop 3 _ ?_ h
  unfold roundsLeft
  split <;> omega

/-- A boot ends: it jumps or it halts. -/
theorem boot_ends (blank : α) (spi : Cells) : (boot heap cell blank spi).2 ≠ none :=
  boot_induction heap cell (P := fun _ => True) (Q := fun r => r.2 ≠ none) (fun _ _ _ => trivial)
    (fun _ _ h => h) trivial

/-- The states of an update that goes forward. -/
def Updating (status : Option OtaStatusMachine) : Prop :=
  status = some .none ∨ status = some .downloadFinish ∨ status = some .backupFinish ∨
    status = some .updateFinish

theorem round_jumps (m : Machine α) (hcopy : heap.copyBuffer = true)
    (hcheck : heap.checkBuffer = true) (h : Updating m.spiflashConf.status) :
    (round heap cell m).2 = some .jump ∨
      (round heap cell m).2 = none ∧ Updating (round heap cell m).1.spiflashConf.status := by
  rw [round]
  rcases h with h | h | h | h
  · simp [h]
  · simp [h, Updating]
  · simp only [h, hcopy, hcheck]
    split
    · simp [Updating]
    · simp [copyPayload, spiflash2chipflash]
  · simp [h]

theorem boot_jumps (blank : α) (spi : Cells) (hcopy : heap.copyBuffer = true)
    (hcheck : heap.checkBuffer = true) (h : Updating (beforeLoop blank spi).spiflashConf.status) :
    (boot heap cell blank spi).2 = some .jump := by
  have hround := fun m => round_jumps heap cell m hcopy hcheck
  exact boot_induction heap cell (P := fun m => Updating m.spiflashConf.status)
    (Q := fun r => r.2 = some .jump)
    (fun m hm hnone => ((hround m hm).resolve_left (by rw [hnone]; nofun)).2)
    (fun m hm hsome => (hround m hm).resolve_right fun h => hsome h.1) h

end Rounds

/-! ## Which operations a boot issues -/

/-- A command of a configuration write, or an operation on the program memory. -/
def BootOp {α : Type*} : DeviceOp α → Prop
  | .spi op => ∃ c, op ∈ configOps c
  | .chip _ => True

section BootOps

variable {α : Type*} {m : Machine α}

theorem bootOps_saveConfig (h : ∀ op ∈ m.log, BootOp op) :
    ∀ op ∈ (saveConfig m).log, BootOp op := by
  intro op hop
  rw [saveConfig_log, mem_append] at hop
  rcases hop with hop | hop
  · exact h op hop
  · obtain ⟨op, hin, rfl⟩ := mem_map.mp hop
    exact ⟨_, hin⟩

theorem bootOps_copyPayload (h : ∀ op ∈ m.log, BootOp op) (malloc : Bool)
    (cell : Cells → ℕ → α) (addr size : ℕ) :
    ∀ op ∈ (copyPayload malloc cell addr size m).1.log, BootOp op := by
  obtain ⟨-, -, -, ops, hlog⟩ := copyPayload_frame m malloc cell addr size
  intro op hop
  rw [hlog, mem_append] at hop
  rcases hop with hop | hop
  · exact h op hop
  · obtain ⟨op, -, rfl⟩ := mem_map.mp hop
    trivial

theorem bootOps_round (heap : Heap) (cell : Cells → ℕ → α) (h : ∀ op ∈ m.log, BootOp op) :
    ∀ op ∈ (round heap cell m).1.log, BootOp op := by
  rw [round]
  split
  · exact h
  · exact bootOps_saveConfig h
  · simp only
    split
    · exact bootOps_saveConfig h
    · have hcopy := bootOps_copyPayload h heap.copyBuffer cell spiFlashFwAddress
        (firmwareSize m.spi spiFlashFwAddress)
      split
      · exact bootOps_saveConfig hcopy
      · exact hcopy
  · exact h
  · simp only
    split
    · exact h
    · have hcopy := bootOps_copyPayload h heap.copyBuffer cell spiFlashFwBckpAddress
        (firmwareSize m.spi spiFlashFwBckpAddress)
      split
      · exact bootOps_saveConfig hcopy
      · exact hcopy
  · exact h

theorem bootOps_beforeLoop (blank : α) (spi : Cells) :
    ∀ op ∈ (beforeLoop blank spi).log, BootOp op := by
  rcases beforeLoop_cases blank spi with ⟨c, -, -, heq⟩ | ⟨c, -, -, heq⟩ | ⟨-, heq⟩
  · rw [heq, powerOn]
    simp
  all_goals
    rw [heq]
    exact bootOps_saveConfig (by simp [powerOn])

/-- Nothing else is issued by a boot: its commands to the SPI flash are all
configuration writes. -/
theorem bootOps_boot (heap : Heap) (cell : Cells → ℕ → α) (blank : α) (spi : Cells) :
    ∀ op ∈ (boot heap cell blank spi).1.log, BootOp op :=
  boot_induction heap cell (P := fun m => ∀ op ∈ m.log, BootOp op)
    (Q := fun r => ∀ op ∈ r.1.log, BootOp op) (fun _ h _ => bootOps_round heap cell h)
    (fun _ h _ => bootOps_round heap cell h) (bootOps_beforeLoop blank spi)

end BootOps

variable {p : Device} {m : Machine UInt8} {addr : ℕ}

/-- So the SPI flash outside the configuration sector never changes. -/
theorem crashSafe_sameSpi {start : Device} {ops : List (DeviceOp UInt8)} (hp : SameSpi start p)
    (hops : ∀ op ∈ ops, BootOp op) : CrashSafe apply torn (SameSpi start) p ops := by
  refine crashSafe_of_step hp ?_ ?_
  · intro op hop q hq
    cases op with
    | spi op =>
      obtain ⟨c, hc⟩ := hops _ hop
      exact hq.trans (sameSpi_apply hc)
    | chip op => exact hq
  · intro op _ q q' hq htorn
    cases op with
    | spi op => exact hq.trans htorn.2.1
    | chip op => exact fun i hi => by rw [htorn.1]; exact hq i hi

/-! ## The device under a boot -/

def bootDevice (heap : Heap) (p : Device) : Machine UInt8 × Option Outcome :=
  boot heap (fun mem => mem) 0 p.spi

def bootLog (heap : Heap) (p : Device) : List (DeviceOp UInt8) := (bootDevice heap p).1.log

/-- The device after a boot that was not interrupted. -/
def afterBoot (heap : Heap) (p : Device) : Device := replay apply p (bootLog heap p)

theorem bootOps_bootLog (heap : Heap) (p : Device) : ∀ op ∈ bootLog heap p, BootOp op := by
  rw [bootLog, bootDevice]
  exact bootOps_boot heap _ 0 p.spi

theorem spi_replay_spi (p : Device) (ops : List Nor.Op) :
    (replay apply p (ops.map .spi)).spi = replay norApply p.spi ops := by
  induction ops generalizing p with
  | nil => rfl
  | cons op rest ih => exact ih _

theorem replay_chip (p : Device) (ops : List (ChipOp UInt8)) :
    replay apply p (ops.map .chip) = { p with chip := replay chipApply p.chip ops } := by
  induction ops generalizing p with
  | nil => rfl
  | cons op rest ih => exact ih _

/-- A machine in the middle of a boot of `p`, all of its configuration stored. -/
structure Booting (p : Device) (m : Machine UInt8) : Prop where
  flash_eq : (replay apply p m.log).spi = m.spi.flash
  spi_same : SameSpi p (replay apply p m.log)
  stored_eq : stored m.spi.flash = some m.spiflashConf
  hardware : HardwareOk m.spiflashConf

theorem booting_saveConfig (hflash : (replay apply p m.log).spi = m.spi.flash)
    (hsame : SameSpi p (replay apply p m.log)) (hhardware : HardwareOk m.spiflashConf) :
    Booting p (saveConfig m) := by
  have hspi : (replay apply p (saveConfig m).log).spi = (saveConfig m).spi.flash := by
    rw [saveConfig_log, replay_append, spi_replay_spi, hflash, saveConfig_flash]
  refine ⟨hspi, ?_, ?_, by rw [saveConfig_conf]; exact hhardware⟩
  · rw [saveConfig_log, replay_append]
    exact hsame.trans (replay_configOps _ _).1
  · rw [← hspi, saveConfig_log, replay_append]
    exact (replay_configOps _ _).2.2

theorem Booting.save (hb : Booting p m) (status : OtaStatusMachine) :
    Booting p (saveConfig (setStatus status m)) :=
  booting_saveConfig hb.flash_eq hb.spi_same hb.hardware

theorem booting_beforeLoop (p : Device) : Booting p (beforeLoop 0 p.spi) := by
  rcases beforeLoop_cases (0 : UInt8) p.spi with ⟨c, hc, hhw, heq⟩ | ⟨c, -, -, heq⟩ | ⟨-, heq⟩
  · rw [heq]
    exact ⟨rfl, fun _ _ => rfl, hc, hhw⟩
  all_goals
    rw [heq]
    exact booting_saveConfig rfl (fun _ _ => rfl) ⟨rfl, rfl⟩

theorem Booting.copyPayload (hb : Booting p m) (malloc : Bool) (addr size : ℕ) :
    Booting p (copyPayload malloc (fun mem => mem) addr size m).1 := by
  obtain ⟨hspi, hconf, -, ops, hlog⟩ := copyPayload_frame m malloc (fun mem => mem) addr size
  refine ⟨?_, ?_, by rw [hspi, hconf]; exact hb.stored_eq, by rw [hconf]; exact hb.hardware⟩
  · rw [hlog, replay_append, replay_chip, hspi]
    exact hb.flash_eq
  · rw [hlog, replay_append, replay_chip]
    exact hb.spi_same

theorem readCells_eq_window (mem : Cells) {n : ℕ} (hend : addr + n ≤ 2 ^ 24) :
    readCells mem addr n = window mem addr n := by
  apply map_congr_left
  intro i hi
  have := mem_range.mp hi
  rw [addr24, Nat.mod_eq_of_lt (by omega)]

theorem window_copyPayload (p : Device) (m : Machine UInt8) {size : ℕ} (hsize : size ≤ maxPayload)
    (hend : addr + headerSize + size ≤ 2 ^ 24) :
    window (replay apply p (copyPayload true (fun mem => mem) addr size m).1.log).chip
      easyioAddress size = window m.spi.flash (addr + headerSize) size := by
  obtain ⟨filler, hfiller, hlog, -⟩ := copyPayload_true m (fun mem => mem) addr hsize
  rw [readCells_eq_window _ hend] at hfiller hlog
  have hwindow := window_replay_copy (replay apply p m.log).chip easyioAddress
    (flashErase (size + 1) easyioAddress (easyioAddress + size)) hfiller.whole
  rw [length_window] at hwindow
  rw [hlog, replay_append, replay_chip]
  exact hwindow

/-- The payload size in the header of the firmware region. -/
def newSize (p : Device) : ℕ := headerSizeAt p.spi spiFlashFwAddress

theorem SameSpi.newSize_eq {q : Device} (h : SameSpi p q) : newSize q = newSize p := by
  rw [newSize, newSize, headerSizeAt, headerSizeAt]
  congr 2
  refine window_congr fun i hi => h _ ?_
  have : i < 23 := hi
  simp only [spiFlashFwAddress, configSector, configAddress]
  omega

section Update

variable {heap : Heap} {c : SpiflashConfig} (hc : stored p.spi = some c)
  (hstatus : c.status = some .downloadFinish) (hfits : newSize p ≤ maxPayload)
  (hcopy : heap.copyBuffer = true) (hcheck : heap.checkBuffer = true)
include hc hstatus hfits hcopy hcheck

theorem bootDevice_update :
    bootDevice heap p = (saveConfig (setStatus .updateFinish (copyPayload true (fun mem => mem)
      spiFlashFwAddress (newSize p) (saveConfig (setStatus .backupFinish
        (beforeLoop 0 p.spi)))).1), some .jump) := by
  have hb := (booting_beforeLoop p).save .backupFinish
  have hbackup : (saveConfig (setStatus .backupFinish
      (beforeLoop (0 : UInt8) p.spi))).spiflashConf.status = some .backupFinish := by simp
  have hsize : firmwareSize (saveConfig (setStatus .backupFinish
      (beforeLoop (0 : UInt8) p.spi))).spi spiFlashFwAddress = newSize p := by
    rw [firmwareSize_eq _ (by decide), ← hb.flash_eq]
    exact hb.spi_same.newSize_eq
  rw [bootDevice, boot, loop, round, status_beforeLoop _ hc, hstatus]
  simp only
  generalize saveConfig (setStatus .backupFinish (beforeLoop (0 : UInt8) p.spi)) = saved at *
  have hreturn := (copyPayload_frame saved true (fun mem => mem) spiFlashFwAddress
    (newSize p)).2.2.1
  rw [loop, round, hbackup]
  simp only [hsize, if_neg (Nat.not_lt.mpr hfits), hcopy, hcheck, hreturn, Bool.and_self, if_true]

/-- The power is lost when the first page of the partition is erased. -/
theorem afterCrash_update :
    ∃ q, AfterCrash apply torn p (bootLog heap p) q ∧ q.chip easyioAddress = 0 := by
  have hboot := bootDevice_update hc hstatus hfits hcopy hcheck
  generalize saveConfig (setStatus .backupFinish (beforeLoop (0 : UInt8) p.spi)) = saved at hboot
  obtain ⟨filler, -, hlog, -⟩ := copyPayload_true saved (fun mem => mem) spiFlashFwAddress hfits
  refine ⟨_, .between (saved.log ++ [.chip (.erasePage easyioAddress)]) ?_, ?_⟩
  · rw [bootLog, hboot, saveConfig_log, setStatus_log, hlog, append_assoc]
    refine (prefix_append_right_inj _).mpr ?_
    rw [flashErase, if_pos (Nat.le_add_right ..)]
    exact prefix_append [_] _
  · simp [replay_append, Device.apply, chipApply]

end Update

/-- An old image of ones in the program memory, and in the SPI flash a finished download of
four twos and `backup` in the backup region. -/
def imageDevice (backup : List UInt8) : Device :=
  replay apply ⟨overwrite (overwrite (fun _ => 0xFF) spiFlashFwAddress
      (Bytes.le32 4 ++ replicate 23 2)) spiFlashFwBckpAddress backup, fun _ => 1⟩
    ((configOps (defaultConfig.setStatus .downloadFinish)).map .spi)

theorem newSize_imageDevice : newSize (imageDevice []) ≤ maxPayload := by
  rw [imageDevice, (replay_configOps _ _).1.newSize_eq]
  decide +kernel

/-- **Boots leave the stored images alone**, wherever the power is lost and whatever the flash
holds. -/
theorem sameSpi_of_boots {start : Device}
    (h : Reach apply torn (fun p ops => ∃ heap, ops = bootLog heap p) start p) :
    SameSpi start p := by
  have hsafe : ∀ p ops, SameSpi start p → (∃ heap, ops = bootLog heap p) →
      CrashSafe apply torn (SameSpi start) p ops := by
    intro p ops hp ⟨heap, hops⟩
    rw [hops]
    exact crashSafe_sameSpi hp (bootOps_bootLog heap p)
  have hstart : SameSpi start start := fun _ _ => rfl
  exact h.invariant hstart hsafe

/-- A boot of a device with stored images that is interrupted while it copies. -/
theorem sameSpi_of_boots_interrupted :
    ∃ p, Reach apply torn (fun p ops => ∃ heap, ops = bootLog heap p) (imageDevice []) p ∧
      p.chip easyioAddress = 0 ∧ SameSpi (imageDevice []) p := by
  obtain ⟨p, hcrash, hchip⟩ := @afterCrash_update (imageDevice []) ⟨true, true⟩ _
    (replay_configOps _ _).2.2 (by simp) newSize_imageDevice rfl rfl
  have hreach : Reach apply torn (fun p ops => ∃ heap, ops = bootLog heap p) (imageDevice []) p :=
    .crash .init ⟨_, rfl⟩ hcrash
  exact ⟨p, hreach, hchip, sameSpi_of_boots hreach⟩

end Easyio.Boot
