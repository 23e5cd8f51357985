import Easyio.Boot.PowerLoss
import Easyio.Boot.Tracing
import Easyio.Ota.Acceptance

/-!
# Which bytes an update programs

The application checks the digest of the first `TARGET_FW_SIZE` bytes of the firmware
region and stores that size with the state `DOWNLOAD_FINISH`.  The bootloader takes
over from there.  It never looks at `TARGET_FW_SIZE`: how much it copies is in the
header of the firmware, which is part of the download.

`programsVerified_iff` says, for any device in state `DOWNLOAD_FINISH`, when all boots
until the update is done, with any power losses in between, program nothing but bytes
of a verified range.  `verified_bytes_iff` is this for a device whose download was
just accepted, and `header_beyond_download` is an accepted firmware whose header makes the
bootloader program bytes that nobody checked.
-/

namespace Easyio.Update

open Boot ChipFlash Config Crash List Nor SpiflashConfig W25q16

/-! ## Boots that go forward -/

section Forward

variable {α : Type*} {spi : Cells} {cell : Cells → ℕ → α} {blank x : α} {m : Machine α}
  {heap : Heap}

/-- The SPI flash holds `mem`, which is `spi` outside the configuration sector. -/
def SameOutside (spi mem : Cells) : Prop := ∀ i, i / 4096 ≠ configSector → mem i = spi i

/-- The payload size in the header of the firmware region. -/
def payloadSize (spi : Cells) : ℕ := headerSizeAt spi spiFlashFwAddress

theorem SameOutside.payloadSize_eq {mem : Cells} (h : SameOutside spi mem) :
    payloadSize mem = payloadSize spi :=
  SameSpi.newSize_eq (p := ⟨spi, spi⟩) (q := ⟨mem, mem⟩) h

/-- A machine in a boot on `spi` that is in one of the states of an update and has not
programmed anything. -/
structure Untouched (spi : Cells) (blank : α) (m : Machine α) : Prop where
  updating : Updating m.spiflashConf.status
  spi_same : SameOutside spi m.spi.flash
  programmed_eq : programmed m.log = []
  buffer_eq : m.prog.writeFlashBuffer = fun _ => blank

theorem sameOutside_saveConfig (h : SameOutside spi m.spi.flash) :
    SameOutside spi (saveConfig m).spi.flash := by
  intro i hi
  rw [saveConfig_flash]
  refine (replay_frame (fun mem : Cells => mem i) ?_).trans (h i hi)
  intro op hop mem
  obtain ⟨hpage, hsector⟩ := mem_configOps hop
  exact norApply_of_other_sector hpage (by rwa [hsector])

theorem untouched_saveConfig (hupdating : Updating m.spiflashConf.status)
    (hspi : SameOutside spi m.spi.flash) (hprog : programmed m.log = [])
    (hbuf : m.prog.writeFlashBuffer = fun _ => blank) : Untouched spi blank (saveConfig m) := by
  refine ⟨?_, sameOutside_saveConfig hspi, ?_, hbuf⟩
  · rw [saveConfig_conf]
    exact hupdating
  · rw [saveConfig_log, programmed_append, hprog, programmed_spi, append_nil]

theorem Untouched.save (h : Untouched spi blank m) (status : OtaStatusMachine)
    (hupdating : Updating (some status)) :
    Untouched spi blank (saveConfig (setStatus status m)) := by
  refine untouched_saveConfig ?_ h.spi_same h.programmed_eq h.buffer_eq
  rw [setStatus_conf, status_setStatus]
  exact hupdating

theorem untouched_beforeLoop (blank : α) (hstored : ∀ c, stored spi = some c → Updating c.status) :
    Untouched spi blank (beforeLoop blank spi) := by
  rcases beforeLoop_cases blank spi with ⟨c, hc, -, heq⟩ | ⟨c, hc, -, heq⟩ | ⟨-, heq⟩
  · rw [heq]
    exact ⟨hstored c hc, fun _ _ => rfl, rfl, rfl⟩
  · rw [heq]
    exact untouched_saveConfig (hstored c hc) (fun _ _ => rfl) rfl rfl
  · rw [heq]
    exact untouched_saveConfig (.inl rfl) (fun _ _ => rfl) rfl rfl

/-- `x` is copied by a boot on `spi`. -/
def Moved (cell : Cells → ℕ → α) (blank : α) (spi : Cells) (x : α) : Prop :=
  payloadSize spi ≤ maxPayload ∧ ∃ mem, SameOutside spi mem ∧
    Copied cell blank mem spiFlashFwAddress (payloadSize spi) x

theorem Untouched.size_eq (h : Untouched spi blank m) :
    firmwareSize m.spi spiFlashFwAddress = payloadSize spi := by
  rw [firmwareSize_eq _ (by decide)]
  exact h.spi_same.payloadSize_eq

theorem Untouched.mem_programmed_copy (h : Untouched spi blank m) (malloc : Bool)
    (hfits : payloadSize spi ≤ maxPayload) :
    x ∈ programmed (copyPayload malloc cell spiFlashFwAddress (payloadSize spi) m).1.log ↔
      malloc = true ∧ Copied cell blank m.spi.flash spiFlashFwAddress (payloadSize spi) x := by
  rw [mem_programmed_copyPayload malloc h.buffer_eq hfits (fwPayload_inside hfits), h.programmed_eq]
  simp

/-- **What a round programs.** -/
theorem Untouched.round (heap : Heap) (cell : Cells → ℕ → α) (h : Untouched spi blank m) :
    ((Boot.round heap cell m).2 = none → Untouched spi blank (Boot.round heap cell m).1) ∧
      ∀ x ∈ programmed (Boot.round heap cell m).1.log, Moved cell blank spi x := by
  have hnothing : ∀ {log : List (DeviceOp α)}, programmed log = [] →
      ∀ x ∈ programmed log, Moved cell blank spi x := by
    intro log hlog
    rw [hlog]
    simp
  rw [Boot.round]
  rcases h.updating with hstatus | hstatus | hstatus | hstatus
  · rw [hstatus]
    exact ⟨by simp, hnothing h.programmed_eq⟩
  · rw [hstatus]
    have hsaved := h.save .backupFinish (.inr (.inr (.inl rfl)))
    exact ⟨fun _ => hsaved, hnothing hsaved.programmed_eq⟩
  · rw [hstatus]
    simp only [h.size_eq]
    split
    · have hsaved := h.save .none (.inl rfl)
      exact ⟨fun _ => hsaved, hnothing hsaved.programmed_eq⟩
    · next hbig =>
        have hfits := Nat.not_lt.mp hbig
        have hcopied : ∀ x ∈ programmed (copyPayload heap.copyBuffer cell spiFlashFwAddress
            (payloadSize spi) m).1.log, Moved cell blank spi x := fun x hx =>
          ⟨hfits, _, h.spi_same, ((h.mem_programmed_copy _ hfits).mp hx).2⟩
        split
        · refine ⟨by simp, ?_⟩
          simpa using hcopied
        · exact ⟨by simp, hcopied⟩
  · rw [hstatus]
    exact ⟨by simp, hnothing h.programmed_eq⟩

/-- A boot during an update programs nothing but the payload. -/
theorem moved_of_boot (hstored : ∀ c, stored spi = some c → Updating c.status)
    (hx : x ∈ programmed (boot heap cell blank spi).1.log) : Moved cell blank spi x := by
  have hloop : ∀ x ∈ programmed (boot heap cell blank spi).1.log, Moved cell blank spi x :=
    boot_induction heap cell (P := Untouched spi blank)
      (Q := fun r => ∀ x ∈ programmed r.1.log, Moved cell blank spi x)
      (fun m h => (h.round heap cell).1) (fun m h _ => (h.round heap cell).2)
      (untouched_beforeLoop blank hstored)
  exact hloop x hx

/-- A boot that finds `DOWNLOAD_FINISH` and gets its buffers programs all of it. -/
theorem programmed_of_downloadFinish (cell : Cells → ℕ → α) (blank : α) {c : SpiflashConfig}
    (hc : stored spi = some c) (hstatus : c.status = some .downloadFinish)
    (hfits : payloadSize spi ≤ maxPayload) :
    ∃ mem, SameOutside spi mem ∧
      ∀ x, Copied cell blank mem spiFlashFwAddress (payloadSize spi) x →
        x ∈ programmed (boot ⟨true, true⟩ cell blank spi).1.log := by
  have hready : Untouched spi blank (beforeLoop blank spi) := by
    refine untouched_beforeLoop blank ?_
    intro c' hc'
    obtain rfl : c = c' := Option.some.inj (hc.symm.trans hc')
    exact .inr (.inl hstatus)
  have hsaved := hready.save .backupFinish (.inr (.inr (.inl rfl)))
  obtain ⟨saved, heq⟩ : ∃ saved, saved = saveConfig (setStatus .backupFinish
    (beforeLoop blank spi)) := ⟨_, rfl⟩
  rw [← heq] at hsaved
  have hbackup : saved.spiflashConf.status = some .backupFinish := by
    rw [heq, saveConfig_conf, status_withCrc, setStatus_conf,
      status_setStatus]
  obtain ⟨-, -, hreturn, -⟩ := copyPayload_frame saved true cell spiFlashFwAddress
    (payloadSize spi)
  have hboot : boot ⟨true, true⟩ cell blank spi = (saveConfig (setStatus .updateFinish
      (copyPayload true cell spiFlashFwAddress (payloadSize spi) saved).1), some .jump) := by
    rw [boot, Boot.loop, Boot.round, status_beforeLoop _ hc, hstatus]
    simp only
    rw [← heq, Boot.loop, Boot.round, hbackup]
    simp only [hsaved.size_eq, if_neg (Nat.not_lt.mpr hfits), hreturn, Bool.and_self, if_true]
  refine ⟨saved.spi.flash, hsaved.spi_same, ?_⟩
  intro x hx
  rw [hboot, saveConfig_log, programmed_append, programmed_spi, append_nil]
  exact (hsaved.mem_programmed_copy true hfits).mpr ⟨rfl, hx⟩

end Forward

/-! ## After a download was accepted -/

/-- A byte that was read in the first `n` bytes of the firmware region, and is the one that
was there in `start`. -/
def FromVerified (start : Device) (n : ℕ) : Origin → Prop
  | .spi mem addr => spiFlashFwAddress ≤ addr ∧ addr < spiFlashFwAddress + n ∧
      mem addr = start.spi addr
  | .ram => False

/-- Whatever power losses there are, every boot from `start` on programs nothing but the first
`n` bytes of the firmware region. -/
def ProgramsVerified (start : Device) (n : ℕ) : Prop :=
  ∀ p heap, Reach Device.apply Device.torn PowerCycle start p →
    ∀ origin ∈ programmed (tracedBoot heap p.spi).1.log, FromVerified start n origin

section Verified

variable {start p : Device} {c : SpiflashConfig} {n : ℕ}

theorem SameOutside.payload_eq {spi mem : Cells} (h : SameOutside spi mem) {i size : ℕ}
    (hi : i < size) (hfits : size ≤ maxPayload) :
    mem (spiFlashFwAddress + headerSize + i) = spi (spiFlashFwAddress + headerSize + i) := by
  refine h _ ?_
  simp only [maxPayload, easyioAppSize, headerSize] at hfits
  simp only [spiFlashFwAddress, configSector, configAddress]
  omega

theorem programsVerified_iff (hc : stored start.spi = some c)
    (hstatus : c.status = some .downloadFinish) :
    ProgramsVerified start n ↔ payloadSize start.spi = 0 ∨ maxPayload < payloadSize start.spi ∨
      4 ≤ payloadSize start.spi ∧ payloadSize start.spi + headerSize ≤ n := by
  constructor
  · intro hverified
    by_cases hfits : payloadSize start.spi ≤ maxPayload
    · obtain ⟨mem, -, hall⟩ := programmed_of_downloadFinish Origin.spi .ram hc hstatus hfits
      have hfrom : ∀ x, Copied Origin.spi .ram mem spiFlashFwAddress (payloadSize start.spi) x →
          FromVerified start n x := by
        intro x hx
        refine hverified start ⟨true, true⟩ .init x ?_
        rw [tracedBoot]
        exact hall x hx
      rcases Nat.eq_zero_or_pos (payloadSize start.spi) with hzero | hpos
      · exact .inl hzero
      · -- the last byte of the payload is verified, and no byte of the RAM is programmed
        have hlast := (hfrom _ (.inl ⟨payloadSize start.spi - 1, by omega, rfl⟩)).2.1
        have hword : 4 ≤ payloadSize start.spi := by
          by_contra hshort
          exact hfrom _ (.inr ⟨hpos, by omega, rfl⟩)
        exact .inr (.inr ⟨hword, by omega⟩)
    · exact .inr (.inl (Nat.not_le.mp hfits))
  · intro hcond p heap hreach origin horigin
    have hinv : UpdateInv start p := hreach.invariant (updateInv_start hc (.inr hstatus))
      fun _ _ hp hops => powerCycle_safe hp hops
    have hsize : payloadSize p.spi = payloadSize start.spi := hinv.spi_same.newSize_eq
    rw [tracedBoot] at horigin
    obtain ⟨hfits, mem, hmem, hcopied⟩ :=
      moved_of_boot (fun c hc => PartitionInv.updating (hinv.partition _ hc)) horigin
    have hstart : SameOutside start.spi mem := fun i hi => (hmem i hi).trans (hinv.spi_same i hi)
    rcases hcopied with ⟨i, hi, rfl⟩ | ⟨hpos, hshort, -⟩
    · exact ⟨by omega, by omega, hstart.payload_eq hi hfits⟩
    · omega

end Verified

/-- The device at the reset of a client that handled the event `e`. -/
def handover (parse : List UInt8 → Option Ota.Json) (client : Ota.Client)
    (e : Ota.Client.Event) (chip : Cells) : Device where
  spi := (client.step parse e).flash.flash
  chip := chip

/-- How many bytes the digest covers when `TARGET_FW_SIZE` is stored: all of them, unless the
size is negative as an `int`. -/
def verifiedLength (conf : SpiflashConfig) : ℕ := Ota.Client.checkFlashTotal conf.targetFwSize

variable {parse : List UInt8 → Option Ota.Json}

theorem stored_handover {client : Ota.Client}
    {e : Ota.Client.Event} (hpersists : client.Persists parse e) (chip : Cells) :
    ∃ conf, stored (handover parse client e chip).spi = some conf ∧
      conf.status = some .downloadFinish ∧ conf.targetFwSize = client.http.contentLength := by
  obtain ⟨conf, hconf, hstatus, hsize, -⟩ := Ota.Client.stored_of_persists hpersists
  exact ⟨conf, hconf, hstatus, hsize⟩

/-- **Only verified bytes are programmed** after an accepted download exactly if the header
of the firmware is one of these: it gives the size zero, it gives a size that is refused, or
the payload has at least a word and ends within the verified bytes. -/
theorem verified_bytes_iff {client : Ota.Client}
    {e : Ota.Client.Event} (hpersists : client.Persists parse e) (chip : Cells) :
    let start := handover parse client e chip
    ∃ conf, stored start.spi = some conf ∧ conf.status = some .downloadFinish ∧
      conf.targetFwSize = client.http.contentLength ∧
      (ProgramsVerified start (verifiedLength conf) ↔
        payloadSize start.spi = 0 ∨ maxPayload < payloadSize start.spi ∨
        4 ≤ payloadSize start.spi ∧ payloadSize start.spi + headerSize ≤ verifiedLength conf) := by
  obtain ⟨conf, hconf, hstatus, hsize⟩ := stored_handover hpersists chip
  exact ⟨conf, hconf, hstatus, hsize, programsVerified_iff hconf hstatus⟩

/-! ## Headers -/

section Header

variable {parse : List UInt8 → Option Ota.Json} {client : Ota.Client} {e : Ota.Client.Event}
  {before : Driver} {body : List UInt8}

section

variable (hpersists : client.Persists parse e)
  (hsession : InSession before spiFlashFwAddress body client.flash)
include hpersists hsession

/-- The bootloader finds the download in the firmware region. -/
theorem handover_content
    (hroom : body.length ≤ spiFlashFwSize) (chip : Cells) {k : ℕ} (hk : k < body.length) :
    body[k]? = some ((handover parse client e chip).spi (spiFlashFwAddress + k)) := by
  have hfits : spiFlashFwAddress + spiFlashFwSize + 8192 ≤ 2 ^ 24 := by decide
  have hcontent := hsession.window_close (by decide) (by omega)
  have hclosed : body[k]? = some ((w25xAppendEnd client.flash).flash (spiFlashFwAddress + k)) := by
    have hcell := congrArg (fun bytes : List UInt8 => bytes[k]?) hcontent
    rw [getElem?_window, if_pos hk] at hcell
    exact hcell.symm
  -- the configuration is stored in another sector
  have hsector : (spiFlashFwAddress + k) / 4096 ≠ configAddress / 4096 := by
    simp only [spiFlashFwSize] at hroom
    simp only [spiFlashFwAddress, configAddress]
    omega
  obtain ⟨conf, -, hflash⟩ := hpersists.persisted.stored
  rw [hclosed, handover, hflash]
  exact congrArg some (writeconfig_frame _ _ hsector).symm

theorem payloadSize_handover (hword : 4 ≤ body.length)
    (hroom : body.length ≤ spiFlashFwSize) (chip : Cells) :
    payloadSize (handover parse client e chip).spi = (Bytes.getLe32 body 0).toNat := by
  have hbyte : ∀ k < 4, (window (handover parse client e chip).spi spiFlashFwAddress
      headerSize).getD k 0 = body.getD k 0 := by
    intro k hk
    rw [getD_eq_getElem?_getD, getD_eq_getElem?_getD, getElem?_window,
      if_pos (by rw [headerSize]; omega),
      handover_content hpersists hsession hroom chip (hk.trans_le hword)]
  rw [payloadSize, headerSizeAt, Bytes.getLe32, Bytes.getLe32, hbyte _ (by decide),
    hbyte _ (by decide), hbyte _ (by decide), hbyte _ (by decide)]

end

end Header

/-! ## Two firmwares -/

section Samples

open Ota.Client

variable {s : Sample}

/-- The device after the download of a firmware was accepted. -/
def updatedDevice (s : Sample) : Device :=
  handover (sampleParse s) (sampleClient s) (.closed true) fun _ => 0

theorem updatedDevice_eq (hrecv : s.Delivers)
    (hpersists : Persists (sampleParse s) (sampleClient s) (.closed true))
    (hword : 4 ≤ s.body.length) (hroom : s.body.length ≤ spiFlashFwSize) :
    (∃ conf, stored (updatedDevice s).spi = some conf ∧ conf.status = some .downloadFinish ∧
      conf.targetFwSize = s.size.toUInt32) ∧
      payloadSize (updatedDevice s).spi = (Bytes.getLe32 s.body 0).toNat := by
  obtain ⟨-, -, hhttp, -⟩ := sampleClient_eq hrecv
  have hstored := stored_handover hpersists fun _ => 0
  rw [hhttp] at hstored
  rw [updatedDevice]
  exact ⟨hstored, payloadSize_handover hpersists (sampleClient_inSession hrecv hroom) hword hroom _⟩

/-- A firmware with a payload of one word. -/
def oneWord : Sample := checkedSample "27" ([4, 0, 0, 0] ++ List.replicate 19 0 ++ [1, 2, 3, 4])

theorem oneWord_delivers : oneWord.Delivers := by
  have hrecv : Ota.recv ⟨.started, 6, 6⟩ (sampleResponse "27" oneWord.body) =
      (⟨.downloadFinish, 27, 27⟩, some oneWord.body) := by
    decide +kernel
  exact hrecv

theorem oneWord_persists : Persists (sampleParse oneWord) (sampleClient oneWord) (.closed true) :=
  checkedSample_persists oneWord_delivers rfl (by decide)

/-- It is accepted, and only its bytes are programmed. -/
theorem verified_bytes_iff_oneWord :
    ∃ conf, stored (updatedDevice oneWord).spi = some conf ∧ conf.targetFwSize = 27 ∧
      ProgramsVerified (updatedDevice oneWord) 27 := by
  have hpayload := (updatedDevice_eq oneWord_delivers oneWord_persists (by decide) (by decide)).2
  obtain ⟨-, -, hhttp, -⟩ := sampleClient_eq oneWord_delivers
  obtain ⟨conf, hconf, -, hsize, hiff⟩ := verified_bytes_iff oneWord_persists fun _ => 0
  have htarget : conf.targetFwSize = 27 := by
    rw [hsize, hhttp]
    rfl
  have hlength : verifiedLength conf = 27 := by
    rw [verifiedLength, htarget]
    decide
  rw [hlength, ← updatedDevice, hpayload] at hiff
  exact ⟨conf, hconf, htarget, hiff.mpr (by decide)⟩

/-- A firmware that ends right behind the size of its payload. -/
def headerOnly : Sample := checkedSample "4" [4, 0, 0, 0]

theorem headerOnly_delivers : headerOnly.Delivers := by
  have hrecv : Ota.recv ⟨.started, 6, 6⟩ (sampleResponse "4" headerOnly.body) =
      (⟨.downloadFinish, 4, 4⟩, some headerOnly.body) := by
    decide +kernel
  exact hrecv

/-- It is accepted with its right checksum, and then bytes behind it are programmed. -/
theorem header_beyond_download :
    Persists (sampleParse headerOnly) (sampleClient headerOnly) (.closed true) ∧
      (∃ conf, stored (updatedDevice headerOnly).spi = some conf ∧ conf.targetFwSize = 4) ∧
      ¬ ProgramsVerified (updatedDevice headerOnly) 4 := by
  have hpersists : Persists (sampleParse headerOnly) (sampleClient headerOnly) (.closed true) :=
    checkedSample_persists headerOnly_delivers rfl (by decide)
  obtain ⟨⟨conf, hconf, hstatus, hsize⟩, hpayload⟩ :=
    updatedDevice_eq headerOnly_delivers hpersists (by decide) (by decide)
  refine ⟨hpersists, ⟨conf, hconf, hsize⟩, ?_⟩
  intro hverified
  have hcond := (programsVerified_iff hconf hstatus).mp hverified
  rw [hpayload] at hcond
  revert hcond
  decide

end Samples

end Easyio.Update
