import Easyio.Ota.Moves

/-!
# When an update is started

`disconn` starts an update by storing a configuration in state `DOWNLOAD_FINISH` and
resetting the device.  Nothing else in the client resets it, so `Persists` is defined
by the reset.  An event that persists has called `disconn` with the download as it
was before the event (`step_persists`), and what is stored then is
`stored_of_persists`.
-/

namespace Easyio.Ota.Client

open CString W25q16 Config Md5

variable {parse : List UInt8 → Option Json} {c c' d : Client} {e : Event} {malloc : Bool}
  {start : Driver} {body : List UInt8} {conf : SpiflashConfig}

/-- The event makes `disconn` store `DOWNLOAD_FINISH` and reset the device. -/
def Persists (parse : List UInt8 → Option Json) (c : Client) (e : Event) : Prop :=
  c.power = .running ∧ (step parse c e).power = .reset

/-- The same download: the core, and the content length. -/
structure SameDownload (c c' : Client) : Prop extends SameCore c c' where
  length_eq : c'.http.contentLength = c.http.contentLength

/-- An idle client, or one that has just started a session, is not timed out. -/
def Quiet (c : Client) : Prop :=
  c.http.status = .init ∨ c.http.status = .start ∧ c.startOtaActiveTimep = c.appTimerSecond

theorem timeout_of_quiet (h : c.Quiet) : c.timeout malloc = c := by
  rw [timeout, if_neg]
  rintro ⟨hstatus, hlate⟩
  rcases h with hinit | ⟨-, htime⟩
  · exact hstatus hinit
  · rw [htime, UInt32.sub_self] at hlate
    exact absurd hlate (by decide)

theorem dispatch_of_quiet (h : c.Quiet) : (c.dispatch parse malloc).power = c.power := by
  unfold dispatch
  rcases h with hstatus | ⟨hstatus, -⟩
  · rw [hstatus]
  · rw [hstatus]
    rfl

theorem scheduledCheck_of_idle (h : c.http.status = .init) :
    c.scheduledCheck.Quiet ∧ c.scheduledCheck.power = c.power := by
  have hstarted : Quiet { c.respCheckota with otaTimer := c.appTimerSecond.toUInt8 } ∧
      c.respCheckota.power = c.power := by
    rw [respCheckota, otaStartHttpDownload, if_pos (by exact h)]
    exact ⟨.inr ⟨rfl, rfl⟩, rfl⟩
  rw [scheduledCheck]
  split
  · split
    · exact hstarted
    · split
      · exact hstarted
      · exact ⟨.inl h, rfl⟩
  · exact ⟨.inl h, rfl⟩

/-- During a session the scheduled check changes only a flag and a timer. -/
theorem scheduledCheck_of_busy (h : c.http.status ≠ .init) :
    SameDownload c c.scheduledCheck ∧ c.scheduledCheck.http = c.http := by
  have hbusy : ∀ timer, SameDownload c { c.respCheckota with otaTimer := timer } ∧
      c.respCheckota.http = c.http := by
    intro timer
    rw [respCheckota, otaStartHttpDownload, if_neg (by exact h)]
    exact ⟨⟨.of_core rfl, rfl⟩, rfl⟩
  rw [scheduledCheck]
  split
  · split
    · exact hbusy _
    · split
      · exact hbusy _
      · exact ⟨⟨.rfl, rfl⟩, rfl⟩
  · exact ⟨⟨.rfl, rfl⟩, rfl⟩

/-! ## The calls of `disconn` -/

/-- `c'` is what a call of `disconn` made of the download of `c`. -/
def Disconnected (c c' : Client) : Prop := ∃ malloc d, SameDownload c d ∧ c' = d.disconn malloc

theorem SameDownload.trans (h : SameDownload c d) (h' : SameDownload d c') : SameDownload c c' :=
  ⟨⟨h'.get_eq.trans h.get_eq, h'.info_eq.trans h.info_eq, h'.md5_eq.trans h.md5_eq,
    h'.flash_eq.trans h.flash_eq, h'.body_eq.trans h.body_eq, h'.trace_eq.trans h.trace_eq,
    h'.power_eq.trans h.power_eq⟩, h'.length_eq.trans h.length_eq⟩

theorem SameDownload.disconnected (h : SameDownload c d) (hd : Disconnected d c') :
    Disconnected c c' := by
  obtain ⟨malloc, d', hsame, rfl⟩ := hd
  exact ⟨malloc, d', h.trans hsame, rfl⟩

theorem andThen_reset {f : Client → Client} (h : (c.andThen f).power = .reset)
    (hf : ∀ d, (f d).power = d.power) : c.andThen f = c ∧ c.power = .reset := by
  rw [andThen] at h ⊢
  split at h
  · next hrun =>
      rw [hf, hrun] at h
      cases h
  · next hrun => exact ⟨if_neg hrun, h⟩

section

variable (hrun : c.power = .running)
include hrun

/-- A step that leaves the power alone does not reset the device. -/
theorem disconnected_of_power (hd : d.power = c.power) (hreset : d.power = .reset) :
    Disconnected c d := by
  rw [hd, hrun] at hreset
  cases hreset

theorem stop_disconnected (h : (c.myTcpClientStop malloc).power = .reset) :
    Disconnected c (c.myTcpClientStop malloc) := by
  rw [myTcpClientStop] at h ⊢
  split at h
  · next hconn =>
      rw [if_pos hconn]
      refine ⟨malloc, _, ?_, rfl⟩
      exact ⟨.of_core rfl, rfl⟩
  · rw [hrun] at h
    cases h

theorem pause_disconnected (h : (c.myTcpClientPause malloc).power = .reset) :
    Disconnected c (c.myTcpClientPause malloc) := by
  rw [myTcpClientPause] at h ⊢
  obtain ⟨heq, hreset⟩ := andThen_reset h fun _ => rfl
  rw [heq]
  exact stop_disconnected hrun hreset

theorem dispatch_disconnected (h : (c.dispatch parse malloc).power = .reset) :
    Disconnected c (c.dispatch parse malloc) := by
  have hstay {d : Client} := disconnected_of_power (d := d) hrun
  unfold dispatch at h ⊢
  split at h
  · exact hstay rfl h
  · exact hstay rfl h
  · exact hstay rfl h
  · exact stop_disconnected hrun h
  · exact hstay rfl h
  · refine hstay ?_ h
    rw [configFinished]
    dsimp only
    split <;> split <;> rfl
  · obtain ⟨heq, hreset⟩ := andThen_reset h fun _ => rfl
    rw [heq]
    exact pause_disconnected hrun hreset
  · exact hstay rfl h
  · exact hstay rfl h

theorem routing_disconnected (h : (c.otaHttpTcpRouting parse malloc).power = .reset) :
    Disconnected c (c.otaHttpTcpRouting parse malloc) := by
  by_cases hidle : c.http.status = .init
  · -- an idle client has no connection to close
    obtain ⟨hquiet, hpower⟩ := scheduledCheck_of_idle hidle
    rw [hrun] at hpower
    rw [otaHttpTcpRouting, timeout_of_quiet hquiet, andThen, if_pos hpower,
      dispatch_of_quiet hquiet, hpower] at h
    cases h
  · obtain ⟨hsame, hhttp⟩ := scheduledCheck_of_busy hidle
    rw [otaHttpTcpRouting] at h ⊢
    refine hsame.disconnected ?_
    have hrun' := hsame.power_eq.trans hrun
    generalize c.scheduledCheck = d at h hrun'
    by_cases hlate : d.http.status ≠ .init ∧ 60 < d.appTimerSecond - d.startOtaActiveTimep
    · rw [timeout, if_pos hlate] at h ⊢
      by_cases hp : (d.myTcpClientPause malloc).power = .running
      · -- after a time-out the client is idle
        have hstopped : (d.myTcpClientPause malloc).andThen (setStatus .init) =
            (d.myTcpClientPause malloc).setStatus .init := if_pos hp
        have hquiet : ((d.myTcpClientPause malloc).setStatus .init).Quiet := .inl rfl
        rw [hstopped, andThen, if_pos (by exact hp)] at h
        exact absurd (h.symm.trans hp) (by decide)
      · have hstopped : (d.myTcpClientPause malloc).andThen (setStatus .init) =
            d.myTcpClientPause malloc := if_neg hp
        rw [hstopped, andThen, if_neg hp] at h ⊢
        exact pause_disconnected hrun' h
    · rw [timeout, if_neg hlate, andThen, if_pos hrun'] at h ⊢
      exact dispatch_disconnected hrun' h

end

/-- **Only `disconn` persists**, and it finds the download as it was before the event. -/
theorem step_persists (h : Persists parse c e) : Disconnected c (step parse c e) := by
  obtain ⟨hrun, hreset⟩ := h
  have hstay {d : Client} := disconnected_of_power (d := d) hrun
  rw [step, andThen, if_pos hrun] at hreset ⊢
  cases e with
  | second | tcpError => exact hstay rfl hreset
  | routing malloc => exact routing_disconnected hrun hreset
  | tcpRouting answer => exact hstay (sameCore_myTcpClientRouting answer).power_eq hreset
  | dnsFound found => exact hstay (sameCore_myFound found).power_eq hreset
  | tcpConnected malloc =>
    refine hstay ?_ hreset
    rw [handle, connected]
    split <;> (rw [sendHttpgetPkg]; split <;> rfl)
  | data seg =>
    refine hstay ?_ hreset
    rw [handle, recv]
    split
    · rfl
    · rw [recvHttpBuf]
      split
      · rfl
      · split <;> rfl
  | closed malloc =>
    refine ⟨malloc, _, ?_, rfl⟩
    exact ⟨.of_core rfl, rfl⟩
  | netDown malloc => exact stop_disconnected hrun hreset
  | checkota =>
    refine hstay ?_ hreset
    rw [handle, respCheckota, otaStartHttpDownload]
    split <;> rfl
  | startota =>
    refine hstay ?_ hreset
    rw [handle, respStartota, otaStartHttpDownload]
    split <;> rfl

/-! ## Reading the firmware back -/

theorem absorbed_checkFlashLoop (flash : Driver) (address rcnt : ℕ) {fuel : ℕ}
    {msg : List UInt8} {st : State} {total : ℕ} (h : Absorbed msg st) (hfuel : total < fuel) :
    Absorbed (msg ++ spiFlashRead flash (address + rcnt * 256) total)
      (checkFlashLoop flash address fuel total rcnt st) := by
  induction fuel generalizing msg st total rcnt with
  | zero => omega
  | succ fuel ih =>
    rw [checkFlashLoop]
    split
    · next hzero =>
        rw [hzero]
        simpa [spiFlashRead] using h
    split
    · next hlong =>
        have hrest := ih (rcnt + 1)
          (h.append (spiFlashRead flash (address + rcnt * 256) 256))
          (show total - 256 < fuel by omega)
        have hsplit : total = 256 + (total - 256) := by omega
        have hnext : address + (rcnt + 1) * 256 = address + rcnt * 256 + 256 := by omega
        rw [hnext, List.append_assoc, ← spiFlashRead_add, ← hsplit] at hrest
        exact hrest
    · exact h.append _

/-- `check_flash` computes the digest of what it reads. -/
theorem checkFlash_eq (flash : Driver) (address total : ℕ) (st : State) :
    (checkFlash flash address total st).2 = md5Digest (spiFlashRead flash address total) := by
  have hread := absorbed_checkFlashLoop flash address 0 (absorbed_init st)
    (Nat.lt_succ_self total)
  rw [List.nil_append, Nat.zero_mul, Nat.add_zero] at hread
  exact md5Finish_of_absorbed hread

theorem toInt_eq (z : Int32) : z.toInt =
    if z.toUInt32.toNat < 2 ^ 31 then (z.toUInt32.toNat : ℤ) else z.toUInt32.toNat - 2 ^ 32 := by
  have hz : z.toInt = z.toUInt32.toBitVec.toInt := rfl
  rw [hz, BitVec.toInt_eq_toNat_cond]
  change (if 2 * z.toUInt32.toNat < 2 ^ 32 then _ else _) = _
  split <;> split <;> first | rfl | omega

theorem checkFlashTotal_eq {contentLength : UInt32} (h : contentLength.toNat < 2 ^ 31) :
    checkFlashTotal contentLength = contentLength.toNat := by
  have hback : contentLength.toInt32.toUInt32 = contentLength := rfl
  rw [checkFlashTotal, toInt_eq, hback, if_pos h, Int.toNat_natCast]

/-! ## What is checked and stored -/

/-- The digest `disconn` computes. -/
def digest (c : Client) : Vector UInt8 16 := (md5Finish c.md5).2

/-- What `disconn` has checked when it persists, and what it stores. -/
structure Persisted (c : Client) (flash : Driver) : Prop where
  get_eq : c.httpGetStatus = .fw
  checksum : (strstr c.info.checksum (md5Text c.digest)).isSome
  length_eq : c.http.contentLength = c.info.fwFileSize.toUInt32
  flash_digest : (checkFlash (w25xAppendEnd c.flash) spiFlashFwAddress
    (checkFlashTotal c.http.contentLength) (md5Finish c.md5).1).2 = c.digest
  stored : ∃ conf, readconfig (w25xAppendEnd c.flash) = some conf ∧
    flash = (writeconfig (targetConfig conf c.digest c.http.contentLength)
      (w25xAppendEnd c.flash)).2

theorem Persists.persisted (h : Persists parse c e) : Persisted c (step parse c e).flash := by
  obtain ⟨malloc, d, hsame, heq⟩ := step_persists h
  obtain ⟨hrun, hreset⟩ := h
  have hpower := hsame.power_eq.trans hrun
  have hspec := disconn_spec malloc d
  rw [← heq] at hspec
  generalize step parse c e = c' at hspec hreset
  obtain ⟨⟨hget, hinfo, hmd5, hflash, hbody, htrace, -⟩, hlength⟩ := hsame
  cases hspec with
  | config | refused => exact absurd (hreset.symm.trans hpower) (by decide)
  | hung => cases hreset
  | persisted st conf hfw hmatches hfound hconf =>
    simp only [closeDownload, Matches] at hmatches hfound hconf
    rw [hinfo, hmd5, hlength] at hmatches
    rw [hmd5, hflash, hlength] at hfound
    rw [hflash] at hconf
    refine ⟨hget ▸ hfw, hmatches.1, hmatches.2, hfound, conf, hconf, ?_⟩
    simp only [closeDownload]
    rw [hmd5, hflash, hlength]
    rfl

/-- **The stored configuration** is in state `DOWNLOAD_FINISH` and has the content length
as its target size. -/
theorem stored_of_persists (h : Persists parse c e) :
    ∃ conf, stored (step parse c e).flash.flash = some conf ∧
      conf.status = some .downloadFinish ∧ conf.targetFwSize = c.http.contentLength ∧
      conf.targetFwMd5 = c.digest := by
  obtain ⟨conf, -, hflash⟩ := h.persisted.stored
  rw [hflash, stored_writeconfig]
  refine ⟨_, rfl, ?_, rfl, rfl⟩
  rw [SpiflashConfig.status_withCrc, targetConfig, SpiflashConfig.status_setStatus]

/-! ## A complete download -/

@[simp] theorem closeDownload_flash (c : Client) :
    c.closeDownload.1.flash = w25xAppendEnd c.flash := rfl

@[simp] theorem closeDownload_http (c : Client) : c.closeDownload.1.http = c.http := rfl

@[simp] theorem closeDownload_info (c : Client) : c.closeDownload.1.info = c.info := rfl

@[simp] theorem closeDownload_digest (c : Client) : c.closeDownload.2 = c.digest := rfl

theorem disconn_of_found (hget : c.httpGetStatus = .fw)
    (hmatches : c.closeDownload.1.Matches c.closeDownload.2)
    (hfound : (checkFlash c.closeDownload.1.flash spiFlashFwAddress
      (checkFlashTotal c.closeDownload.1.http.contentLength) c.closeDownload.1.md5).2 =
        c.closeDownload.2) :
    ∃ st, c.disconn true = { c.closeDownload.1 with md5 := st }.persist c.closeDownload.2 := by
  rw [disconn, hget]
  dsimp only
  rw [if_pos hmatches, if_pos rfl, if_pos hfound]
  exact ⟨_, rfl⟩

section

variable (hget : c.httpGetStatus = .fw) (hbody : Absorbed body c.md5)
  (hflash : InSession start spiFlashFwAddress body c.flash)
  (hlength : c.http.contentLength.toNat = body.length) (hroom : body.length ≤ spiFlashFwSize)
  (hchecksum : (strstr c.info.checksum (md5Text (md5Digest body))).isSome)
  (hsize : c.http.contentLength = c.info.fwFileSize.toUInt32)
  (hconf : stored start.flash = some conf)
include hget hbody hflash hlength hroom hchecksum hsize hconf

/-- A complete firmware with a checksum that `disconn` finds is accepted. -/
theorem disconn_persists : (c.disconn true).power = .reset := by
  have hfit : spiFlashFwAddress + body.length + 8192 ≤ 2 ^ 24 := by
    have : spiFlashFwAddress + spiFlashFwSize + 8192 ≤ 2 ^ 24 := by decide
    omega
  have hint : c.http.contentLength.toNat < 2 ^ 31 := by omega
  have hclosed := hflash.close (by decide) hfit
  have hdigest : (md5Finish c.md5).2 = md5Digest body := md5Finish_of_absorbed hbody
  -- the flash holds the body, and still the old configuration
  have hread : spiFlashRead (w25xAppendEnd c.flash) spiFlashFwAddress body.length = body := by
    rw [spiFlashRead_eq_window _ (by omega)]
    exact hflash.window_close (by decide) hfit
  have hread' : readconfig (w25xAppendEnd c.flash) = some conf := by
    rw [readconfig_eq, hclosed.flash_eq, ← hconf]
    refine stored_congr fun i hi => Nor.overwrite_apply_of_lt _ ?_
    have hi : i < 49 := hi
    have : configAddress + 49 ≤ spiFlashFwAddress := by decide
    omega
  obtain ⟨st, hdisconn⟩ := disconn_of_found hget
    (by
      rw [Matches, closeDownload_info, closeDownload_http, closeDownload_digest, digest, hdigest]
      exact ⟨hchecksum, hsize⟩)
    (by
      rw [checkFlash_eq, closeDownload_flash, closeDownload_http, checkFlashTotal_eq hint, hlength,
        hread, closeDownload_digest, digest, hdigest])
  rw [hdisconn, persist]
  split
  · next hnone =>
      rw [closeDownload_flash, hread'] at hnone
      cases hnone
  · rfl

/-- A complete download is accepted when the server closes the connection. -/
theorem closed_persists (hrun : c.power = .running) : Persists parse c (.closed true) := by
  refine ⟨hrun, ?_⟩
  rw [step, andThen, if_pos hrun, handle]
  exact disconn_persists hget hbody hflash hlength hroom hchecksum hsize hconf

end

end Easyio.Ota.Client
