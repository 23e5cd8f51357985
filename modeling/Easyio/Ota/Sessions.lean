import Easyio.Ota.Acceptance

/-!
# The config file comes first

A session is meant to fetch the config file, to look at it and to fetch the firmware only
then.  `http_get_status` says which file is next.  It is set to the firmware when a
config file has been accepted, and nothing sets it back: not the end of the firmware
download, not a time-out, and not the start of the next session.  So the sessions
after a firmware download ask for the firmware at once
(`firmware_first_after_timeout`).

`config_before_firmware` says what is needed: sessions start with the config file, and
while the config file is next, bytes come in only as an answer to its request.  The
second condition is about connections that were given up but are still open.
-/

namespace Easyio.Ota.Client

open List Crash Runs CString W25q16 Config

variable {parse : List UInt8 → Option Json} {c c' : Client} {e : Event} {trace marks : List Mark}

def configRequest : List UInt8 := httpgetPkg otaConfigFilename otaHostName

def firmwareRequest : List UInt8 := httpgetPkg otaFirmwareFilename otaHostName

/-- Since the last start of a session the given steps were taken, in this order. -/
def SinceSession (trace marks : List Mark) : Prop :=
  ∃ before session, trace = before ++ .session :: session ∧ .session ∉ session ∧
    marks.Sublist session

/-- In each session the firmware is requested only after the config file was requested,
received and accepted. -/
def ConfigBeforeFirmware (trace : List Mark) : Prop :=
  ∀ before after, trace = before ++ .sent firmwareRequest :: after →
    ∃ json info, SinceSession before [.sent configRequest, .config json, .accepted info]

/-- A session starts with the config file, and bytes of a config file are handed over only
after it was requested in the session. -/
def StartsWithConfig (c : Client) (e : Event) : Prop :=
  (StartsSession c e → c.httpGetStatus = .config) ∧
    ∀ seg, e = .data seg → (Ota.recv c.http seg).2.isSome → c.httpGetStatus = .config →
      SinceSession c.trace [.sent configRequest]

/-! ## Traces -/

theorem SinceSession.keep {mark : Mark} (h : SinceSession trace marks) (hmark : mark ≠ .session) :
    SinceSession (trace ++ [mark]) marks := by
  obtain ⟨before, session, rfl, hnone, hsub⟩ := h
  refine ⟨before, session ++ [mark], by simp, ?_, hsub.trans (sublist_append_left ..)⟩
  simpa [hnone] using hmark.symm

theorem SinceSession.extend {mark : Mark} (h : SinceSession trace marks) (hmark : mark ≠ .session) :
    SinceSession (trace ++ [mark]) (marks ++ [mark]) := by
  obtain ⟨before, session, rfl, hnone, hsub⟩ := h
  refine ⟨before, session ++ [mark], by simp, ?_, hsub.append (Sublist.refl _)⟩
  simpa [hnone] using hmark.symm

/-- A trace stays in order when a step is added, unless it is the request for the firmware. -/
theorem ConfigBeforeFirmware.mark (h : ConfigBeforeFirmware trace) {mark : Mark}
    (hmark : mark = .sent firmwareRequest →
      ∃ json info, SinceSession trace [.sent configRequest, .config json, .accepted info]) :
    ConfigBeforeFirmware (trace ++ [mark]) := by
  intro before after heq
  rcases eq_nil_or_concat after with rfl | ⟨after, last, rfl⟩
  · obtain ⟨rfl, hlast⟩ := append_inj' heq rfl
    exact hmark (cons.inj hlast).1
  · rw [concat_eq_append, ← cons_append, ← append_assoc] at heq
    exact h before after (append_inj' heq rfl).1

/-! ## The invariant -/

/-- The trace is in order; when the firmware is next, the config file was accepted in this
session, and when it is known which version the firmware has, it was received. -/
structure OrderInv (c : Client) : Prop where
  order : ConfigBeforeFirmware c.trace
  firmware : c.httpGetStatus = .fw →
    ∃ json info, SinceSession c.trace [.sent configRequest, .config json, .accepted info]
  config : c.httpGetStatus = .config → c.info.version ≠ 0 →
    ∃ json, SinceSession c.trace [.sent configRequest, .config json]

theorem orderInv_boot (md5 : Md5.State) (flash : Driver) : OrderInv (boot md5 flash) where
  order := by
    intro before after heq
    simp [boot] at heq
  firmware := by
    intro hfw
    cases hfw
  config := by
    intro _ hversion
    exact absurd rfl hversion

section

variable (h : OrderInv c)
include h

theorem OrderInv.quiet (hsame : SameCore c c') : OrderInv c' := by
  constructor
  · rw [hsame.trace_eq]
    exact h.order
  · rw [hsame.get_eq, hsame.trace_eq]
    exact h.firmware
  · rw [hsame.get_eq, hsame.info_eq, hsame.trace_eq]
    exact h.config

/-- A step that is neither the start of a session nor the request for the firmware. -/
theorem OrderInv.mark {mark : Mark} (hsession : mark ≠ .session)
    (hfirmware : mark = .sent firmwareRequest → c.httpGetStatus = .fw) :
    OrderInv { c with trace := c.trace ++ [mark] } where
  order := h.order.mark fun hsent => h.firmware (hfirmware hsent)
  firmware := fun hfw => by
    obtain ⟨json, info, hsince⟩ := h.firmware hfw
    exact ⟨json, info, hsince.keep hsession⟩
  config := fun hconfig hversion => by
    obtain ⟨json, hsince⟩ := h.config hconfig hversion
    exact ⟨json, hsince.keep hsession⟩

theorem OrderInv.sendHttpgetPkg (malloc : Bool) (path : List UInt8)
    (hpath : httpgetPkg path otaHostName = firmwareRequest → c.httpGetStatus = .fw) :
    OrderInv (c.sendHttpgetPkg malloc path otaHostName) := by
  rw [Client.sendHttpgetPkg]
  split
  · exact h.mark (by simp) fun hsent => hpath (Mark.sent.inj hsent)
  · exact h.quiet (sameCore_setStatus _)

theorem OrderInv.connected (malloc : Bool) : OrderInv (c.connected malloc) := by
  rw [Client.connected]
  split
  · next hget =>
      have hsent := h.sendHttpgetPkg malloc otaFirmwareFilename fun _ => hget
      exact ⟨hsent.order, hsent.firmware, hsent.config⟩
  · refine h.sendHttpgetPkg malloc otaConfigFilename ?_
    intro hsame
    exact absurd hsame (by decide)

theorem OrderInv.receive (buf : List UInt8)
    (hrequested : c.httpGetStatus = .config → SinceSession c.trace [.sent configRequest]) :
    OrderInv (c.recvHttpBuf parse buf) := by
  rcases hget : c.httpGetStatus with _ | _
  · rw [recvHttpBuf_config hget]
    cases parse (cString buf) with
    | none => exact h
    | some json =>
      refine ⟨h.order.mark (by simp), ?_, fun _ _ => ⟨json, ?_⟩⟩
      · intro hfw
        exact absurd (hget.symm.trans hfw) (by decide)
      · exact (hrequested hget).extend (by simp)
  · rw [recvHttpBuf_fw hget]
    exact ⟨h.order, h.firmware, h.config⟩

theorem OrderInv.accept (hparse : KnowsVersion parse) (hget : c.httpGetStatus = .config)
    (hcheck : checkConfig parse c.testOtaFlag c.info = .accepted) :
    OrderInv { c with httpGetStatus := .fw, trace := c.trace ++ [.accepted c.info] } := by
  have hversion : c.info.version ≠ 0 := by
    intro hzero
    have hnew := version_of_accepted hparse hcheck
    rw [hzero] at hnew
    exact absurd hnew (by decide)
  obtain ⟨json, hreceived⟩ := h.config hget hversion
  refine ⟨h.order.mark (by simp), fun _ => ⟨json, c.info, hreceived.extend (by simp)⟩, ?_⟩
  intro hconfig
  cases hconfig

theorem OrderInv.disconn (malloc : Bool) : OrderInv (c.disconn malloc) := by
  obtain ⟨hget, hinfo, htrace⟩ := disconn_keeps malloc c
  constructor
  · rw [htrace]
    exact h.order
  · rw [hget, htrace]
    exact h.firmware
  · rw [hget, hinfo, htrace]
    exact h.config

theorem OrderInv.session (hget : c.httpGetStatus = .config) :
    OrderInv { c with info := .cleared, trace := c.trace ++ [.session] } where
  order := h.order.mark (by simp)
  firmware := fun hfw => absurd (hget.symm.trans hfw) (by decide)
  config := fun _ hversion => absurd rfl hversion

end

/-- The conditions of `StartsWithConfig`. -/
def configGuards : Guards where
  start := fun c => c.httpGetStatus = .config
  connect := fun _ => True
  receive := fun c => c.httpGetStatus = .config → SinceSession c.trace [.sent configRequest]

theorem OrderInv.moves (h : OrderInv c) (hparse : KnowsVersion parse)
    (hmoves : Moves parse configGuards c c') : OrderInv c' := by
  induction hmoves with
  | refl => exact h
  | tail _ hmove ih =>
    cases hmove with
    | quiet hsame => exact ih.quiet hsame
    | session hget => exact ih.session hget
    | connected malloc => exact ih.connected malloc
    | receive buf hrequested => exact ih.receive buf hrequested
    | accept hget hcheck => exact ih.accept hparse hget hcheck
    | disconn malloc => exact ih.disconn malloc

theorem OrderInv.step (h : OrderInv c) (hparse : KnowsVersion parse) (e : Event)
    (hguard : StartsWithConfig c e) : OrderInv (c.step parse e) :=
  h.moves hparse (step_moves c e hguard.1 (fun _ _ _ _ => trivial) hguard.2)

/-- **Config before firmware.**  In a run whose sessions start with the config file, the
firmware is requested only after the config file was requested, received and accepted in
the same session. -/
theorem config_before_firmware {parse : List UInt8 → Option Json} (hparse : KnowsVersion parse)
    (md5 : Md5.State) (flash : Driver) {events : List Event}
    (hmeets : Meets (step parse) StartsWithConfig (boot md5 flash) events) :
    ConfigBeforeFirmware (replay (step parse) (boot md5 flash) events).trace :=
  (hmeets.invariant (fun _ e h hguard => OrderInv.step h hparse e hguard)
    (orderInv_boot md5 flash)).order

/-- A session that gets as far as the firmware. -/
theorem config_before_firmware_sample :
    KnowsVersion (sampleParse uncheckedA) ∧
      Meets (step (sampleParse uncheckedA)) StartsWithConfig (boot sampleMd5 sampleFlash)
        (sampleEvents uncheckedA) ∧
      .sent firmwareRequest ∈ (sampleClient uncheckedA).trace ∧
      ConfigBeforeFirmware (sampleClient uncheckedA).trace := by
  have hversion : KnowsVersion (sampleParse uncheckedA) := rfl
  have hsince : SinceSession [.session, .sent configRequest] [.sent configRequest] :=
    ⟨[], _, rfl, by simp, Sublist.refl _⟩
  rw [configRequest] at hsince
  have hmeets : Meets (step (sampleParse uncheckedA)) StartsWithConfig (boot sampleMd5 sampleFlash)
      (sampleEvents uncheckedA) := by
    simp [Meets, StartsWithConfig, StartsSession, configRequest, hsince, sampleEvents,
      connectEvents, step, andThen, handle, respStartota, otaStartHttpDownload, boot,
      initOtaHttpCli, setStatus,
      otaHttpTcpRouting, scheduledCheck, timeout, dispatch, myTcpClientStart, myTcpClientRouting,
      connected, sendHttpgetPkg, recv, recv_sampleText, recvHttpBuf, sampleParse_sampleText,
      update_sampleJson, myTcpClientStop, disconn, clientConError, connerr, configFinished,
      checkConfig_sampleInfo]
  have hrecv := uncheckedA_delivers
  rw [Sample.Delivers] at hrecv
  refine ⟨hversion, hmeets, ?_, config_before_firmware hversion _ _ hmeets⟩
  rw [sampleClient, sampleEvents, replay_append, replay_connectEvents]
  simp [waitingClient, step, andThen, handle, connected, sendHttpgetPkg, recv, recvHttpBuf, hrecv,
    firmwareRequest]

/-! ## After a time-out -/

/-- A session that is timed out while it waits for the server's firmware, and the next one. -/
def timeoutEvents : List Event :=
  connectEvents ++ (List.replicate 61 .second ++
    [.routing true, .startota, .routing true, .tcpRouting .ok, .tcpRouting .ok, .tcpConnected true])

theorem trace_timeoutEvents :
    (replay (step (sampleParse uncheckedA)) (boot sampleMd5 sampleFlash) timeoutEvents).trace =
      [.session, .sent configRequest, .config (sampleJson uncheckedA),
        .accepted (sampleInfo uncheckedA),
        .session, .sent firmwareRequest] := by
  rw [timeoutEvents, replay_append, replay_connectEvents]
  simp [waitingClient, step, andThen, handle, respStartota, otaStartHttpDownload, initOtaHttpCli,
    setStatus, otaHttpTcpRouting, scheduledCheck, timeout, dispatch, myTcpClientStart,
    myTcpClientStop, myTcpClientPause, myTcpClientRouting, connected, sendHttpgetPkg,
    firmwareRequest, configRequest]

/-- The second session asks for the firmware at once. -/
theorem firmware_first_after_timeout :
    ¬ ConfigBeforeFirmware (replay (step (sampleParse uncheckedA)) (boot sampleMd5 sampleFlash)
      timeoutEvents).trace := by
  intro horder
  rw [trace_timeoutEvents] at horder
  obtain ⟨json, info, before, session, heq, hnone, hsub⟩ :=
    horder [.session, .sent configRequest, .config (sampleJson uncheckedA),
      .accepted (sampleInfo uncheckedA),
      .session] [] rfl
  -- nothing has happened since the session started
  rcases eq_nil_or_concat session with rfl | ⟨front, last, rfl⟩
  · cases hsub
  · have hlast : Mark.session = last := by
      rw [concat_eq_append, ← cons_append, ← append_assoc] at heq
      exact Option.some.inj ((congrArg getLast? heq).trans getLast?_concat)
    simp [← hlast] at hnone

end Easyio.Ota.Client
