import Easyio.Runs.Guarded
import Easyio.Ota.Persist

/-!
# Which firmware is accepted

`disconn` accepts a firmware if the checksum of the config file occurs in the text
`FW MD5:` followed by the digest, and if the content length is the size in the config
file.  Neither of these is an equality of what one would compare.  The checksum may be
any part of that text, the empty string included, and the content length is what the
server announced, not what was received.

`acceptance_iff` says in which of the accepted cases the acceptance is exact: those where
the checksum has the form of a digest and the download is complete.  It holds in every
state the client can get into.  `AcceptInv` is what all of these states have in common;
`empty_checksum_accepted` is a run in which a firmware is accepted that nothing is known
about.
-/

namespace Easyio.Ota.Client

open Crash Runs CString W25q16 Config Md5

variable {parse : List UInt8 → Option Json} {c : Client} {e : Event} {body : List UInt8}
  {flash : Driver} {s : Sample}

/-- The digits of a digest. -/
def hexText (digest : Vector UInt8 16) : List UInt8 := digest.toList.flatMap hex2

/-- 32 lower-case hexadecimal digits. -/
def IsDigestText (text : List UInt8) : Prop := text.length = 32 ∧ ∀ b ∈ text, isHexDigit b

theorem isDigestText_hexText (digest : Vector UInt8 16) : IsDigestText (hexText digest) := by
  constructor
  · rw [hexText, length_flatMap_hex2, Vector.length_toList]
  · intro digit hdigit
    obtain ⟨b, -, hb⟩ := List.mem_flatMap.mp hdigit
    exact isHexDigit_of_mem_hex2 hb

theorem eq_of_found {text : List UInt8} {digest : Vector UInt8 16} (htext : IsDigestText text)
    (hfound : (strstr text (md5Text digest)).isSome) : text = hexText digest := by
  have hsplit : md5Text digest = ascii "FW MD5" ++ 58 :: hexText digest := rfl
  rw [hsplit] at hfound
  have hlen := (isDigestText_hexText digest).1
  refine eq_of_strstr hfound (htext.1.trans hlen.symm) ?_ ?_
  · rw [htext.1]
    decide
  · -- the colon is not a digit
    intro hcolon
    exact absurd (htext.2 58 hcolon) (by decide)

/-! ## What holds in every run -/

/-- The checksum is the text of the item `checksum` of a config file. -/
def ChecksumFrom (trace : List Mark) (checksum : List UInt8) : Prop :=
  ∃ json s, .config json ∈ trace ∧ getObjectItem json "checksum" = some (.string s) ∧
    checksum = snprintfS 36 s

/-- The digest is that of the bytes received, and a firmware is asked for only with an
accepted description or a cleared one. -/
structure AcceptInv (c : Client) : Prop where
  hashed : ∀ body, c.body = some body → Absorbed body c.md5
  accepted : c.httpGetStatus = .fw → c.info = .cleared ∨ .accepted c.info ∈ c.trace
  checksum : c.info.checksum = [] ∨ ChecksumFrom c.trace c.info.checksum

theorem ChecksumFrom.append {trace : List Mark} {checksum : List UInt8}
    (h : ChecksumFrom trace checksum) (later : List Mark) :
    ChecksumFrom (trace ++ later) checksum := by
  obtain ⟨json, s, hmem, hitem⟩ := h
  exact ⟨json, s, List.mem_append_left _ hmem, hitem⟩

theorem acceptInv_boot (md5 : State) (flash : Driver) : AcceptInv (boot md5 flash) where
  hashed := by
    intro body hbody
    cases hbody
  accepted := by
    intro hfw
    cases hfw
  checksum := .inl rfl

theorem checksum_update (info : OtaDownloadInfo) (trace : List Mark) (json : Json)
    (h : info.checksum = [] ∨ ChecksumFrom trace info.checksum) : (info.update json).checksum = [] ∨
      ChecksumFrom (trace ++ [.config json]) (info.update json).checksum := by
  simp only [OtaDownloadInfo.update, readString]
  split
  · next s hitem => exact .inr ⟨json, s, by simp, hitem, rfl⟩
  · exact h.imp_right fun hfrom => hfrom.append _

section Move

variable {g : Guards} {c' : Client}

section

variable (h : AcceptInv c)
include h

theorem AcceptInv.quiet (hsame : SameCore c c') : AcceptInv c' := by
  constructor
  · rw [hsame.body_eq, hsame.md5_eq]
    exact h.hashed
  · rw [hsame.get_eq, hsame.info_eq, hsame.trace_eq]
    exact h.accepted
  · rw [hsame.info_eq, hsame.trace_eq]
    exact h.checksum

theorem AcceptInv.mark (mark : Mark) : AcceptInv { c with trace := c.trace ++ [mark] } where
  hashed := h.hashed
  accepted := fun hfw => (h.accepted hfw).imp_right fun hmem => List.mem_append_left _ hmem
  checksum := h.checksum.imp_right fun hfrom => hfrom.append _

theorem AcceptInv.sendHttpgetPkg (malloc : Bool) (path host : List UInt8) :
    AcceptInv (c.sendHttpgetPkg malloc path host) := by
  rw [Client.sendHttpgetPkg]
  split
  · exact h.mark _
  · exact h.quiet (sameCore_setStatus _)

theorem AcceptInv.connected (malloc : Bool) : AcceptInv (c.connected malloc) := by
  rw [Client.connected]
  split
  · have hsent := h.sendHttpgetPkg malloc otaFirmwareFilename otaHostName
    refine ⟨?_, hsent.accepted, hsent.checksum⟩
    intro body hbody
    obtain rfl : [] = body := Option.some.inj hbody
    exact absorbed_init _
  · exact h.sendHttpgetPkg malloc otaConfigFilename otaHostName

theorem AcceptInv.receive (buf : List UInt8) : AcceptInv (c.recvHttpBuf parse buf) := by
  rcases hget : c.httpGetStatus with _ | _
  · rw [recvHttpBuf_config hget]
    cases parse (cString buf) with
    | none => exact h
    | some json =>
      refine ⟨h.hashed, ?_, checksum_update c.info c.trace json h.checksum⟩
      intro hfw
      exact absurd (hget.symm.trans hfw) (by decide)
  · rw [recvHttpBuf_fw hget]
    refine ⟨?_, h.accepted, h.checksum⟩
    intro body hbody
    obtain ⟨sofar, hsofar, rfl⟩ := Option.map_eq_some_iff.mp hbody
    exact (h.hashed sofar hsofar).append buf

theorem AcceptInv.disconn (malloc : Bool) : AcceptInv (c.disconn malloc) := by
  obtain ⟨hget, hinfo, htrace⟩ := disconn_keeps malloc c
  refine ⟨?_, ?_, ?_⟩
  · -- the bytes of a firmware are forgotten, those of a config file were never kept
    intro body hbody
    have hspec := disconn_spec malloc c
    generalize c.disconn malloc = d at hspec hbody
    cases hspec with
    | config => exact h.hashed body hbody
    | refused => cases hbody
    | hung => cases hbody
    | persisted => cases hbody
  · rw [hget, hinfo, htrace]
    exact h.accepted
  · rw [hinfo, htrace]
    exact h.checksum

theorem AcceptInv.move (hmove : Move parse g c c') : AcceptInv c' := by
  cases hmove with
  | quiet hsame => exact h.quiet hsame
  | session => exact ⟨h.hashed, fun _ => .inl rfl, .inl rfl⟩
  | connected malloc => exact h.connected malloc
  | receive buf => exact h.receive buf
  | accept =>
    exact ⟨h.hashed, fun _ => .inr (by simp), h.checksum.imp_right fun hfrom => hfrom.append _⟩
  | disconn malloc => exact h.disconn malloc

theorem AcceptInv.moves (hmoves : Moves parse g c c') : AcceptInv c' := by
  induction hmoves with
  | refl => exact h
  | tail _ hmove ih => exact ih.move hmove

end

end Move

theorem AcceptInv.step (h : AcceptInv c) (e : Event) : AcceptInv (c.step parse e) := by
  have hmoves : Moves parse .none c (c.step parse e) :=
    step_moves c e (fun _ => trivial) (fun _ _ _ _ => trivial) fun _ _ _ => trivial
  exact h.moves hmoves

theorem acceptInv_run (parse : List UInt8 → Option Json) (md5 : State) (flash : Driver)
    (events : List Event) : AcceptInv (replay (step parse) (boot md5 flash) events) :=
  replay_invariant (fun _ e h => h.step e) (acceptInv_boot md5 flash) events

/-! ## Exact acceptance -/

/-- The description was accepted, its checksum is that of a config file and is the digest
of the bytes received, and as many bytes were received as it says. -/
structure ExactAcceptance (c : Client) : Prop where
  accepted : .accepted c.info ∈ c.trace
  config : ∃ json, .config json ∈ c.trace ∧
    getObjectItem json "checksum" = some (.string c.info.checksum)
  body : ∃ body, c.body = some body ∧ c.info.checksum = hexText (md5Digest body) ∧
    (body.length : ℤ) = c.info.fwFileSize.toInt

/-- The checksum has the form of a digest, and since the connection was opened as many bytes
were received as the server announced, a number that fits an `int`. -/
structure Verifiable (c : Client) : Prop where
  checksum : IsDigestText c.info.checksum
  complete : ∃ body, c.body = some body ∧ body.length = c.http.contentLength.toNat
  int : c.http.contentLength.toNat < 2 ^ 31

theorem digest_eq (h : AcceptInv c) (hbody : c.body = some body) : c.digest = md5Digest body :=
  md5Finish_of_absorbed (h.hashed body hbody)

theorem exactAcceptance_of_verifiable (hinv : AcceptInv c) (hpersisted : Persisted c flash)
    (h : Verifiable c) : ExactAcceptance c := by
  obtain ⟨body, hbody, hcomplete⟩ := h.complete
  have hchecksum := eq_of_found h.checksum hpersisted.checksum
  have hlen := h.checksum.1
  have hne : c.info.checksum ≠ [] := by
    intro hnil
    rw [hnil] at hlen
    cases hlen
  refine ⟨?_, ?_, body, hbody, ?_, ?_⟩
  · refine (hinv.accepted hpersisted.get_eq).resolve_left fun hcleared => hne ?_
    rw [hcleared]
    rfl
  · -- the checksum was not cut when it was copied
    obtain ⟨json, s, hmem, hitem, hcut⟩ := hinv.checksum.resolve_left hne
    have hshort : s.length ≤ 35 := by
      rw [hcut, snprintfS, List.length_take] at hlen
      omega
    rw [snprintfS, List.take_of_length_le (by omega)] at hcut
    exact ⟨json, hmem, by rw [hitem, hcut]⟩
  · rw [hchecksum, digest_eq hinv hbody]
  · have hint := h.int
    rw [hpersisted.length_eq] at hcomplete hint
    rw [toInt_eq, if_pos hint, hcomplete]

theorem verifiable_of_exactAcceptance (hpersisted : Persisted c flash) (h : ExactAcceptance c) :
    Verifiable c := by
  obtain ⟨body, hbody, hchecksum, hsize⟩ := h.body
  have hnat := c.info.fwFileSize.toUInt32.toNat_lt
  rw [toInt_eq] at hsize
  have hlength := congrArg UInt32.toNat hpersisted.length_eq
  refine ⟨hchecksum ▸ isDigestText_hexText _, ⟨body, hbody, ?_⟩, ?_⟩
  · split at hsize <;> omega
  · split at hsize <;> omega

/-- **Which acceptances are exact.**  Whatever happened before, an acceptance is exact if and
only if the checksum has the form of a digest and the download is complete. -/
theorem acceptance_iff (parse : List UInt8 → Option Json) (md5 : State) (flash : Driver)
    (events : List Event) (e : Event)
    (hpersists : Persists parse (replay (step parse) (boot md5 flash) events) e) :
    ExactAcceptance (replay (step parse) (boot md5 flash) events) ↔
      Verifiable (replay (step parse) (boot md5 flash) events) :=
  ⟨verifiable_of_exactAcceptance hpersists.persisted,
    exactAcceptance_of_verifiable (acceptInv_run parse md5 flash events) hpersists.persisted⟩

/-! ## A run -/

/-- A firmware on the server: what its config file says, and the response that brings it. -/
structure Sample where
  size : Int32
  checksum : List UInt8
  /-- The content length of the response. -/
  length : String
  body : List UInt8

/-- A firmware with its right size and checksum. -/
def checkedSample (length : String) (body : List UInt8) : Sample where
  size := Int32.ofNat body.length
  checksum := hexText (md5Digest body)
  length := length
  body := body

/-- The firmware `A`, and the same with an empty checksum. -/
def checkedA : Sample := checkedSample "1" (ascii "A")

@[inherit_doc checkedA]
def uncheckedA : Sample := { checkedA with checksum := [] }

def sampleText : List UInt8 := ascii "sample"

section

variable (s : Sample)

def sampleJson : Json :=
  [(ascii "checksum", .string s.checksum), (ascii "mode", .string (ascii "auto")),
    (ascii "size", .number s.size), (ascii "version", .number 42)]

/-- A parser for the version and the config file. -/
def sampleParse (text : List UInt8) : Option Json :=
  if text = ascii versionstr then
    some [(ascii "version_name", .string (ascii "V0.8")), (ascii "version", .number 41)]
  else if text = sampleText then some (sampleJson s)
  else none

def sampleResponse (length : String) (body : List UInt8) : Segment :=
  ⟨ascii "HTTP/1.1 200 OK\r\nContent-Length: " ++ ascii length ++ blankLine ++ body, []⟩

/-- A session up to the connection for the firmware. -/
def connectEvents : List Event :=
  [.startota, .routing true, .tcpRouting .ok, .tcpRouting .ok, .tcpConnected true,
    .data (sampleResponse "6" sampleText), .routing true, .routing true, .routing true,
    .tcpRouting .ok, .tcpRouting .ok]

/-- A session up to the last byte of the firmware. -/
def sampleEvents : List Event :=
  connectEvents ++ [.tcpConnected true, .data (sampleResponse s.length s.body)]

/-- A chip with a valid configuration. -/
def sampleFlash : Driver :=
  (writeconfig (.ofBytes (List.replicate 49 0)) (Driver.boot fun _ => 0xFF)).2

/-- The digest's state before anything was hashed. -/
def sampleMd5 : State := ⟨0, 0, initWords, fun _ => 0⟩

/-- The client after that session. -/
def sampleClient : Client :=
  replay (step (sampleParse s)) (boot sampleMd5 sampleFlash) (sampleEvents s)

def sampleInfo : OtaDownloadInfo :=
  ⟨42, [], s.size, ascii "auto", snprintfS 36 s.checksum⟩

theorem recv_sampleText : Ota.recv ⟨.started, 0, 0⟩ (sampleResponse "6" sampleText) =
    (⟨.downloadFinish, 6, 6⟩, some sampleText) := by
  decide +kernel

theorem sampleParse_sampleText : sampleParse s (cString sampleText) = some (sampleJson s) := by
  have htext : cString sampleText = sampleText := by decide
  rw [htext, sampleParse, if_neg (by decide), if_pos rfl]

theorem update_sampleJson : OtaDownloadInfo.cleared.update (sampleJson s) = sampleInfo s := rfl

theorem checkConfig_sampleInfo :
    checkConfig (sampleParse s) .versionnumCfg (sampleInfo s) = .accepted := rfl

/-- The client after `connectEvents`. -/
def waitingClient : Client where
  http := ⟨.started, 6, 6⟩
  httpGetStatus := .fw
  info := sampleInfo s
  md5 := sampleMd5
  flash := sampleFlash
  activeStatus := .connecting
  appTimerSecond := 0
  startOtaActiveTimep := 0
  otaTimer := 0
  testOtaFlag := .versionnumCfg
  otaStatus := 0
  power := .running
  body := none
  trace := [.session, .sent (httpgetPkg otaConfigFilename otaHostName), .config (sampleJson s),
    .accepted (sampleInfo s)]

theorem replay_connectEvents :
    replay (step (sampleParse s)) (boot sampleMd5 sampleFlash) connectEvents = waitingClient s := by
  simp [connectEvents, waitingClient, step, andThen, handle, respStartota, otaStartHttpDownload,
    boot, initOtaHttpCli, setStatus, otaHttpTcpRouting, scheduledCheck, timeout, dispatch,
    myTcpClientStart, myTcpClientRouting, connected, sendHttpgetPkg, recv, recv_sampleText,
    recvHttpBuf, sampleParse_sampleText, update_sampleJson, myTcpClientStop, disconn,
    clientConError, connerr, configFinished, checkConfig_sampleInfo]

/-- The response brings the whole body, and its length is the one of the config file. -/
def Sample.Delivers : Prop :=
  Ota.recv ⟨.started, 6, 6⟩ (sampleResponse s.length s.body) =
    (⟨.downloadFinish, s.size.toUInt32, s.size.toUInt32⟩, some s.body)

end

theorem recv_sampleFirmware : Ota.recv ⟨.started, 6, 6⟩ (sampleResponse "1" (ascii "A")) =
    (⟨.downloadFinish, 1, 1⟩, some (ascii "A")) := by
  decide +kernel

theorem checkedA_delivers : checkedA.Delivers := recv_sampleFirmware

theorem uncheckedA_delivers : uncheckedA.Delivers := recv_sampleFirmware

theorem sampleClient_eq (hrecv : s.Delivers) : let c := sampleClient s
    c.power = .running ∧ c.httpGetStatus = .fw ∧
      c.http = ⟨.downloadFinish, s.size.toUInt32, s.size.toUInt32⟩ ∧ c.info = sampleInfo s ∧
      c.body = some s.body ∧ c.md5 = md5Append (md5Init sampleMd5) s.body ∧
      c.flash = appendW25xAppendBuffer (initWriteFlash spiFlashFwAddress sampleFlash) s.body := by
  rw [Sample.Delivers] at hrecv
  rw [sampleClient, sampleEvents, replay_append, replay_connectEvents]
  simp [waitingClient, step, andThen, handle, connected, sendHttpgetPkg, recv, recvHttpBuf, hrecv]

theorem sampleClient_inSession (hrecv : s.Delivers) (hroom : s.body.length ≤ spiFlashFwSize) :
    InSession sampleFlash spiFlashFwAddress s.body (sampleClient s).flash := by
  have hfits : spiFlashFwAddress + spiFlashFwSize + 8192 ≤ 2 ^ 24 := by decide
  obtain ⟨-, -, -, -, -, -, hflash⟩ := sampleClient_eq hrecv
  rw [hflash]
  exact InSession.appendBuffer ⟨[], [], rfl, streaming_init sampleFlash spiFlashFwAddress⟩ s.body
    (by decide) (by simp only [List.append_nil, List.length_nil]; omega)

/-- When the server closes the connection, the firmware is accepted if its checksum is found. -/
theorem sampleClient_persists (hrecv : s.Delivers) (hlength : s.size.toUInt32.toNat = s.body.length)
    (hroom : s.body.length ≤ spiFlashFwSize)
    (hfound : (strstr (snprintfS 36 s.checksum) (md5Text (md5Digest s.body))).isSome) :
    Persists (sampleParse s) (sampleClient s) (.closed true) := by
  obtain ⟨hrun, hget, hhttp, hinfo, -, hmd5, -⟩ := sampleClient_eq hrecv
  refine closed_persists hget (hmd5 ▸ (absorbed_init sampleMd5).append s.body)
    (sampleClient_inSession hrecv hroom) ?_ hroom ?_ ?_ (stored_writeconfig _ _) hrun
  · rw [hhttp]
    exact hlength
  · rw [hinfo]
    exact hfound
  · rw [hhttp, hinfo]
    rfl

theorem snprintfS_hexText (digest : Vector UInt8 16) :
    snprintfS 36 (hexText digest) = hexText digest :=
  List.take_of_length_le (by rw [(isDigestText_hexText digest).1]; decide)

theorem strstr_hexText (digest : Vector UInt8 16) :
    (strstr (snprintfS 36 (hexText digest)) (md5Text digest)).isSome := by
  rw [snprintfS_hexText]
  exact strstr_append_self _ _

theorem checkedSample_persists {length : String} (hrecv : (checkedSample length body).Delivers)
    (hlength : (Int32.ofNat body.length).toUInt32.toNat = body.length)
    (hroom : body.length ≤ spiFlashFwSize) :
    Persists (sampleParse (checkedSample length body)) (sampleClient (checkedSample length body))
      (.closed true) := by
  have hchecksum : (checkedSample length body).checksum =
      hexText (md5Digest (checkedSample length body).body) := by
    simp only [checkedSample]
  refine sampleClient_persists hrecv hlength hroom ?_
  rw [hchecksum]
  exact strstr_hexText _

/-- The firmware `A` with its right checksum. -/
theorem acceptance_iff_sample :
    Persists (sampleParse checkedA) (sampleClient checkedA) (.closed true) ∧
      ExactAcceptance (sampleClient checkedA) := by
  have hpersists : Persists (sampleParse checkedA) (sampleClient checkedA) (.closed true) :=
    checkedSample_persists checkedA_delivers rfl (by decide)
  obtain ⟨-, -, hhttp, hinfo, hbody, -, -⟩ := sampleClient_eq checkedA_delivers
  have hchecksum : (sampleClient checkedA).info.checksum =
      hexText (md5Digest (ascii "A")) := by
    rw [hinfo, sampleInfo, checkedA, checkedSample, snprintfS_hexText]
  have hverifiable : Verifiable (sampleClient checkedA) := by
    refine ⟨?_, ⟨ascii "A", hbody, by rw [hhttp]; rfl⟩, by rw [hhttp]; decide⟩
    rw [hchecksum]
    exact isDigestText_hexText _
  exact ⟨hpersists, (acceptance_iff _ sampleMd5 sampleFlash (sampleEvents checkedA) _
    hpersists).mpr hverifiable⟩

/-- The same firmware is accepted with an empty checksum. -/
theorem empty_checksum_accepted :
    Persists (sampleParse uncheckedA) (sampleClient uncheckedA) (.closed true) ∧
      (sampleClient uncheckedA).info.checksum = [] ∧
      ¬ ExactAcceptance (sampleClient uncheckedA) := by
  obtain ⟨-, -, -, hinfo, -, -, -⟩ := sampleClient_eq uncheckedA_delivers
  have hempty : (sampleClient uncheckedA).info.checksum = [] := by
    rw [hinfo]
    rfl
  refine ⟨sampleClient_persists uncheckedA_delivers rfl (by decide) rfl, hempty, ?_⟩
  intro hexact
  obtain ⟨body, -, hchecksum, -⟩ := hexact.body
  have hlen := (isDigestText_hexText (md5Digest body)).1
  rw [← hchecksum, hempty] at hlen
  cases hlen

end Easyio.Ota.Client
