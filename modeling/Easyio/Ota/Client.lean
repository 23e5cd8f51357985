import Easyio.Config.Store
import Easyio.Md5.Digest
import Easyio.Ota.Http
import Easyio.Ota.Info

/-!
# The OTA client

The client of `applications/ota_http_tcp.c`, with the part of
`lwip_raw_api_tcp_template.c` that drives it and the two commands of
`process_xmpp.c` that start it.

The TCP stack, the timer, the XMPP commands and the main loop call into the client
in any order.  Each call is an `Event`, and `step` says what the client does with
it.  Nothing is assumed about the order: a connection that was given up while it
was being set up may still report itself later, and bytes may come in on it.

A call of `rt_malloc` that may fail is an argument of the event.  When
`tcp_client_recv_cb` gets no memory, the segment is dropped, which is the same as
no event.  `tcp_abort` reports an error to `ClientConError` before it returns.

Two fields of `Client` are not in the code.  `body` collects the firmware bytes that
were handed over since the connection was opened, and `trace` the steps of the
protocol.  Nothing reads them.

Left out: the texts printed for debugging, the CPU clock, the names of the server
and of the sender of the command, and `ota_restart_http_download`, which is never
called.
-/

namespace Easyio.Ota

open CString W25q16 Config Md5

/-! ## State -/

/-- `http_get_status` -/
inductive HttpGetStatus where
  | config
  | fw
  deriving DecidableEq

/-- `active_status` of `struct TcpClientCon` -/
inductive TcpStatus where
  | pause
  | init
  | dnsStart
  | dnsFinish
  | connecting
  | connected
  | dnsErr
  | connectErr
  | disconnect
  | reconnectDelay
  deriving DecidableEq

/-- Whether the processor still runs the client.  It stops with the reset that starts
the update, or in an endless loop. -/
inductive Power where
  | running
  | reset
  | hung
  deriving DecidableEq

/-- A step of the protocol. -/
inductive Mark where
  /-- `ota_start_http_download` returned 1. -/
  | session
  /-- A request was sent. -/
  | sent (request : List UInt8)
  /-- A config file was parsed. -/
  | config (json : Json)
  /-- `check_config` returned 1 after a config download. -/
  | accepted (info : OtaDownloadInfo)

/-- The static variables of the client. -/
structure Client where
  http : Http
  httpGetStatus : HttpGetStatus
  /-- `target_download_fw_info` -/
  info : OtaDownloadInfo
  /-- `state` -/
  md5 : State
  flash : Driver
  activeStatus : TcpStatus
  appTimerSecond : UInt32
  startOtaActiveTimep : UInt32
  otaTimer : UInt8
  testOtaFlag : OtaFlag
  /-- `tracker_private_data.ota_status` -/
  otaStatus : UInt8
  power : Power
  body : Option (List UInt8)
  trace : List Mark

/-- The client after `init_ota_http_cli` in the application's start. -/
def Client.boot (md5 : State) (flash : Driver) : Client where
  http := ⟨.init, 0, 0⟩
  httpGetStatus := .config
  info := .cleared
  md5 := md5
  flash := flash
  activeStatus := .pause
  appTimerSecond := 0
  startOtaActiveTimep := 0
  otaTimer := 0
  testOtaFlag := .versionnumModeCfg
  otaStatus := 0
  power := .running
  body := none
  trace := []

namespace Client

/-- `http_tcp_status = s` -/
def setStatus (s : HttpTcpStatus) (c : Client) : Client :=
  { c with http := { c.http with status := s } }

/-- Go on with `f`, unless a call has not returned. -/
def andThen (f : Client → Client) (c : Client) : Client := if c.power = .running then f c else c

/-! ## Sending the request -/

/-- `OTA_HOST_NAME` -/
def otaHostName : List UInt8 := ascii "www.jareymobile.com.tw"

/-- `OTA_CONFIG_FILENAME` -/
def otaConfigFilename : List UInt8 := ascii "/ota/ct03ota.bin.conf"

/-- `OTA_FIRMWARE_FILENAME` -/
def otaFirmwareFilename : List UInt8 := ascii "/ota/ct03ota.bin"

/-- The text `send_httpget_pkg` puts into its buffer. -/
def httpgetPkg (path host : List UInt8) : List UInt8 :=
  snprintfS 128 (ascii "GET " ++ path ++ ascii " HTTP/1.1\r\nHOST: " ++ host ++
    ascii "\r\nConnection: keep-alive\r\n\r\n")

/-- `send_httpget_pkg` -/
def sendHttpgetPkg (malloc : Bool) (path host : List UInt8) (c : Client) : Client :=
  if malloc then { c with trace := c.trace ++ [.sent (httpgetPkg path host)] }
  else c.setStatus .error

/-- `connected` -/
def connected (malloc : Bool) (c : Client) : Client :=
  match c.httpGetStatus with
  | .fw =>
    let c := c.sendHttpgetPkg malloc otaFirmwareFilename otaHostName
    { c with
      md5 := md5Init c.md5
      flash := initWriteFlash spiFlashFwAddress c.flash
      body := some [] }
  | .config => c.sendHttpgetPkg malloc otaConfigFilename otaHostName

/-! ## Receiving the response -/

/-- `recv_http_buf` -/
def recvHttpBuf (parse : List UInt8 → Option Json) (buf : List UInt8) (c : Client) : Client :=
  match c.httpGetStatus with
  | .fw =>
    { c with
      md5 := md5Append c.md5 buf
      flash := appendW25xAppendBuffer c.flash buf
      body := c.body.map (· ++ buf) }
  | .config =>
    match parse (cString buf) with
    | none => c
    | some json => { c with info := c.info.update json, trace := c.trace ++ [.config json] }

/-- `recv` -/
def recv (parse : List UInt8 → Option Json) (seg : Segment) (c : Client) : Client :=
  let step := Ota.recv c.http seg
  let c := { c with http := step.1, startOtaActiveTimep := c.appTimerSecond }
  match step.2 with
  | none => c
  | some buf => c.recvHttpBuf parse buf

/-! ## The end of a connection -/

/-- The text `FW MD5:` and the digits of the digest. -/
def md5Text (digest : Vector UInt8 16) : List UInt8 := ascii "FW MD5:" ++ digest.toList.flatMap hex2

/-- The `while` loop of `check_flash`, with a bound on its rounds. -/
def checkFlashLoop (flash : Driver) (address : ℕ) : ℕ → ℕ → ℕ → State → State
  | 0, _, _, st => st
  | fuel + 1, total, rcnt, st =>
    if total = 0 then st
    else if 256 < total then
      checkFlashLoop flash address fuel (total - 256) (rcnt + 1)
        (md5Append st (spiFlashRead flash (address + rcnt * 256) 256))
    else md5Append st (spiFlashRead flash (address + rcnt * 256) total)

/-- The rounds of `check_flash`: its `size` is an `int`, and a negative one gives none. -/
def checkFlashTotal (contentLength : UInt32) : ℕ := contentLength.toInt32.toInt.toNat

/-- `check_flash` with a buffer: the digest of what the flash holds, and the state it
leaves behind. -/
def checkFlash (flash : Driver) (address total : ℕ) (st : State) :
    State × Vector UInt8 16 :=
  md5Finish (checkFlashLoop flash address (total + 1) total 0 (md5Init st))

/-- The configuration that starts the update. -/
def targetConfig (conf : SpiflashConfig) (digest : Vector UInt8 16) (size : UInt32) :
    SpiflashConfig :=
  { conf with targetFwMd5 := digest, targetFwSize := size }.setStatus .downloadFinish

/-- The end of `disconn` for a firmware with the right digest: write the configuration and
reset. -/
def persist (digest : Vector UInt8 16) (c : Client) : Client :=
  match readconfig c.flash with
  | none => { c with power := .hung }
  | some conf =>
    { c with
      flash := (writeconfig (targetConfig conf digest c.http.contentLength) c.flash).2
      power := .reset }

/-- The beginning of `disconn` for a firmware: the digest, and the end of the flash
session. -/
def closeDownload (c : Client) : Client × Vector UInt8 16 :=
  let done := md5Finish c.md5
  ({ c with md5 := done.1, flash := w25xAppendEnd c.flash, body := none }, done.2)

/-- The comparison with the config file in `disconn`. -/
def Matches (digest : Vector UInt8 16) (c : Client) : Prop :=
  (strstr c.info.checksum (md5Text digest)).isSome ∧
    c.http.contentLength = c.info.fwFileSize.toUInt32

instance (digest : Vector UInt8 16) (c : Client) : Decidable (Matches digest c) :=
  inferInstanceAs (Decidable (_ ∧ _))

/-- `disconn` -/
def disconn (malloc : Bool) (c : Client) : Client :=
  match c.httpGetStatus with
  | .config => c.setStatus .finish
  | .fw =>
    let (c, digest) := c.closeDownload
    if c.Matches digest then
      if malloc then
        let (st, found) := checkFlash c.flash spiFlashFwAddress
          (checkFlashTotal c.http.contentLength) c.md5
        let c := { c with md5 := st }
        if found = digest then c.persist digest else c.setStatus .finish
      else { c with power := .hung }
    else c.setStatus .finish

/-- `connerr` -/
def connerr (c : Client) : Client := c.setStatus .error

/-! ## The TCP connection -/

/-- `ClientConError` -/
def clientConError (c : Client) : Client := { c with activeStatus := .connectErr }.connerr

/-- `MY_TCP_Client_stop` -/
def myTcpClientStop (malloc : Bool) (c : Client) : Client :=
  if c.activeStatus = .connected then
    { c.clientConError with activeStatus := .disconnect }.disconn malloc
  else c

/-- `MY_TCP_Client_pause` -/
def myTcpClientPause (malloc : Bool) (c : Client) : Client :=
  (c.myTcpClientStop malloc).andThen fun c => { c with activeStatus := .pause }

/-- `MY_TCP_Client_start` -/
def myTcpClientStart (c : Client) : Client := { c with activeStatus := .init }

/-- What the name server or the TCP stack answers in `MY_TCP_Client_Routing`. -/
inductive Answer where
  | ok
  | inProgress
  | failed
  deriving DecidableEq

/-- `MY_TCP_Client_Routing`.  The connection is not a lasting one, so it is not set up
again after an error.  Waiting for the name server ends when a counter shared with the
other client runs out, here with the answer `failed`.  A failing `tcp_new` is taken to reach
the branch the code has for it. -/
def myTcpClientRouting (answer : Answer) (c : Client) : Client :=
  match c.activeStatus, answer with
  | .init, .ok => { c with activeStatus := .dnsFinish }
  | .init, .inProgress => { c with activeStatus := .dnsStart }
  | .dnsStart, .failed => { c with activeStatus := .init }
  | .dnsFinish, .ok => { c with activeStatus := .connecting }
  | .dnsFinish, .inProgress => { c with activeStatus := .init }
  | .dnsFinish, .failed => c.clientConError
  | _, _ => c

/-- `my_found` -/
def myFound (found : Bool) (c : Client) : Client :=
  if found then { c with activeStatus := .dnsFinish }
  else { c with activeStatus := .dnsErr }.connerr

/-! ## Sessions -/

/-- `init_ota_http_cli` with `MY_TCP_Client_Init` -/
def initOtaHttpCli (c : Client) : Client := { c with info := .cleared, activeStatus := .pause }

/-- `ota_start_http_download` -/
def otaStartHttpDownload (c : Client) : Client :=
  if c.http.status = .init then
    let c := { c with startOtaActiveTimep := c.appTimerSecond }.initOtaHttpCli.setStatus .start
    { c with trace := c.trace ++ [.session] }
  else c

/-- `resp_checkota` -/
def respCheckota (c : Client) : Client :=
  { c with testOtaFlag := .versionnumModeCfg }.otaStartHttpDownload

/-- `resp_startota` -/
def respStartota (c : Client) : Client :=
  { c with testOtaFlag := .versionnumCfg }.otaStartHttpDownload

/-- `STATUS_DOWNLOAD_CONF` -/
def statusDownloadConf : UInt8 := 3

/-- `STATUS_UPGRADE_MANUALLY` -/
def statusUpgradeManually : UInt8 := 8

/-- `STATUS_START_DOWNLOAD` -/
def statusStartDownload : UInt8 := 10

/-- The beginning of `ota_http_tcp_routing`: look for an update half an hour after the
start, and, it was meant, every twelve hours. -/
def scheduledCheck (c : Client) : Client :=
  if c.otaTimer = 0 then
    if 60 * 30 < c.appTimerSecond then
      { c.respCheckota with otaTimer := c.appTimerSecond.toUInt8 }
    else if 60 * 60 * 12 ≤ c.appTimerSecond - c.otaTimer.toUInt32 then
      { c.respCheckota with otaTimer := c.appTimerSecond.toUInt8 }
    else c
  else c

/-- The time-out in `ota_http_tcp_routing`. -/
def timeout (malloc : Bool) (c : Client) : Client :=
  if c.http.status ≠ .init ∧ 60 < c.appTimerSecond - c.startOtaActiveTimep then
    (c.myTcpClientPause malloc).andThen (setStatus .init)
  else c

/-- The `switch` of `ota_http_tcp_routing` after a finished config download. -/
def configFinished (parse : List UInt8 → Option Json) (c : Client) : Client :=
  let verdict := checkConfig parse c.testOtaFlag c.info
  let c := if verdict = .accepted then
      { c.setStatus .start with httpGetStatus := .fw, trace := c.trace ++ [.accepted c.info] }
    else c.setStatus .init
  if checkConfig parse c.testOtaFlag c.info = .manually then
    { c.setStatus .init with otaStatus := statusUpgradeManually, httpGetStatus := .config }
  else c

/-- The `switch` of `ota_http_tcp_routing`. -/
def dispatch (parse : List UInt8 → Option Json) (malloc : Bool) (c : Client) : Client :=
  match c.http.status, c.httpGetStatus with
  | .start, _ => c.myTcpClientStart.setStatus .started
  | .downloading, .config => { c with otaStatus := statusDownloadConf }
  | .downloading, .fw => { c with otaStatus := statusStartDownload }
  | .downloadFinish, _ => c.myTcpClientStop malloc
  | .error, _ => c.setStatus .start
  | .finish, .config => c.configFinished parse
  | .finish, .fw =>
    -- `http_get_status` is set to the value it has, so the next session starts with it
    (c.myTcpClientPause malloc).andThen fun c => { c.setStatus .init with httpGetStatus := .fw }
  | .init, _ => c
  | .started, _ => c

/-- `ota_http_tcp_routing` -/
def otaHttpTcpRouting (parse : List UInt8 → Option Json) (malloc : Bool) (c : Client) : Client :=
  (c.scheduledCheck.timeout malloc).andThen (dispatch parse malloc)

/-! ## Events -/

/-- A call into the client. -/
inductive Event where
  /-- A second of `app_timer_second` passes. -/
  | second
  /-- The main loop calls `ota_http_tcp_routing`. -/
  | routing (malloc : Bool)
  /-- The main loop calls `MY_TCP_Client_Routing`. -/
  | tcpRouting (answer : Answer)
  /-- The name server answers. -/
  | dnsFound (found : Bool)
  /-- A connection is established. -/
  | tcpConnected (malloc : Bool)
  /-- A connection fails. -/
  | tcpError
  /-- A segment arrives. -/
  | data (seg : Segment)
  /-- The server closes a connection. -/
  | closed (malloc : Bool)
  /-- The modem connection ends: `disconn_tcp_client_buf`. -/
  | netDown (malloc : Bool)
  /-- The command `checkota`. -/
  | checkota
  /-- The command `startota`. -/
  | startota

def handle (parse : List UInt8 → Option Json) (c : Client) : Event → Client
  | .second => { c with appTimerSecond := c.appTimerSecond + 1 }
  | .routing malloc => c.otaHttpTcpRouting parse malloc
  | .tcpRouting answer => c.myTcpClientRouting answer
  | .dnsFound found => c.myFound found
  | .tcpConnected malloc => { c with activeStatus := .connected }.connected malloc
  | .tcpError => c.clientConError
  | .data seg => c.recv parse seg
  | .closed malloc => { c with activeStatus := .disconnect }.disconn malloc
  | .netDown malloc => c.myTcpClientStop malloc
  | .checkota => c.respCheckota
  | .startota => c.respStartota

/-- One event; after a reset or a hang nothing happens any more. -/
def step (parse : List UInt8 → Option Json) (c : Client) (e : Event) : Client :=
  c.andThen fun c => c.handle parse e

end Client

end Easyio.Ota
