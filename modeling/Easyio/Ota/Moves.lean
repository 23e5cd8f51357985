import Mathlib.Logic.Relation
import Easyio.Ota.Client

/-!
# What an event can do to the client

An event changes the timers and the states of the connection in many ways, but it
changes the rest of the client only in a few.  `Move` lists them, and `step_moves`
says that every event is a sequence of such moves, so that an invariant about the
rest of the client is proved move by move.

Some invariants ask for conditions under which a session is started, a connection is
opened or bytes are received; these are the `Guards` of a move.
-/

namespace Easyio.Ota.Client

open Relation CString W25q16 Config

variable {parse : List UInt8 → Option Json} {c c' : Client} {buf : List UInt8}

/-- Everything but the timers and the states of the connection and the download. -/
structure SameCore (c c' : Client) : Prop where
  get_eq : c'.httpGetStatus = c.httpGetStatus
  info_eq : c'.info = c.info
  md5_eq : c'.md5 = c.md5
  flash_eq : c'.flash = c.flash
  body_eq : c'.body = c.body
  trace_eq : c'.trace = c.trace
  power_eq : c'.power = c.power

/-- What `SameCore` compares. -/
def core (c : Client) := (c.httpGetStatus, c.info, c.md5, c.flash, c.body, c.trace, c.power)

theorem SameCore.of_core (h : c'.core = c.core) : SameCore c c' := by
  simp only [core, Prod.mk.injEq] at h
  obtain ⟨hget, hinfo, hmd5, hflash, hbody, htrace, hpower⟩ := h
  exact ⟨hget, hinfo, hmd5, hflash, hbody, htrace, hpower⟩

theorem SameCore.rfl : SameCore c c := .of_core (.refl _)

/-- Conditions on the states in which three of the moves are made. -/
structure Guards where
  start : Client → Prop
  connect : Client → Prop
  receive : Client → Prop

def Guards.none : Guards := ⟨fun _ => True, fun _ => True, fun _ => True⟩

/-- The moves of the client. -/
inductive Move (parse : List UInt8 → Option Json) (g : Guards) : Client → Client → Prop
  | quiet {c c' : Client} : SameCore c c' → Move parse g c c'
  | session {c : Client} : g.start c → Move parse g c
      { c with info := .cleared, trace := c.trace ++ [.session] }
  | connected (malloc : Bool) {c : Client} : g.connect c →
      Move parse g c (c.connected malloc)
  | receive (buf : List UInt8) {c : Client} : g.receive c →
      Move parse g c (c.recvHttpBuf parse buf)
  | accept {c : Client} : c.httpGetStatus = .config →
      checkConfig parse c.testOtaFlag c.info = .accepted → Move parse g c
        { c with httpGetStatus := .fw, trace := c.trace ++ [.accepted c.info] }
  | disconn (malloc : Bool) {c : Client} : Move parse g c (c.disconn malloc)

abbrev Moves (parse : List UInt8 → Option Json) (g : Guards) : Client → Client → Prop :=
  ReflTransGen (Move parse g)

/-- The events that start a session: a command, or the scheduled check, while the client
is idle. -/
def StartsSession (c : Client) (e : Event) : Prop :=
  c.http.status = .init ∧
    match e with
    | .checkota | .startota => True
    | .routing _ => c.otaTimer = 0 ∧
        (60 * 30 < c.appTimerSecond ∨ 60 * 60 * 12 ≤ c.appTimerSecond - c.otaTimer.toUInt32)
    | _ => False

/-! ## Calls that leave the core alone -/

theorem sameCore_setStatus (s : HttpTcpStatus) : SameCore c (c.setStatus s) := .of_core rfl

theorem sameCore_clientConError : SameCore c c.clientConError := .of_core rfl

theorem sameCore_myFound (found : Bool) : SameCore c (c.myFound found) := by
  rw [myFound]
  split <;> exact .of_core rfl

theorem sameCore_myTcpClientRouting (answer : Answer) :
    SameCore c (c.myTcpClientRouting answer) := by
  unfold myTcpClientRouting
  split <;> exact .of_core rfl

theorem recvHttpBuf_fw (hget : c.httpGetStatus = .fw) :
    c.recvHttpBuf parse buf = { c with
      md5 := Md5.md5Append c.md5 buf
      flash := appendW25xAppendBuffer c.flash buf
      body := c.body.map (· ++ buf) } := by
  rw [recvHttpBuf, hget]

theorem recvHttpBuf_config (hget : c.httpGetStatus = .config) :
    c.recvHttpBuf parse buf = (parse (cString buf)).elim c fun json =>
      { c with info := c.info.update json, trace := c.trace ++ [.config json] } := by
  rw [recvHttpBuf, hget]
  cases parse (cString buf) <;> rfl

theorem SameCore.recvHttpBuf (h : SameCore c c') (buf : List UInt8) :
    SameCore (c.recvHttpBuf parse buf) (c'.recvHttpBuf parse buf) := by
  obtain ⟨hget, hinfo, hmd5, hflash, hbody, htrace, hpower⟩ := h
  rcases hc : c.httpGetStatus with _ | _
  · rw [recvHttpBuf_config hc, recvHttpBuf_config (hget.trans hc)]
    cases parse (cString buf) with
    | none => exact ⟨hget, hinfo, hmd5, hflash, hbody, htrace, hpower⟩
    | some json =>
      exact ⟨hget, congrArg (·.update json) hinfo, hmd5, hflash, hbody,
        congrArg (· ++ [Mark.config json]) htrace, hpower⟩
  · rw [recvHttpBuf_fw hc, recvHttpBuf_fw (hget.trans hc)]
    exact ⟨hget, hinfo, congrArg (Md5.md5Append · buf) hmd5,
      congrArg (appendW25xAppendBuffer · buf) hflash,
      congrArg (Option.map (· ++ buf)) hbody, htrace, hpower⟩

/-- What `disconn` can do. -/
inductive Disconn (c : Client) : Client → Prop
  | config : c.httpGetStatus = .config → Disconn c (c.setStatus .finish)
  /-- The firmware is not accepted. -/
  | refused (st : Md5.State) : c.httpGetStatus = .fw →
      Disconn c ({ c.closeDownload.1 with md5 := st }.setStatus .finish)
  /-- No memory for `check_flash`, or no valid configuration. -/
  | hung (st : Md5.State) : c.httpGetStatus = .fw →
      Disconn c { c.closeDownload.1 with md5 := st, power := .hung }
  /-- The firmware is accepted. -/
  | persisted (st : Md5.State) (conf : SpiflashConfig) : c.httpGetStatus = .fw →
      c.closeDownload.1.Matches c.closeDownload.2 →
      (checkFlash c.closeDownload.1.flash spiFlashFwAddress
        (checkFlashTotal c.http.contentLength) c.closeDownload.1.md5).2 = c.closeDownload.2 →
      readconfig c.closeDownload.1.flash = some conf →
      Disconn c { c.closeDownload.1 with
        md5 := st
        flash := (writeconfig (targetConfig conf c.closeDownload.2 c.http.contentLength)
          c.closeDownload.1.flash).2
        power := .reset }

section

variable (malloc : Bool) (c : Client)

theorem disconn_spec : Disconn c (c.disconn malloc) := by
  rw [disconn]
  split
  · next hget => exact .config hget
  · next hget =>
      dsimp only
      split
      · next hmatches =>
          split
          · split
            · next hfound =>
                rw [persist]
                split
                · exact .hung _ hget
                · next conf hconf => exact .persisted _ conf hget hmatches hfound hconf
            · exact .refused _ hget
          · exact .hung _ hget
      · exact .refused _ hget

/-- The end of a connection changes neither the file that is asked for, nor what is
known about it, nor the trace. -/
theorem disconn_keeps :
    (c.disconn malloc).httpGetStatus = c.httpGetStatus ∧ (c.disconn malloc).info = c.info ∧
      (c.disconn malloc).trace = c.trace := by
  have hspec := disconn_spec malloc c
  generalize c.disconn malloc = d at hspec
  cases hspec <;> exact ⟨rfl, rfl, rfl⟩

theorem myTcpClientStop_get : (c.myTcpClientStop malloc).httpGetStatus = c.httpGetStatus := by
  rw [myTcpClientStop]
  split
  · exact (disconn_keeps malloc _).1
  · rfl

theorem myTcpClientPause_get : (c.myTcpClientPause malloc).httpGetStatus = c.httpGetStatus := by
  rw [myTcpClientPause, andThen]
  split <;> exact myTcpClientStop_get malloc c

end

/-! ## Events as moves -/

section Moves

variable {g : Guards} {d : Client}

theorem Moves.quiet (h : Moves parse g c d) (hq : SameCore d c') : Moves parse g c c' :=
  h.tail (.quiet hq)

theorem Moves.andThen {f : Client → Client} (h : Moves parse g c c')
    (hf : Moves parse g c' (f c')) :
    Moves parse g c (c'.andThen f) := by
  rw [Client.andThen]
  split
  · exact h.trans hf
  · exact h

section

variable (malloc : Bool)

theorem myTcpClientStop_moves (c : Client) : Moves parse g c (c.myTcpClientStop malloc) := by
  rw [myTcpClientStop]
  split
  · exact (ReflTransGen.single (.quiet (.of_core rfl))).tail (.disconn malloc)
  · exact .refl

theorem myTcpClientPause_moves (c : Client) : Moves parse g c (c.myTcpClientPause malloc) :=
  (myTcpClientStop_moves malloc c).andThen (.single (.quiet (.of_core rfl)))

theorem otaStartHttpDownload_moves (hd : SameCore c d)
    (hstart : d.http.status = .init → g.start c) : Moves parse g c d.otaStartHttpDownload := by
  rw [otaStartHttpDownload]
  split
  · next hinit =>
      refine Moves.quiet (.single (.session (hstart hinit))) ?_
      obtain ⟨hget, hinfo, hmd5, hflash, hbody, htrace, hpower⟩ := hd
      exact ⟨hget, rfl, hmd5, hflash, hbody, congrArg (· ++ [Mark.session]) htrace, hpower⟩
  · exact .single (.quiet hd)

theorem recv_moves (seg : Segment) (hreceive : (Ota.recv c.http seg).2.isSome → g.receive c) :
    Moves parse g c (c.recv parse seg) := by
  rw [recv]
  split
  · exact .single (.quiet (.of_core rfl))
  · next buf hbuf =>
      have hmay := hreceive (Option.isSome_iff_exists.mpr ⟨buf, hbuf⟩)
      -- handing the bytes over and counting them can be done in either order
      refine Moves.quiet (.single (.receive buf hmay)) (SameCore.recvHttpBuf ?_ buf)
      exact .of_core rfl

theorem configFinished_moves (hget : c.httpGetStatus = .config) :
    Moves parse g c (c.configFinished parse) := by
  rw [configFinished]
  by_cases hverdict : checkConfig parse c.testOtaFlag c.info = .accepted
  · simp only [hverdict, if_true]
    rw [if_neg (by exact fun h => by rw [setStatus, hverdict] at h; cases h)]
    exact Moves.quiet (.single (.accept hget hverdict)) (.of_core rfl)
  · simp only [hverdict, if_false]
    split
    · exact .single (.quiet ⟨hget.symm, rfl, rfl, rfl, rfl, rfl, rfl⟩)
    · exact .single (.quiet (sameCore_setStatus _))

theorem scheduledCheck_moves
    (hstart : StartsSession c (.routing malloc) → g.start c) :
    Moves parse g c c.scheduledCheck := by
  rw [scheduledCheck]
  split
  · next htimer =>
      have hcheck : (60 * 30 < c.appTimerSecond ∨
          60 * 60 * 12 ≤ c.appTimerSecond - c.otaTimer.toUInt32) →
          Moves parse g c
            { c.respCheckota with otaTimer := c.appTimerSecond.toUInt8 } := by
        intro hdue
        have hstarted : Moves parse g c c.respCheckota :=
          otaStartHttpDownload_moves (.of_core rfl) fun hinit => hstart ⟨hinit, htimer, hdue⟩
        exact hstarted.quiet (.of_core rfl)
      split
      · next hdue => exact hcheck (.inl hdue)
      · split
        · next hdue => exact hcheck (.inr hdue)
        · exact .refl
  · exact .refl

theorem timeout_moves (c : Client) : Moves parse g c (c.timeout malloc) := by
  rw [timeout]
  split
  · exact (myTcpClientPause_moves malloc c).andThen (.single (.quiet (sameCore_setStatus _)))
  · exact .refl

theorem dispatch_moves (c : Client) : Moves parse g c (c.dispatch parse malloc) := by
  unfold dispatch
  split
  · exact .single (.quiet (.of_core rfl))
  · exact .single (.quiet (.of_core rfl))
  · exact .single (.quiet (.of_core rfl))
  · exact myTcpClientStop_moves malloc c
  · exact .single (.quiet (sameCore_setStatus _))
  · next hget => exact configFinished_moves hget
  · next hget =>
      have hkept := (myTcpClientPause_get malloc c).trans hget
      exact (myTcpClientPause_moves malloc c).andThen
        (.single (.quiet ⟨hkept.symm, rfl, rfl, rfl, rfl, rfl, rfl⟩))
  · exact .refl
  · exact .refl

end

/-- **Every event is a sequence of moves.** -/
theorem step_moves (c : Client) (e : Event) (hstart : StartsSession c e → g.start c)
    (hconnect : ∀ malloc, e = .tcpConnected malloc → ∀ d, SameCore c d → g.connect d)
    (hreceive : ∀ seg, e = .data seg → (Ota.recv c.http seg).2.isSome → g.receive c) :
    Moves parse g c (step parse c e) := by
  refine Moves.andThen .refl ?_
  cases e with
  | second => exact .single (.quiet (.of_core rfl))
  | routing malloc =>
    exact Moves.andThen ((scheduledCheck_moves malloc hstart).trans (timeout_moves malloc _))
      (dispatch_moves malloc _)
  | tcpRouting answer => exact .single (.quiet (sameCore_myTcpClientRouting answer))
  | dnsFound found => exact .single (.quiet (sameCore_myFound found))
  | tcpConnected malloc =>
    have hsame : SameCore c { c with activeStatus := .connected } := .of_core rfl
    exact (ReflTransGen.single (.quiet hsame)).tail (.connected malloc
      (hconnect malloc rfl _ hsame))
  | tcpError => exact .single (.quiet sameCore_clientConError)
  | data seg => exact recv_moves seg (hreceive seg rfl)
  | closed malloc =>
    exact (ReflTransGen.single (.quiet (.of_core rfl))).tail (.disconn malloc)
  | netDown malloc => exact myTcpClientStop_moves malloc c
  | checkota | startota =>
    exact otaStartHttpDownload_moves (.of_core rfl) fun hinit => hstart ⟨hinit, trivial⟩

end Moves

end Easyio.Ota.Client
