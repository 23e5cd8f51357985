import Easyio.Ota.Acceptance
import Easyio.Ota.Segmentation

/-!
# Where a firmware download writes

The bytes of a firmware are streamed into the flash from `SPI_FLASH_FW_ADDRESS` on.  Nothing
compares their number with the size of the region, neither `recv`, which takes the content
length from the server, nor the flash driver.  `download_frame_iff` says that the download
stays in the region exactly if fewer bytes come in than the region has.  One that fills the
region leaves it too, since closing it pads one sector more; `full_download_leaves_region`
is such a response.

The region is followed by the sector of `USER_APP_CONFIG`.  The configuration of the
bootloader lies in front of it; an accepted download rewrites that sector, which is the work
of `writeconfig` and not part of the download.
-/

namespace Easyio.Ota.Client

open List Crash Runs CString W25q16 Config

variable {parse : List UInt8 → Option Json} {c c' : Client} {start : Driver} {body : List UInt8}

/-- No download is open, or the bytes received since it was opened on `start` have been
streamed into the flash. -/
def Downloading (start : Driver) (c : Client) : Prop :=
  c.body = none ∨ c.httpGetStatus = .fw ∧ ∃ chunks : List (List UInt8),
    c.body = some chunks.flatten ∧
      c.flash = chunks.foldl appendW25xAppendBuffer (initWriteFlash spiFlashFwAddress start)

theorem downloading_connected (hget : c.httpGetStatus = .fw) (malloc : Bool) :
    Downloading c.flash (c.connected malloc) := by
  have hsent : (c.sendHttpgetPkg malloc otaFirmwareFilename otaHostName).flash = c.flash ∧
      (c.sendHttpgetPkg malloc otaFirmwareFilename otaHostName).httpGetStatus = .fw := by
    rw [sendHttpgetPkg]
    split <;> exact ⟨rfl, hget⟩
  refine .inr ?_
  rw [connected, hget]
  exact ⟨hsent.2, [], rfl, congrArg (initWriteFlash spiFlashFwAddress) hsent.1⟩

theorem Downloading.quiet (h : Downloading start c) (hsame : SameCore c c') :
    Downloading start c' := by
  rw [Downloading, hsame.body_eq, hsame.get_eq, hsame.flash_eq]
  exact h

theorem Downloading.receive (h : Downloading start c) (buf : List UInt8) :
    Downloading start (c.recvHttpBuf parse buf) := by
  rcases h with hnone | ⟨hget, chunks, hbody, hflash⟩
  · refine .inl ?_
    rcases hget : c.httpGetStatus with _ | _
    · rw [recvHttpBuf_config hget]
      cases parse (cString buf) <;> exact hnone
    · rw [recvHttpBuf_fw hget]
      exact congrArg (Option.map (· ++ buf)) hnone
  · rw [recvHttpBuf_fw hget]
    refine .inr ⟨hget, chunks ++ [buf], ?_, ?_⟩
    · rw [hbody]
      simp
    · rw [hflash]
      simp

theorem Downloading.disconn (h : Downloading start c) (malloc : Bool) :
    Downloading start (c.disconn malloc) := by
  have hspec := disconn_spec malloc c
  generalize c.disconn malloc = d at hspec
  cases hspec with
  | config => exact h.quiet (sameCore_setStatus _)
  | refused | hung | persisted => exact .inl rfl

/-- No connection is opened. -/
def openGuards : Guards := ⟨fun _ => True, fun _ => False, fun _ => True⟩

theorem Downloading.moves (h : Downloading start c) (hmoves : Moves parse openGuards c c') :
    Downloading start c' := by
  induction hmoves with
  | refl => exact h
  | tail _ hmove ih =>
    cases hmove with
    | quiet hsame => exact ih.quiet hsame
    | session => exact ih
    | connected malloc hconnect => exact hconnect.elim
    | receive buf => exact ih.receive buf
    | accept => exact ih.imp_right fun ⟨_, hdata⟩ => ⟨rfl, hdata⟩
    | disconn malloc => exact ih.disconn malloc

theorem Downloading.run {events : List Event} (h : Downloading start c)
    (hone : ∀ malloc, .tcpConnected malloc ∉ events) :
    Downloading start (replay (step parse) c events) := by
  induction events generalizing c with
  | nil => exact h
  | cons e rest ih =>
    have hmoves : Moves parse openGuards c (step parse c e) :=
      step_moves c e (fun _ => trivial)
        (fun malloc he => absurd (he ▸ mem_cons_self ..) (hone malloc))
        fun _ _ _ => trivial
    exact ih (h.moves hmoves) fun malloc hmem => hone malloc (mem_cons_of_mem _ hmem)

/-- The end of a download that is open. -/
theorem Downloading.regionFrame_iff (h : Downloading start c) (hbody : c.body = some body) :
    RegionFrame spiFlashFwAddress spiFlashFwSize start c.closeDownload.1.flash ↔
      body.length < spiFlashFwSize := by
  rcases h with hnone | ⟨-, chunks, hchunks, hflash⟩
  · rw [hnone] at hbody
    cases hbody
  · obtain rfl : chunks.flatten = body := Option.some.inj (hchunks.symm.trans hbody)
    rw [closeDownload_flash, hflash]
    exact session_regionFrame_iff start (by decide) (by decide) (by decide)

theorem step_tcpConnected (hrun : c.power = .running) (malloc : Bool) :
    step parse c (.tcpConnected malloc) =
      { c with activeStatus := .connected }.connected malloc := by
  rw [step, andThen, if_pos hrun, handle]

theorem downloading_step_tcpConnected (parse : List UInt8 → Option Json)
    (hrun : c.power = .running) (hget : c.httpGetStatus = .fw) (malloc : Bool) :
    Downloading c.flash (step parse c (.tcpConnected malloc)) := by
  rw [step_tcpConnected hrun]
  exact downloading_connected (c := { c with activeStatus := .connected }) hget malloc

/-- **The frame of a download.**  Whatever happens while a firmware connection is open, and
whatever the server sends: up to and including the end of the flash session, the download
stays in the firmware region exactly if fewer bytes were received than the region has. -/
theorem download_frame_iff (parse : List UInt8 → Option Json) {c : Client}
    (hrun : c.power = .running) (hget : c.httpGetStatus = .fw) (malloc : Bool)
    {events : List Event} (hone : ∀ again, .tcpConnected again ∉ events) {body : List UInt8}
    (hbody : (replay (step parse) (step parse c (.tcpConnected malloc)) events).body =
      some body) :
    RegionFrame spiFlashFwAddress spiFlashFwSize c.flash
        (replay (step parse) (step parse c (.tcpConnected malloc)) events).closeDownload.1.flash ↔
      body.length < spiFlashFwSize := by
  have hopen := downloading_step_tcpConnected parse hrun hget malloc
  exact (hopen.run hone).regionFrame_iff hbody

/-! ## Responses -/

section Response

variable (parse)

theorem recv_fw (hget : c.httpGetStatus = .fw) (seg : Segment) :
    (c.recv parse seg).power = c.power ∧ (c.recv parse seg).httpGetStatus = .fw ∧
      (c.recv parse seg).http = (Ota.recv c.http seg).1 ∧
      (c.recv parse seg).body = c.body.map (· ++ (Ota.recv c.http seg).2.toList.flatten) := by
  rw [recv]
  rcases (Ota.recv c.http seg).2 with _ | buf
  · refine ⟨rfl, hget, rfl, ?_⟩
    simp
  · dsimp only
    rw [recvHttpBuf, hget]
    refine ⟨rfl, rfl, rfl, ?_⟩
    simp

theorem body_replay_data {segs : List Segment} {sofar : List UInt8} (hrun : c.power = .running)
    (hget : c.httpGetStatus = .fw) (hbody : c.body = some sofar) :
    (replay (step parse) c (segs.map .data)).body =
      some (sofar ++ (recvAll c.http segs).2.flatten) := by
  induction segs generalizing c sofar with
  | nil => simpa [recvAll] using hbody
  | cons seg rest ih =>
    have hstep : step parse c (.data seg) = c.recv parse seg := by
      rw [step, andThen, if_pos hrun, handle]
    obtain ⟨hrun', hget', hhttp', hbody'⟩ := recv_fw parse hget seg
    rw [hbody] at hbody'
    rw [map_cons, replay_cons, hstep, ih (hrun'.trans hrun) hget' hbody', hhttp', recvAll]
    simp

/-- The bytes of a download whose connection gets nothing but segments. -/
theorem body_download (hrun : c.power = .running) (hget : c.httpGetStatus = .fw)
    (segs : List Segment) :
    (replay (step parse) (step parse c (.tcpConnected true)) (segs.map .data)).body =
      some (recvAll c.http segs).2.flatten := by
  have hopen : (step parse c (.tcpConnected true)).power = .running ∧
      (step parse c (.tcpConnected true)).httpGetStatus = .fw ∧
      (step parse c (.tcpConnected true)).http = c.http ∧
      (step parse c (.tcpConnected true)).body = some [] := by
    rw [step_tcpConnected hrun, connected]
    simp [hget, hrun, sendHttpgetPkg]
  obtain ⟨hrun', hget', hhttp', hbody'⟩ := hopen
  rw [body_replay_data parse hrun' hget' hbody', hhttp', nil_append]

end Response

/-- A firmware of one byte stays in the region. -/
theorem download_frame_iff_sample :
    RegionFrame spiFlashFwAddress spiFlashFwSize (waitingClient uncheckedA).flash
      (replay (step (sampleParse uncheckedA))
        (step (sampleParse uncheckedA) (waitingClient uncheckedA) (.tcpConnected true))
        [.data (sampleResponse "1" (ascii "A"))]).closeDownload.1.flash := by
  have hbody := body_download (sampleParse uncheckedA) (c := waitingClient uncheckedA) rfl rfl
    [sampleResponse "1" (ascii "A")]
  exact (download_frame_iff (sampleParse uncheckedA) rfl rfl true (by simp) hbody).mpr (by decide)

def fullResponse (body : List UInt8) : Response where
  statusLine := ascii "HTTP/1.1 200 OK"
  headers := [ascii "Content-Length: 262144"]
  body := body

theorem fullResponse_wellFormed (hlen : body.length = 262144) :
    (fullResponse body).WellFormed 262144 where
  lines := by
    show ∀ line ∈ [ascii "HTTP/1.1 200 OK", ascii "Content-Length: 262144"], IsLine line
    unfold IsLine
    decide +kernel
  contentLength := ⟨ascii "Content-Length: 262144", mem_singleton_self _,
    ascii "Content-Length", ascii " ", ascii "262144", [], by decide +kernel⟩
  pos := by decide
  int := by decide
  length_body := hlen

def fullSegments (blocks : List Segment) : List Segment := ⟨(fullResponse []).head, []⟩ :: blocks

theorem recvAll_fullSegments {blocks : List Segment} (hne : ∀ seg ∈ blocks, seg.data ≠ [])
    (hlen : (blocks.flatMap Segment.data).length = 262144) :
    (recvAll ⟨.started, 6, 6⟩ (fullSegments blocks)).2.flatten = blocks.flatMap Segment.data := by
  have hcut : IsCut (fullSegments blocks) (fullResponse (blocks.flatMap Segment.data)).bytes := by
    refine ⟨?_, rfl⟩
    intro seg hmem
    rcases mem_cons.mp hmem with rfl | hmem
    · decide
    · exact hne seg hmem
  have hhead : HeadIntact (fullResponse []).head.length 262144 (fullSegments blocks) :=
    ⟨[], ⟨(fullResponse []).head, []⟩, blocks, 39, rfl, by simp, by decide, by decide, 17,
      by decide +kernel, by decide +kernel⟩
  exact (bodyReceived_of_headIntact (fullResponse_wellFormed hlen) hcut rfl hhead).1

/-- Segments of zeros that fill the region. -/
def fullBlocks : List Segment := List.replicate 1024 ⟨List.replicate 256 0, []⟩

theorem length_fullBlocks : (fullBlocks.flatMap Segment.data).length = spiFlashFwSize := by
  rw [fullBlocks, length_flatMap, map_replicate, sum_replicate_nat, length_replicate]
  rfl

theorem fullBlocks_nonempty {seg : Segment} (hmem : seg ∈ fullBlocks) : seg.data ≠ [] := by
  rw [eq_of_mem_replicate hmem]
  exact cons_ne_nil _ _

/-- A server that sends 256 KiB fills the region, and the padding at the end of the session
erases the sector behind it, which is the one of `USER_APP_CONFIG`. -/
theorem full_download_leaves_region :
    let c := replay (step (sampleParse uncheckedA))
      (step (sampleParse uncheckedA) (waitingClient uncheckedA) (.tcpConnected true))
      ((fullSegments fullBlocks).map .data)
    replay (step (sampleParse uncheckedA)) (boot sampleMd5 sampleFlash) connectEvents =
        waitingClient uncheckedA ∧
      (∃ body, c.body = some body ∧ body.length = spiFlashFwSize) ∧
      ¬ RegionFrame spiFlashFwAddress spiFlashFwSize (waitingClient uncheckedA).flash
        c.closeDownload.1.flash := by
  have hrun : (waitingClient uncheckedA).power = .running := rfl
  have hget : (waitingClient uncheckedA).httpGetStatus = .fw := rfl
  have hhttp : (waitingClient uncheckedA).http = ⟨.started, 6, 6⟩ := rfl
  have hlen := length_fullBlocks
  have hbody := body_download (sampleParse uncheckedA) hrun hget (fullSegments fullBlocks)
  rw [hhttp, recvAll_fullSegments (fun _ => fullBlocks_nonempty) hlen] at hbody
  have hopen := downloading_step_tcpConnected (sampleParse uncheckedA) hrun hget true
  have hone : ∀ malloc, Event.tcpConnected malloc ∉ (fullSegments fullBlocks).map .data := by simp
  refine ⟨replay_connectEvents uncheckedA, ⟨_, hbody, hlen⟩, ?_⟩
  intro hframe
  have hlt := ((hopen.run hone).regionFrame_iff hbody).mp hframe
  rw [hlen] at hlt
  exact lt_irrefl _ hlt

end Easyio.Ota.Client
