import Easyio.CString.Basic

/-!
# Receiving an HTTP response

`HTTP_GetContentLength` and `recv` of `applications/ota_http_tcp.c`.

`recv` is called once for each TCP segment.  Its effect on the client's status and
counters does not depend on what `recv_http_buf` does with the body bytes, so
here `recv` returns the buffer it hands over, if any, next to the new counters.
-/

namespace Easyio.Ota

open CString

/-- `http_tcp_status` -/
inductive HttpTcpStatus where
  | init
  | start
  | started
  | downloading
  | downloadFinish
  | error
  | finish
  deriving DecidableEq

/-- A received segment in memory.  `recv` is given the data with a zero byte behind
it; `beyond` is what the heap holds after that, which `atoi` may get to see. -/
structure Segment where
  data : List UInt8
  beyond : List UInt8
  deriving DecidableEq

/-- The bytes from the start of the segment on. -/
def Segment.memory (seg : Segment) : List UInt8 := seg.data ++ 0 :: seg.beyond

/-- `http_tcp_status`, `content_length` and `download_size`. -/
structure Http where
  status : HttpTcpStatus
  contentLength : UInt32
  downloadSize : UInt32
  deriving DecidableEq

/-- `HTTP_GetContentLength`: the number two characters behind the first
`Content-Length`, or `-1`. -/
def httpGetContentLength (seg : Segment) : ℤ :=
  match strstr (ascii "Content-Length") (cString seg.data) with
  | none => -1
  | some p1 => atoi (seg.memory.drop (p1 + 14 + 2))

/-- The conversion of an `int` to an `unsigned int`. -/
def toUnsigned (z : ℤ) : UInt32 := UInt32.ofNat (z % 2 ^ 32).toNat

/-- The blank line, with the end of the line before it. -/
def blankLine : List UInt8 := [13, 10, 13, 10]

/-- The comparison at the end of both branches of `recv`. -/
def afterBody (h : Http) : Http :=
  { h with status := if h.downloadSize = h.contentLength then .downloadFinish else .downloading }

/-- `recv`: the new counters, and the buffer passed to `recv_http_buf`. -/
def recv (h : Http) (seg : Segment) : Http × Option (List UInt8) :=
  match h.status with
  | .started =>
    let h := { h with contentLength := toUnsigned (httpGetContentLength seg) }
    if 0 < h.contentLength then
      match strstr blankLine (cString seg.data) with
      | some pos =>
        let body := seg.data.drop (pos + 4)
        (afterBody { h with downloadSize := UInt32.ofNat body.length }, some body)
      | none => (h, none)
    else ({ h with status := .error }, none)
  | .downloading =>
    (afterBody { h with downloadSize := h.downloadSize + UInt32.ofNat seg.data.length },
      some seg.data)
  | _ => (h, none)

/-- `recv` on a list of segments: the counters at the end, and the buffers passed
to `recv_http_buf`. -/
def recvAll : Http → List Segment → Http × List (List UInt8)
  | h, [] => (h, [])
  | h, seg :: rest =>
    let step := recv h seg
    let later := recvAll step.1 rest
    (later.1, step.2.toList ++ later.2)

theorem recvAll_append (h : Http) (first second : List Segment) :
    recvAll h (first ++ second) =
      ((recvAll (recvAll h first).1 second).1,
        (recvAll h first).2 ++ (recvAll (recvAll h first).1 second).2) := by
  induction first generalizing h with
  | nil => rfl
  | cons seg rest ih => simp [recvAll, ih]

end Easyio.Ota
