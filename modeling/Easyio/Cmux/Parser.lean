import Easyio.Cmux.Frame
import Easyio.Nor.Cells
import Easyio.Runs.Guarded

/-!
# The CMUX receiver

`__parser_cmux_pkg` and `recv_vport_data` of `gsmmux/easyio_cmux.c`, and what the
other threads do to the variables these two use: the steps of the AT commands,
`cmux_ctrl` and the `memset` of `start_cmux` and `__init_cmux_thread`.

`State` holds the static variables.  Two of its fields are there for the theorems
only: `writes`, the indices at which `cmux_tmp_buf` was written, and `trace`, the
calls that were made and the moments at which a response buffer was emptied.
`cmux_tmp_buf` itself is a function on indices; nothing keeps an index below the
array's 1280 bytes except what is proved about it.

An `Action` is one step of one thread.  Threads interleave at these steps, so a
run of the system is a list of actions.  The semaphores are left out: which
`rt_sem_take` succeeds, and so how often a callback is called, is left open.  The
channel of a received frame may be up to 63, while `private_data` has four
channels; entries from the fifth on stand for the memory behind it, of which nothing
is known.  A run that stays inside the four channels is one of `InChannels` steps.
-/

namespace Easyio.Cmux

open Crash CString

/-- The type of a channel, `VPORT_AT_TYPE`, `VPORT_RAWDATA_TYPE` or
`VPORT_PPP_TYPE`. -/
inductive VportType where
  | atType
  | rawdataType
  | pppType
  deriving DecidableEq

/-- `struct cmux_vport_type`, without the semaphore and the pointer `data`, which
nothing reads.  `recvDataCb` says whether a callback is set. -/
structure Vport where
  vportTypel : VportType
  atRespBuf : List UInt8
  dataLen : ℕ
  recvDataCb : Bool

/-- A channel after the `memset`. -/
def Vport.zero : Vport where
  vportTypel := .atType
  atRespBuf := List.replicate 64 0
  dataLen := 0
  recvDataCb := false

/-- Something the rest of the system, or a theorem, can see. -/
inductive Mark where
  /-- `recv_vport_data` called for the bytes `data` while the channel has the type `type`. -/
  | received (port : ℕ) (type : VportType) (data : List UInt8)
  /-- `write_ppp` -/
  | writePpp (data : List UInt8)
  /-- `recv_data_cb` -/
  | recvDataCb (data : List UInt8)
  /-- `AT_INTERRUPT` -/
  | atInterrupt (data : List UInt8)
  /-- `at_resp_buf[0] = 0x0` -/
  | cleared (port : ℕ)
  /-- The `memset` of all channels. -/
  | reset
  /-- The callback of an AT command, called for the string `resp`. -/
  | atCb (port : ℕ) (resp : List UInt8) (resplen : ℕ)
  /-- `rt_device_write` on the modem's serial line. -/
  | deviceWrite (frame : List UInt8)

/-- The variables of `easyio_cmux.c`: `cmux_tmp_buf`, `cmux_tmp_buf_index`,
`cmux_tmp_buf_len`, `recv_cmux_data_timer` and `private_data.vport`. -/
structure State where
  buf : Nor.Cells
  index : ℕ
  len : ℕ
  timer : UInt32
  vport : ℕ → Vport
  writes : List ℕ
  trace : List Mark

/-- The variables when the system starts. -/
def State.boot : State where
  buf := fun _ => 0
  index := 0
  len := 0
  timer := 0
  vport := fun _ => .zero
  writes := []
  trace := []

/-- Add `m` to the trace. -/
def State.mark (m : Mark) (s : State) : State := { s with trace := s.trace ++ [m] }

section

variable (s : State)

/-- `cmux_tmp_buf[i] = b` -/
def State.store (i : ℕ) (b : UInt8) : State :=
  { s with buf := Function.update s.buf i b, writes := s.writes ++ [i] }

/-- `cmux_tmp_buf[cmux_tmp_buf_index++] = b` -/
def State.push (b : UInt8) : State :=
  { s.store s.index b with index := (s.index + 1) % 2 ^ 32 }

/-- `private_data.vport[port] = v` -/
def State.setVport (port : ℕ) (v : Vport) : State :=
  { s with vport := Function.update s.vport port v }

/-- `recv_vport_data` for the `len` bytes of `cmux_tmp_buf` from `data` on. -/
def recvVportData (port data len : ℕ) (s : State) : State :=
  let payload := Nor.window s.buf data len
  let v := s.vport port
  let s := s.mark (.received port v.vportTypel payload)
  -- the first byte is looked at even if there is none
  if port = 1 ∧ s.buf data = 0x7e then s.mark (.writePpp payload)
  else if port = 1 ∧ v.vportTypel = .rawdataType then
    if v.recvDataCb then s.mark (.recvDataCb payload) else s
  else if v.vportTypel = .atType then
    let s := s.store (data + len) 0
    let text := Nor.window s.buf data (len + 1)
    -- the third argument is computed as a `size_t`
    let room := (60 + 2 ^ 32 - (cString v.atRespBuf).length) % 2 ^ 32
    let v := { v with atRespBuf := strncat v.atRespBuf text room, dataLen := len }
    (s.setVport port v).mark (.atInterrupt payload)
  else s

/-- The check sequence the parser expects.  A second length byte of `0xFF` stands for
none. -/
def State.fcs : UInt8 :=
  if s.buf 4 = 0xFF then makeFcs (Nor.window s.buf 1 3) else makeFcs (Nor.window s.buf 1 4)

/-- The check of the clock with which `__parser_cmux_pkg` begins. -/
def State.expire (now : UInt32) : State :=
  { s with index := if 1 < now - s.timer then 0 else s.index, timer := now }

/-- The `switch` of `__parser_cmux_pkg`. -/
def accept (data : UInt8) : State :=
  match s.index with
  | 0 => if data = 0xF9 then s.push 0xF9 else { s with index := 0 }
  | 1 => s.push data
  | 2 => if data = 0xEF then s.push 0xEF else { s with index := 0 }
  | 3 =>
    if data &&& 1 = 0 then { s.push data with len := (data >>> 1).toNat }
    else { (s.push data).push 0xFF with len := (data >>> 1).toNat }
  | 4 =>
    let len := (data.toNat * 256 + s.len) % 2 ^ 16
    if 1280 - 32 ≤ len then { s.push data with len := len, index := 0 }
    else { s.push data with len := len }
  | _ =>
    -- the index stays where it is
    if s.index = s.len + 5 ∧ data ≠ s.fcs then { s with len := 0 }
    else if s.index = s.len + 6 then
      if data = 0xF9 then recvVportData (s.buf 1 >>> 2).toNat 5 s.len { s with index := 0 }
      else { s with index := 0 }
    else s.push data

/-- `__parser_cmux_pkg` at the time `now` of `app_timer_second`. -/
def parserCmuxPkg (now : UInt32) (data : UInt8) : State := accept (s.expire now) data

end

/-! ## The system -/

/-- A step of one of the threads. -/
inductive Action where
  /-- `__parser_cmux_pkg`, in the thread that reads the modem -/
  | parse (now : UInt32) (data : UInt8)
  /-- `vport_typel = VPORT_AT_TYPE` in an AT command -/
  | useAt (port : ℕ)
  /-- `at_resp_buf[0] = 0x0` in an AT command -/
  | clear (port : ℕ)
  /-- `at_cb(at_resp_buf, data_len)` in an AT command -/
  | respond (port : ℕ)
  /-- `make_cmux_pkg` -/
  | send (frame : List UInt8)
  /-- `cmux_ctrl` -/
  | ctrl (port : ℕ) (type : VportType) (recvDataCb : Bool)
  /-- `memset(&private_data, 0x0, sizeof(private_data))` -/
  | init

def step (s : State) : Action → State
  | .parse now data => parserCmuxPkg s now data
  | .useAt port => s.setVport port { s.vport port with vportTypel := .atType }
  | .clear port =>
    let v := s.vport port
    (s.setVport port { v with atRespBuf := v.atRespBuf.set 0 0 }).mark (.cleared port)
  | .respond port =>
    let v := s.vport port
    s.mark (.atCb port (cString v.atRespBuf) v.dataLen)
  | .send frame => s.mark (.deviceWrite frame)
  | .ctrl port type recvDataCb =>
    s.setVport port { s.vport port with vportTypel := type, recvDataCb := recvDataCb }
  | .init =>
    { s with vport := fun port => if port < 4 then .zero else s.vport port }.mark .reset

/-- The state after the steps of `actions`. -/
def run (s : State) (actions : List Action) : State := replay step s actions

/-- The state after the bytes of `stream`, each at its time. -/
def feed (s : State) (stream : List (UInt32 × UInt8)) : State :=
  run s (stream.map fun arrival => .parse arrival.1 arrival.2)

/-- The byte a step receives from the modem. -/
def Action.byte? : Action → Option UInt8
  | .parse _ data => some data
  | _ => none

def received (actions : List Action) : List UInt8 := actions.filterMap Action.byte?

/-- The channel and the bytes of a call of `recv_vport_data`. -/
def Mark.call? : Mark → Option (ℕ × List UInt8)
  | .received port _ data => some (port, data)
  | _ => none

/-- The calls of `recv_vport_data`, oldest first. -/
def State.calls (s : State) : List (ℕ × List UInt8) := s.trace.filterMap Mark.call?

end Easyio.Cmux
