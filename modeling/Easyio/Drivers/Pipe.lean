import Easyio.Drivers.RingRuns
import Easyio.Runs.Handoff

/-!
# Pipes

`rt_pipe_init`, `rt_pipe_read` and `rt_pipe_write` of `components/drivers/src/pipe.c`, in a
system of threads that call them.

What a call does while interrupts are disabled is one step.  A call that finds nothing to
move puts its thread into a list and switches; the thread tries again with the step `run`
when it was resumed.  A call that has moved bytes resumes the first thread of the other
list.  The lengths that are passed to the ring buffer are 16 bits wide.  `rx_indicate` is
left out.

To the threads a pipe is a `Handoff`: room is what there is for writers, bytes are what
there is for readers.
-/

namespace Easyio.Drivers

open Function List Nat Nor Option Runs Runs.Partial

/-- `enum rt_pipe_flag`, bit by bit -/
structure PipeFlag where
  blockRd : Bool
  blockWr : Bool
  forceWr : Bool

namespace Pipe

/-- Where a thread is: outside of the calls, or in `rt_schedule` inside of one. -/
inductive Pc where
  | idle
  | reading (size : ℕ)
  | writing (buffer : List UInt8)
  deriving DecidableEq

inductive Event where
  | read (t size : ℕ)
  | write (t : ℕ) (buffer : List UInt8)
  /-- the thread runs again after `rt_schedule` -/
  | run (t : ℕ)

/-- A request that is neither empty nor cut off by the length of 16 bits. -/
def Event.Sized : Event → Prop
  | .read _ size => 0 < size ∧ size < 65536
  | .write _ buffer => 0 < buffer.length ∧ buffer.length < 65536
  | .run _ => True

instance : DecidablePred Event.Sized
  | .read _ size => inferInstanceAs (Decidable (0 < size ∧ size < 65536))
  | .write _ buffer => inferInstanceAs (Decidable (0 < buffer.length ∧ buffer.length < 65536))
  | .run _ => inferInstanceAs (Decidable True)

end Pipe

/-- `struct rt_pipe_device` with the threads that call it, and what a call that ended in
the last step returned. -/
structure Pipe where
  ringbuffer : RingBuffer
  flag : PipeFlag
  suspendedReadList : List ℕ
  suspendedWriteList : List ℕ
  pc : ℕ → Pipe.Pc
  returned : Option Reply

namespace Pipe

/-- `rt_pipe_init`.  The ring buffer takes the size as a signed number of 16 bits. -/
def rtPipeInit (flag : PipeFlag) (buf : Cells) (size : ℕ) : Option Pipe :=
  (RingBuffer.init buf (BitVec.ofNat 16 size).toInt.toNat).map fun ringbuffer =>
    ⟨ringbuffer, flag, [], [], fun _ => .idle, none⟩

section

variable (s : Pipe)

section

variable (t : ℕ)

def goto (pc : Pc) : Pipe := { s with pc := update s.pc t pc }

/-- The call of `t` returns. -/
def ret (reply : Reply) : Pipe := { s with returned := some reply }.goto t .idle

/-- `_rt_pipe_resume_writer` -/
def resumeWriter : Option Pipe :=
  match s.suspendedWriteList with
  | [] => some s
  | _ :: rest => if s.flag.blockWr then some { s with suspendedWriteList := rest } else none

/-- `_rt_pipe_resume_reader` -/
def resumeReader : Option Pipe :=
  match s.suspendedReadList with
  | [] => some s
  | _ :: rest => if s.flag.blockRd then some { s with suspendedReadList := rest } else none

/-- The loop of `rt_pipe_read`, up to the switch or its end. -/
def readLoop (size : ℕ) : Option Pipe :=
  let (readNbytes, bytes, ringbuffer) := s.ringbuffer.get (size % 2 ^ 16)
  if readNbytes = 0 then
    some ({ s with ringbuffer, suspendedReadList := s.suspendedReadList ++ [t] }.goto t
      (.reading size))
  else { s with ringbuffer }.resumeWriter.map (ret · t (readNbytes, bytes))

/-- `rt_pipe_read`, up to the switch. -/
def rtPipeRead (size : ℕ) : Option Pipe :=
  if !s.flag.blockRd then
    let (readNbytes, bytes, ringbuffer) := s.ringbuffer.get (size % 2 ^ 16)
    -- if the ringbuffer is empty, there won't be any writer waiting
    if readNbytes ≠ 0 then { s with ringbuffer }.resumeWriter.map (ret · t (readNbytes, bytes))
    else some ({ s with ringbuffer }.ret t (readNbytes, bytes))
  else s.readLoop t size

/-- The loop of `rt_pipe_write`, up to the switch or its end. -/
def writeLoop (buffer : List UInt8) : Option Pipe :=
  let (writeNbytes, ringbuffer) := s.ringbuffer.put (buffer.take (buffer.length % 2 ^ 16))
  if writeNbytes = 0 then
    -- pipe full, waiting on suspended write list
    some ({ s with ringbuffer, suspendedWriteList := s.suspendedWriteList ++ [t] }.goto t
      (.writing buffer))
  else { s with ringbuffer }.resumeReader.map (ret · t (writeNbytes, []))

/-- `rt_pipe_write`, up to the switch. -/
def rtPipeWrite (buffer : List UInt8) : Option Pipe :=
  if s.flag.forceWr || !s.flag.blockWr then
    let sent := buffer.take (buffer.length % 2 ^ 16)
    let (writeNbytes, ringbuffer) :=
      if s.flag.forceWr then s.ringbuffer.putForce sent else s.ringbuffer.put sent
    { s with ringbuffer }.resumeReader.map (ret · t (writeNbytes, []))
  else s.writeLoop t buffer

/-- The thread `t` runs again, when it is in no list. -/
def resumed : Option Pipe :=
  match s.pc t with
  | .idle => none
  | .reading size => if t ∈ s.suspendedReadList then none else s.readLoop t size
  | .writing buffer => if t ∈ s.suspendedWriteList then none else s.writeLoop t buffer

end

def step : Event → Option Pipe
  | .read t size => if s.pc t = .idle then { s with returned := none }.rtPipeRead t size else none
  | .write t buffer =>
    if s.pc t = .idle then { s with returned := none }.rtPipeWrite t buffer else none
  | .run t => { s with returned := none }.resumed t

/-! ## Wake-ups -/

/-- A writer that was resumed and has not run again. -/
def WriterResumed (t : ℕ) : Prop :=
  (∃ buffer, s.pc t = .writing buffer) ∧ t ∉ s.suspendedWriteList

/-- A reader that was resumed and has not run again. -/
def ReaderResumed (t : ℕ) : Prop :=
  (∃ size, s.pc t = .reading size) ∧ t ∉ s.suspendedReadList

end

/-- A writer waits only if the buffer is full or a writer is about to look, a reader only
if it is empty or a reader is about to look. -/
structure NoLostWakeup (s : Pipe) : Prop where
  writers : s.suspendedWriteList ≠ [] →
    s.ringbuffer.spaceLen = 0 ∨ ∃ t, s.WriterResumed t
  readers : s.suspendedReadList ≠ [] →
    s.ringbuffer.dataLen = 0 ∨ ∃ t, s.ReaderResumed t

/-- The last writer that was resumed fills the buffer or leaves no writer waiting, and the
last reader empties it or leaves no reader waiting. -/
def LastExhausts (s : Pipe) : Event → Prop
  | .run t =>
    match s.pc t with
    | .idle => True
    | .reading size => s.suspendedReadList = [] ∨ (∃ u ≠ t, s.ReaderResumed u) ∨
        s.ringbuffer.dataLen ≤ size
    | .writing buffer => s.suspendedWriteList = [] ∨ (∃ u ≠ t, s.WriterResumed u) ∨
        s.ringbuffer.spaceLen ≤ buffer.length
  | _ => True

end Pipe

/-! ## The ring buffer of a pipe -/

namespace RingBuffer

variable {rb : RingBuffer}

/-- The mirror bits are right, or there is no room at all. -/
def Usable (rb : RingBuffer) : Prop := rb.Indexed ∧ rb.Mirrored ∨ rb.bufferSize = 0 ∧ rb.dataLen = 0

theorem Usable.put (h : rb.Usable) (ptr : List UInt8) :
    (rb.put ptr).1 = min ptr.length rb.spaceLen ∧ (rb.put ptr).2.Usable ∧
      (rb.put ptr).2.spaceLen = rb.spaceLen - (rb.put ptr).1 ∧
      (rb.put ptr).2.dataLen = rb.dataLen + (rb.put ptr).1 := by
  rcases h with ⟨hi, hm⟩ | ⟨hsize, hlen⟩
  · obtain ⟨hcount, hnext⟩ := Refines.put ⟨hi, hm, rfl, rfl⟩ ptr
    have hspace : rb.bufferSize - rb.content.length = rb.spaceLen := by
      rw [length_content, spaceLen]
    rw [hspace] at hcount hnext
    have hlen := hnext.length_eq
    rw [length_append, length_take, length_content] at hlen
    rw [hcount]
    refine ⟨rfl, .inl ⟨hnext.indexed, hnext.mirrored⟩, ?_, ?_⟩
    · rw [spaceLen, hnext.bufferSize, hlen, spaceLen]
      omega
    · rw [hlen, min_comm]
  · have hspace : rb.spaceLen = 0 := by rw [spaceLen, hsize, Nat.zero_sub]
    have hput : rb.put ptr = (0, rb) := if_pos hspace
    rw [hput, hspace]
    exact ⟨by simp, .inr ⟨hsize, hlen⟩, rfl, rfl⟩

theorem Usable.get (h : rb.Usable) (length : ℕ) :
    (rb.get length).1 = min length rb.dataLen ∧ (rb.get length).2.2.Usable ∧
      (rb.get length).2.2.spaceLen = rb.spaceLen + (rb.get length).1 ∧
      (rb.get length).2.2.dataLen = rb.dataLen - (rb.get length).1 := by
  rcases h with ⟨hi, hm⟩ | ⟨hsize, hlen⟩
  · obtain ⟨hcount, hnext⟩ := Refines.get ⟨hi, hm, rfl, rfl⟩ length
    have hlen := hnext.length_eq
    have hbound := dataLen_le hi
    rw [length_drop, length_content] at hlen
    rw [length_content] at hcount
    rw [hcount]
    refine ⟨rfl, .inl ⟨hnext.indexed, hnext.mirrored⟩, ?_, ?_⟩
    · rw [spaceLen, hnext.bufferSize, hlen, spaceLen]
      omega
    · rw [hlen]
      omega
  · have hget : rb.get length = (0, [], rb) := if_pos hlen
    rw [hget, hlen]
    exact ⟨by simp, .inr ⟨hsize, hlen⟩, rfl, by simp⟩

end RingBuffer

/-! ## The pipe as a hand-over -/

namespace Pipe

variable {s s' : Pipe} {t size : ℕ} {buffer : List UInt8} {e : Event} {rb : RingBuffer} {pc : Pc}
  {buf : Cells}

def Pc.transfer : Pc → Option (Handoff.Side × ℕ)
  | .idle => none
  | .reading size => some (.take, size)
  | .writing buffer => some (.give, buffer.length)

/-- What the pipe is to its threads. -/
def view (s : Pipe) : Handoff where
  avail
    | .give => s.ringbuffer.spaceLen
    | .take => s.ringbuffer.dataLen
  waiting
    | .give => s.suspendedWriteList
    | .take => s.suspendedReadList
  pc := fun t => (s.pc t).transfer

def Event.label : Event → Handoff.Event
  | .read t size => .call .take t size
  | .write t buffer => .call .give t buffer.length
  | .run t => .run t

/-- `RT_PIPE_FLAG_BLOCK_RD | RT_PIPE_FLAG_BLOCK_WR` -/
def blocking : PipeFlag := ⟨true, true, false⟩

def Pc.Short : Pc → Prop
  | .idle => True
  | .reading size => size < 2 ^ 16
  | .writing buffer => buffer.length < 2 ^ 16

/-- What holds in all states of a pipe on which both sides block. -/
structure Steady (s : Pipe) : Prop where
  flag : s.flag = blocking
  usable : s.ringbuffer.Usable
  short : ∀ t, (s.pc t).Short

theorem view_goto {h : Handoff} (hspace : s.ringbuffer.spaceLen = h.avail .give)
    (hdata : s.ringbuffer.dataLen = h.avail .take)
    (hwriters : s.suspendedWriteList = h.waiting .give)
    (hreaders : s.suspendedReadList = h.waiting .take)
    (hpc : update s.view.pc t pc.transfer = h.pc) : (s.goto t pc).view = h := by
  refine Handoff.ext (funext fun x => ?_) (funext fun x => ?_) (Eq.trans (funext fun u => ?_) hpc)
  · cases x <;> assumption
  · cases x <;> assumption
  · show (update s.pc t pc u).transfer = _
    rcases eq_or_ne u t with rfl | hu
    · rw [update_self, update_self]
    · rw [update_of_ne hu, update_of_ne hu]
      rfl

theorem resumeWriter_eq (h : s.flag = blocking) :
    s.resumeWriter = some { s with suspendedWriteList := s.suspendedWriteList.tail } := by
  obtain ⟨rb, flag, readers, writers, pc, returned⟩ := s
  obtain rfl : flag = blocking := h
  cases writers <;> rfl

theorem resumeReader_eq (h : s.flag = blocking) :
    s.resumeReader = some { s with suspendedReadList := s.suspendedReadList.tail } := by
  obtain ⟨rb, flag, readers, writers, pc, returned⟩ := s
  obtain rfl : flag = blocking := h
  cases readers <;> rfl

theorem Steady.goto {readers writers : List ℕ} {returned : Option Reply} (hs : s.Steady)
    (hrb : rb.Usable) (hpc : pc.Short) :
    (Pipe.goto ⟨rb, s.flag, readers, writers, s.pc, returned⟩ t pc).Steady := by
  refine ⟨hs.flag, hrb, fun u => ?_⟩
  show (update s.pc t pc u).Short
  rcases eq_or_ne u t with rfl | hu
  · rwa [update_self]
  · rw [update_of_ne hu]
    exact hs.short u

theorem readLoop_view (hs : s.Steady) (hsize : size < 2 ^ 16) :
    ∃ s', s.readLoop t size = some s' ∧ s'.Steady ∧ s'.view = s.view.attempt .take t size := by
  obtain ⟨hcount, husable, hspace, hdata⟩ := hs.usable.get size
  unfold readLoop Handoff.attempt
  simp only [mod_eq_of_lt hsize]
  have hmin : min size (s.view.avail .take) = (s.ringbuffer.get size).1 := hcount.symm
  rw [hmin]
  split
  · next hzero =>
      rw [hzero] at hspace hdata
      exact ⟨_, rfl, hs.goto husable hsize, view_goto hspace hdata rfl rfl rfl⟩
  · have hresume := resumeWriter_eq
      (s := { s with ringbuffer := (s.ringbuffer.get size).2.2 }) hs.flag
    exact ⟨_, congrArg _ hresume, hs.goto husable trivial, view_goto hspace hdata rfl rfl rfl⟩

theorem writeLoop_view (hs : s.Steady) (hlen : buffer.length < 2 ^ 16) :
    ∃ s', s.writeLoop t buffer = some s' ∧ s'.Steady ∧
      s'.view = s.view.attempt .give t buffer.length := by
  obtain ⟨hcount, husable, hspace, hdata⟩ := hs.usable.put buffer
  unfold writeLoop Handoff.attempt
  simp only [mod_eq_of_lt hlen, take_length]
  have hmin : min buffer.length (s.view.avail .give) = (s.ringbuffer.put buffer).1 := hcount.symm
  rw [hmin]
  split
  · next hzero =>
      rw [hzero] at hspace hdata
      exact ⟨_, rfl, hs.goto husable hlen, view_goto hspace hdata rfl rfl rfl⟩
  · have hresume := resumeReader_eq
      (s := { s with ringbuffer := (s.ringbuffer.put buffer).2 }) hs.flag
    exact ⟨_, congrArg _ hresume, hs.goto husable trivial, view_goto hspace hdata rfl rfl rfl⟩

theorem transfer_eq_none : pc.transfer = none ↔ pc = .idle := by
  cases pc <;> simp [Pc.transfer]

theorem Steady.returned (hs : s.Steady) (reply : Option Reply) :
    Steady { s with returned := reply } :=
  ⟨hs.flag, hs.usable, hs.short⟩

theorem of_attempt {o : Option Pipe} {h : Handoff}
    (ho : ∃ s', o = some s' ∧ s'.Steady ∧ s'.view = h) :
    o.map view = some h ∧ ∀ s', o = some s' → s'.Steady := by
  obtain ⟨s', rfl, hsteady, hview⟩ := ho
  exact ⟨congrArg some hview, fun s₁ h₁ => some.inj h₁ ▸ hsteady⟩

/-- A step of a blocking pipe is a step of the hand-over. -/
theorem step_view (hs : s.Steady) (he : e.Sized) :
    (s.step e).map view = s.view.step e.label ∧ ∀ s', s.step e = some s' → s'.Steady := by
  have hs₀ := hs.returned none
  cases e with
  | read t size =>
    simp only [step, Event.label, Handoff.step]
    by_cases hpc : s.pc t = .idle
    · rw [if_pos hpc, if_pos (show s.view.pc t = none from transfer_eq_none.mpr hpc), rtPipeRead,
        if_neg (by simp [hs.flag, blocking])]
      exact of_attempt (readLoop_view hs₀ he.2)
    · rw [if_neg hpc, if_neg (show s.view.pc t ≠ none from mt transfer_eq_none.mp hpc)]
      exact ⟨rfl, fun s' hs' => by cases hs'⟩
  | write t buffer =>
    simp only [step, Event.label, Handoff.step]
    by_cases hpc : s.pc t = .idle
    · rw [if_pos hpc, if_pos (show s.view.pc t = none from transfer_eq_none.mpr hpc), rtPipeWrite,
        if_neg (by simp [hs.flag, blocking])]
      exact of_attempt (writeLoop_view hs₀ he.2)
    · rw [if_neg hpc, if_neg (show s.view.pc t ≠ none from mt transfer_eq_none.mp hpc)]
      exact ⟨rfl, fun s' hs' => by cases hs'⟩
  | run t =>
    have hshort := hs.short t
    have hview : s.view.pc t = (s.pc t).transfer := rfl
    simp only [step, resumed, Event.label, Handoff.step, hview]
    cases hpc : s.pc t with
    | idle => exact ⟨rfl, fun s' hs' => by cases hs'⟩
    | reading size =>
      rw [hpc] at hshort
      simp only [Pc.transfer]
      by_cases hlist : t ∈ s.suspendedReadList
      · rw [if_pos hlist, if_pos (show t ∈ s.view.waiting .take from hlist)]
        exact ⟨rfl, fun s' hs' => by cases hs'⟩
      · rw [if_neg hlist, if_neg (show t ∉ s.view.waiting .take from hlist)]
        exact of_attempt (readLoop_view hs₀ hshort)
    | writing buffer =>
      rw [hpc] at hshort
      simp only [Pc.transfer]
      by_cases hlist : t ∈ s.suspendedWriteList
      · rw [if_pos hlist, if_pos (show t ∈ s.view.waiting .give from hlist)]
        exact ⟨rfl, fun s' hs' => by cases hs'⟩
      · rw [if_neg hlist, if_neg (show t ∉ s.view.waiting .give from hlist)]
        exact of_attempt (writeLoop_view hs₀ hshort)

/-! ## Both levels say the same -/

theorem view_writerResumed : s.view.Resumed .give t ↔ s.WriterResumed t := by
  have hpc : s.view.pc t = (s.pc t).transfer := rfl
  unfold Handoff.Resumed WriterResumed
  rw [hpc]
  refine and_congr ?_ Iff.rfl
  cases s.pc t <;> simp [Pc.transfer]

theorem view_readerResumed : s.view.Resumed .take t ↔ s.ReaderResumed t := by
  have hpc : s.view.pc t = (s.pc t).transfer := rfl
  unfold Handoff.Resumed ReaderResumed
  rw [hpc]
  refine and_congr ?_ Iff.rfl
  cases s.pc t <;> simp [Pc.transfer]

theorem view_noLost : s.view.NoLost ↔ s.NoLostWakeup := by
  have hgive : s.view.avail .give = s.ringbuffer.spaceLen := rfl
  have htake : s.view.avail .take = s.ringbuffer.dataLen := rfl
  refine ⟨fun h => ⟨fun hne => ?_, fun hne => ?_⟩, fun h side hne => ?_⟩
  · simpa only [view_writerResumed, hgive] using h .give hne
  · simpa only [view_readerResumed, htake] using h .take hne
  · cases side with
    | give => simpa only [view_writerResumed, hgive] using h.writers hne
    | take => simpa only [view_readerResumed, htake] using h.readers hne

theorem view_exhausts : s.view.Exhausts e.label ↔ s.LastExhausts e := by
  cases e with
  | read t size | write t buffer => exact Iff.rfl
  | run t =>
    have hview : s.view.pc t = (s.pc t).transfer := rfl
    simp only [Event.label, Handoff.Exhausts, LastExhausts, hview]
    cases hpc : s.pc t with
    | idle => simp [Pc.transfer]
    | reading size =>
      refine ⟨fun h => ?_, fun h side n hn => ?_⟩
      · have htake := h .take size rfl
        simp only [view_readerResumed] at htake
        exact htake
      · obtain ⟨rfl, rfl⟩ : .take = side ∧ size = n := by simpa [Pc.transfer] using hn
        simp only [view_readerResumed]
        exact h
    | writing buffer =>
      refine ⟨fun h => ?_, fun h side n hn => ?_⟩
      · have hgive := h .give buffer.length rfl
        simp only [view_writerResumed] at hgive
        exact hgive
      · obtain ⟨rfl, rfl⟩ : .give = side ∧ buffer.length = n := by
          simpa [Pc.transfer] using hn
        simp only [view_writerResumed]
        exact h

theorem usable_init (hsize : size < 2 ^ 15) (h : RingBuffer.init buf size = some rb) :
    rb.Usable := by
  obtain ⟨-, h⟩ := ite_none_right_eq_some.mp h
  obtain rfl := some.inj h
  have hle : Kernel.rtAlignDown size ≤ size := div_mul_le_self size 4
  rcases Nat.eq_zero_or_pos (Kernel.rtAlignDown size) with hzero | hpos
  · exact .inr ⟨hzero, rfl⟩
  · exact .inl ⟨⟨lt_of_le_of_lt hle hsize, hpos, hpos⟩, le_refl 0⟩

theorem steady_init (h : rtPipeInit blocking buf size = some s) : s.Steady ∧ s.view.Sound := by
  obtain ⟨rb, hrb, rfl⟩ := map_eq_some_iff.mp h
  have hlt : (BitVec.ofNat 16 size).toInt.toNat < 2 ^ 15 := by
    have hint := BitVec.toInt_lt (x := BitVec.ofNat 16 size)
    omega
  refine ⟨⟨rfl, usable_init hlt hrb, fun _ => trivial⟩, ⟨fun side t ht => ?_, fun side => ?_,
    fun t side n hn => by cases hn⟩, fun side hne => ?_⟩
  · cases side <;> cases ht
  · cases side <;> exact nodup_nil
  · cases side <;> exact absurd rfl hne

end Pipe

open Pipe

/-- On a new pipe on which both sides block no wake-up is lost exactly if the last thread
that was resumed always uses up what there is or leaves nobody waiting. -/
theorem pipe_noLostWakeup_iff {buf : Cells} {size : ℕ} {s : Pipe} {events : List Event}
    (hinit : rtPipeInit blocking buf size = some s) (hsized : ∀ e ∈ events, e.Sized) :
    Always step NoLostWakeup s events ↔ Meets step LastExhausts s events := by
  obtain ⟨hsteady, hsound⟩ := steady_init hinit
  have hkeep : ∀ s e s', Steady s → e.Sized → step s e = some s' → Steady s' :=
    fun s e s' hs he h => (step_view hs he).2 s' h
  have hstep : ∀ s e, Steady s → e.Sized → (step s e).map view = Handoff.step s.view e.label :=
    fun s e hs he => (step_view hs he).1
  have hnonzero : ∀ e ∈ events.map Event.label, e.NonZero := by
    intro e' he'
    obtain ⟨e, he, rfl⟩ := mem_map.mp he'
    have hsize := hsized e he
    cases e with
    | read t size | write t buffer => exact Nat.pos_iff_ne_zero.mp hsize.1
    | run t => trivial
  have halways : Always step (fun s => s.view.NoLost) s events ↔ _ :=
    always_view hkeep hstep hsteady hsized
  have hmeets : Meets step (fun s e => s.view.Exhausts e.label) s events ↔ _ :=
    meets_view hkeep hstep hsteady hsized
  simp only [view_noLost, view_exhausts] at halways hmeets
  rw [halways, hmeets]
  exact Handoff.noLost_iff hsound hnonzero

def fourBytePipe : Pipe := ⟨RingBuffer.fourBytes, blocking, [], [], fun _ => .idle, none⟩

/-- A writer that had to wait fills the buffer when it runs again. -/
theorem pipe_noLostWakeup_four :
    rtPipeInit blocking (fun _ => 0) 4 = some fourBytePipe ∧
      Always step NoLostWakeup fourBytePipe
        [.write 1 [1, 2, 3, 4], .write 2 [5, 6], .read 3 2, .run 2] := by
  have hinit : rtPipeInit blocking (fun _ => 0) 4 = some fourBytePipe := rfl
  refine ⟨hinit, (pipe_noLostWakeup_iff hinit (by decide)).mpr ?_⟩
  exact .cons rfl trivial (.cons rfl trivial (.cons rfl trivial (.cons rfl (.inl rfl) trivial)))

/-- Four bytes are read while two writers wait.  The first one writes one byte, and the
second one goes on waiting. -/
theorem pipe_loses_wakeup :
    rtPipeInit blocking (fun _ => 0) 4 = some fourBytePipe ∧
      ¬Always step NoLostWakeup fourBytePipe
        [.write 1 [1, 2, 3, 4], .write 2 [5], .write 3 [6], .read 4 4, .run 2] := by
  refine ⟨rfl, fun h => ?_⟩
  have hlast := (((((h.2 _ rfl).2 _ rfl).2 _ rfl).2 _ rfl).2 _ rfl).head.writers (by decide)
  rcases hlast with hfull | ⟨t, ⟨buffer, hpc⟩, hlist⟩
  · exact absurd hfull (by decide)
  · -- the thread 3 is still in the list, and the others are outside of the calls
    rcases t with _ | _ | _ | _ | _ | n
    · cases hpc
    · cases hpc
    · cases hpc
    · exact hlist (by decide)
    · cases hpc
    · cases hpc

end Easyio.Drivers
