import Easyio.Kernel.Words
import Easyio.Lists.Cyclic
import Easyio.Nor.Cells

/-!
# The ring buffer of the drivers

`components/drivers/src/ringbuffer.c` with `rt_ringbuffer_status` and
`rt_ringbuffer_data_len` of `rtdevice.h`.

The read and the write index each have a mirror bit that changes when the index passes
the end of the pool.  The bit is only looked at when the indices are equal: then the
buffer is empty if the bits are equal, and full if they are not.

The bytes behind a pointer argument and its `length` are one list here.  The indices are
bit fields of 15 bits.  The differences in the C text are taken where they are not
negative, because the indices are below `buffer_size`.
-/

namespace Easyio.Drivers

open Kernel Easyio.Lists Nat Nor

/-- `struct rt_ringbuffer` -/
structure RingBuffer where
  bufferPtr : Cells
  readMirror : Bool
  readIndex : ℕ
  writeMirror : Bool
  writeIndex : ℕ
  bufferSize : ℕ

/-- `enum rt_ringbuffer_state` -/
inductive RingState where
  | empty
  | full
  | halfFull
  deriving DecidableEq

namespace RingBuffer

/-- `rt_ringbuffer_init`; `none` when its assertion fails. -/
def init (pool : Cells) (size : ℕ) : Option RingBuffer :=
  if 0 < size then some ⟨pool, false, 0, false, 0, rtAlignDown size⟩ else none

section

variable (rb : RingBuffer)

/-- `rt_ringbuffer_status` -/
def status : RingState :=
  if rb.readIndex = rb.writeIndex then
    if rb.readMirror = rb.writeMirror then .empty else .full
  else .halfFull

/-- `rt_ringbuffer_data_len` -/
def dataLen : ℕ :=
  match rb.status with
  | .empty => 0
  | .full => rb.bufferSize
  | .halfFull =>
    if rb.writeIndex > rb.readIndex then rb.writeIndex - rb.readIndex
    else rb.bufferSize - (rb.readIndex - rb.writeIndex)

/-- `rt_ringbuffer_space_len` -/
def spaceLen : ℕ := rb.bufferSize - rb.dataLen

/-- The copy in `rt_ringbuffer_put` and `rt_ringbuffer_put_force`, with the step of the
write index. -/
def copyIn (ptr : List UInt8) : RingBuffer :=
  let room := rb.bufferSize - rb.writeIndex
  if room > ptr.length then
    { rb with
      bufferPtr := overwrite rb.bufferPtr rb.writeIndex ptr
      writeIndex := (rb.writeIndex + ptr.length) % 2 ^ 15 }
  else
    -- we are going into the other side of the mirror
    { rb with
      bufferPtr := overwrite (overwrite rb.bufferPtr rb.writeIndex (ptr.take room)) 0
        (ptr.drop room)
      writeMirror := !rb.writeMirror
      writeIndex := (ptr.length - room) % 2 ^ 15 }

/-- `rt_ringbuffer_put` -/
def put (ptr : List UInt8) : ℕ × RingBuffer :=
  let size := rb.spaceLen
  if size = 0 then (0, rb)
  else
    -- drop some data
    let length := if size < ptr.length then size else ptr.length
    (length, rb.copyIn (ptr.take length))

/-- `rt_ringbuffer_put_force` -/
def putForce (ptr : List UInt8) : ℕ × RingBuffer :=
  let oldState := rb.status
  let length := if ptr.length > rb.bufferSize then rb.bufferSize else ptr.length
  let rb' := rb.copyIn (ptr.take length)
  if rb.bufferSize - rb.writeIndex > length then
    (length, if oldState = .full then { rb' with readIndex := rb'.writeIndex } else rb')
  else
    (length, if oldState = .full then
        { rb' with readMirror := !rb'.readMirror, readIndex := rb'.writeIndex }
      else rb')

/-- `rt_ringbuffer_get`: the return value and the bytes copied to `ptr`. -/
def get (length : ℕ) : ℕ × List UInt8 × RingBuffer :=
  let size := rb.dataLen
  if size = 0 then (0, [], rb)
  else
    -- less data
    let length := if size < length then size else length
    let room := rb.bufferSize - rb.readIndex
    if room > length then
      (length, window rb.bufferPtr rb.readIndex length,
        { rb with readIndex := (rb.readIndex + length) % 2 ^ 15 })
    else
      (length, window rb.bufferPtr rb.readIndex room ++ window rb.bufferPtr 0 (length - room),
        { rb with readMirror := !rb.readMirror, readIndex := (length - room) % 2 ^ 15 })

/-- `ch` stored at the write index, which moves on by one. -/
def storeChar (ch : UInt8) : RingBuffer :=
  let bufferPtr := Function.update rb.bufferPtr rb.writeIndex ch
  if rb.writeIndex + 1 = rb.bufferSize then
    { rb with bufferPtr := bufferPtr, writeMirror := !rb.writeMirror, writeIndex := 0 }
  else { rb with bufferPtr := bufferPtr, writeIndex := (rb.writeIndex + 1) % 2 ^ 15 }

/-- `rt_ringbuffer_putchar` -/
def putchar (ch : UInt8) : ℕ × RingBuffer :=
  if rb.spaceLen = 0 then (0, rb) else (1, rb.storeChar ch)

/-- `rt_ringbuffer_putchar_force` -/
def putcharForce (ch : UInt8) : ℕ × RingBuffer :=
  let oldState := rb.status
  let rb' := rb.storeChar ch
  if rb.writeIndex + 1 = rb.bufferSize then
    (1, if oldState = .full then
        { rb' with readMirror := !rb'.readMirror, readIndex := rb'.writeIndex }
      else rb')
  else (1, if oldState = .full then { rb' with readIndex := rb'.writeIndex } else rb')

/-- `rt_ringbuffer_getchar`: the return value and the byte stored at `ch`, if any. -/
def getchar : ℕ × List UInt8 × RingBuffer :=
  if rb.dataLen = 0 then (0, [], rb)
  else if rb.readIndex + 1 = rb.bufferSize then
    (1, [rb.bufferPtr rb.readIndex], { rb with readMirror := !rb.readMirror, readIndex := 0 })
  else
    (1, [rb.bufferPtr rb.readIndex], { rb with readIndex := (rb.readIndex + 1) % 2 ^ 15 })

/-! ## The content -/

/-- The bytes from the read index on, `data_len` of them. -/
def content : List UInt8 :=
  reading rb.bufferPtr rb.bufferSize rb.readIndex rb.dataLen

end

/-- Both indices lie in the pool, and the pool is small enough for them. -/
structure Indexed (rb : RingBuffer) : Prop where
  size_lt : rb.bufferSize < 2 ^ 15
  read_lt : rb.readIndex < rb.bufferSize
  write_lt : rb.writeIndex < rb.bufferSize

/-- The mirror bits agree with the indices: on the same side the writer is not behind the
reader, on different sides it is not before it. -/
def Mirrored (rb : RingBuffer) : Prop :=
  if rb.readMirror = rb.writeMirror then rb.readIndex ≤ rb.writeIndex
  else rb.writeIndex ≤ rb.readIndex

instance (rb : RingBuffer) : Decidable rb.Mirrored :=
  inferInstanceAs (Decidable (if rb.readMirror = rb.writeMirror then rb.readIndex ≤ rb.writeIndex
    else rb.writeIndex ≤ rb.readIndex))

variable {rb : RingBuffer} {k : ℕ}

@[simp] theorem length_content : rb.content.length = rb.dataLen := length_reading

theorem dataLen_eq (rb : RingBuffer) : rb.dataLen =
    if rb.readIndex = rb.writeIndex then
      if rb.readMirror = rb.writeMirror then 0 else rb.bufferSize
    else if rb.writeIndex > rb.readIndex then rb.writeIndex - rb.readIndex
    else rb.bufferSize - (rb.readIndex - rb.writeIndex) := by
  unfold dataLen status
  by_cases hindex : rb.readIndex = rb.writeIndex
  · rw [if_pos hindex, if_pos hindex]
    by_cases hmirror : rb.readMirror = rb.writeMirror
    · rw [if_pos hmirror, if_pos hmirror]
    · rw [if_neg hmirror, if_neg hmirror]
  · rw [if_neg hindex, if_neg hindex]

section

variable (hi : rb.Indexed)
include hi

theorem dataLen_le : rb.dataLen ≤ rb.bufferSize := by
  obtain ⟨-, hread, hwrite⟩ := hi
  rw [dataLen_eq]
  split_ifs <;> omega

theorem status_eq_full : rb.status = .full ↔ rb.dataLen = rb.bufferSize := by
  obtain ⟨-, hread, hwrite⟩ := hi
  rw [dataLen_eq, status]
  split_ifs <;> simp <;> omega

theorem dataLen_of_mirrored (hm : rb.Mirrored) :
    rb.dataLen = if rb.readMirror = rb.writeMirror then rb.writeIndex - rb.readIndex
      else rb.bufferSize + rb.writeIndex - rb.readIndex := by
  obtain ⟨-, hread, hwrite⟩ := hi
  unfold Mirrored at hm
  rw [dataLen_eq]
  split_ifs at hm ⊢ <;> omega

theorem writeIndex_eq : (rb.readIndex + rb.dataLen) % rb.bufferSize = rb.writeIndex := by
  obtain ⟨-, hread, hwrite⟩ := hi
  have hsum : rb.readIndex + rb.dataLen = rb.writeIndex ∨
      rb.readIndex + rb.dataLen = rb.writeIndex + rb.bufferSize := by
    rw [dataLen_eq]
    split_ifs <;> omega
  rcases hsum with hsum | hsum
  · rw [hsum, mod_eq_of_lt hwrite]
  · rw [hsum, add_mod_right, mod_eq_of_lt hwrite]

theorem dataLen_of_between
    (hwrite : rb.writeIndex = (rb.readIndex + k) % rb.bufferSize) (hpos : 0 < k)
    (hlt : k < rb.bufferSize) : rb.dataLen = k := by
  obtain ⟨-, hread, -⟩ := hi
  have hsum : rb.writeIndex = rb.readIndex + k ∨
      rb.writeIndex + rb.bufferSize = rb.readIndex + k := by
    rcases lt_or_ge (rb.readIndex + k) rb.bufferSize with hin | hover
    · exact .inl (hwrite.trans (mod_eq_of_lt hin))
    · rw [mod_eq_sub_mod hover, mod_eq_of_lt (by omega)] at hwrite
      exact .inr (by omega)
  rw [dataLen_eq]
  split_ifs <;> omega

end

end RingBuffer

end Easyio.Drivers
