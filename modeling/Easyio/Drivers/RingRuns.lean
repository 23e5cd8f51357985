import Easyio.Drivers.ByteFifo

/-!
# Runs of the ring buffer

`Call` are the calls of the ring buffer, `Fifo.perform n` is what they mean for a queue of
at most `n` bytes: a write appends what there is room for, a forced write keeps the newest
`n` bytes, a read takes from the front.

A buffer whose mirror bits are right simulates the queue as long as the forced writes meet
`ForceGuard` (`Refines.perform`).  The other calls have no condition.
-/

namespace Easyio.Drivers

open List Easyio.Lists Nor RingBuffer

/-- A call, with the bytes it offers or the length it asks for. -/
inductive Call where
  | put (ptr : List UInt8)
  | putForce (ptr : List UInt8)
  | putchar (ch : UInt8)
  | putcharForce (ch : UInt8)
  | get (length : ℕ)
  | getchar
  deriving DecidableEq

/-- The return value of a call and the bytes it has read. -/
abbrev Reply := ℕ × List UInt8

def Call.bytes : Call → List UInt8
  | .put ptr | .putForce ptr => ptr
  | .putchar ch | .putcharForce ch => [ch]
  | .get _ | .getchar => []

/-- A call that is not a forced write. -/
def Call.Plain : Call → Prop
  | .putForce _ | .putcharForce _ => False
  | _ => True

instance : DecidablePred Call.Plain
  | .putForce _ | .putcharForce _ => inferInstanceAs (Decidable False)
  | .put _ | .putchar _ | .get _ | .getchar => inferInstanceAs (Decidable True)

/-- Calls one after the other, with all replies. -/
def runCalls {σ : Type*} (perform : σ → Call → Reply × σ) : σ → List Call → List Reply × σ
  | s, [] => ([], s)
  | s, c :: calls =>
    let (reply, s) := perform s c
    let (replies, s) := runCalls perform s calls
    (reply :: replies, s)

/-- The bytes taken by the calls, as many of each as its return value says. -/
def accepted : List Call → List Reply → List UInt8
  | c :: calls, reply :: replies => c.bytes.take reply.1 ++ accepted calls replies
  | _, _ => []

def received (replies : List Reply) : List UInt8 := replies.flatMap (·.2)

/-! ## The queue -/

/-- The last `n` elements. -/
def newest {α : Type*} (n : ℕ) (xs : List α) : List α := xs.drop (xs.length - n)

namespace Fifo

/-- The calls on a queue of at most `n` bytes. -/
def perform (n : ℕ) (q : List UInt8) : Call → Reply × List UInt8
  | .put ptr => ((min ptr.length (n - q.length), []), q ++ ptr.take (n - q.length))
  | .putchar ch => ((min 1 (n - q.length), []), q ++ [ch].take (n - q.length))
  | .putForce ptr => ((min ptr.length n, []), newest n (q ++ ptr))
  | .putcharForce ch => ((min 1 n, []), newest n (q ++ [ch]))
  | .get length => ((min length q.length, q.take length), q.drop length)
  | .getchar => ((min 1 q.length, q.take 1), q.drop 1)

variable {n : ℕ} {q : List UInt8} {c : Call} {calls : List Call}

/-- Without forced writes no byte is lost or made up. -/
theorem take_append_perform (hc : c.Plain) : q ++ c.bytes.take (perform n q c).1.1 =
    (perform n q c).1.2 ++ (perform n q c).2 := by
  cases c with
  | put ptr =>
    have htake : ptr.take (min ptr.length (n - q.length)) = ptr.take (n - q.length) :=
      take_eq_take_iff.mpr (by omega)
    simp only [perform, Call.bytes, htake, nil_append]
  | putchar ch =>
    have htake : [ch].take (min 1 (n - q.length)) = [ch].take (n - q.length) :=
      take_eq_take_iff.mpr (by rw [length_singleton]; omega)
    simp only [perform, Call.bytes, htake, nil_append]
  | putForce ptr | putcharForce ch => exact hc.elim
  | get length => simp [perform, Call.bytes]
  | getchar => simp only [perform, Call.bytes, take_nil, append_nil, take_append_drop]

theorem accepted_eq (hplain : ∀ c ∈ calls, c.Plain) :
    q ++ accepted calls (runCalls (perform n) q calls).1 =
      received (runCalls (perform n) q calls).1 ++ (runCalls (perform n) q calls).2 := by
  induction calls generalizing q with
  | nil => simp [runCalls, accepted, received]
  | cons c calls ih =>
    have hfirst := take_append_perform (n := n) (q := q) (hplain c mem_cons_self)
    have hrest := ih (q := (perform n q c).2) fun d hd => hplain d (mem_cons_of_mem _ hd)
    simp only [runCalls, accepted, received, flatMap_cons] at hrest ⊢
    rw [← append_assoc, hfirst, append_assoc, hrest, append_assoc]

end Fifo

namespace RingBuffer

variable {rb : RingBuffer} {ptr q : List UInt8} {ch : UInt8} {k length n size : ℕ} {pool : Cells}

def perform (rb : RingBuffer) : Call → Reply × RingBuffer
  | .put ptr => let (count, rb) := rb.put ptr; ((count, []), rb)
  | .putForce ptr => let (count, rb) := rb.putForce ptr; ((count, []), rb)
  | .putchar ch => let (count, rb) := rb.putchar ch; ((count, []), rb)
  | .putcharForce ch => let (count, rb) := rb.putcharForce ch; ((count, []), rb)
  | .get length => let (count, bytes, rb) := rb.get length; ((count, bytes), rb)
  | .getchar => let (count, bytes, rb) := rb.getchar; ((count, bytes), rb)

/-! ## The content after the two moves -/

theorem content_appended (hi : rb.Indexed) (hroom : rb.dataLen + ptr.length ≤ rb.bufferSize)
    (hlen : (rb.appended ptr).dataLen = rb.dataLen + ptr.length) :
    (rb.appended ptr).content = rb.content ++ ptr := by
  have hplace : rb.writeIndex % rb.bufferSize = (rb.readIndex + rb.dataLen) % rb.bufferSize := by
    rw [writeIndex_eq hi, Nat.mod_eq_of_lt hi.write_lt]
  rw [content, hlen, content, ← reading_writing_append hroom]
  exact congrArg (reading · _ _ _) (writing_of_mod_eq hplace)

theorem content_overwritten (hi : rb.Indexed) (hfull : rb.status = .full)
    (hlen : ptr.length ≤ rb.bufferSize) :
    (rb.overwritten ptr).content = rb.content.drop ptr.length ++ ptr ∧
      (rb.overwritten ptr).dataLen = rb.bufferSize := by
  have hindex : rb.readIndex = rb.writeIndex ∧ rb.readMirror ≠ rb.writeMirror := by
    unfold status at hfull
    split_ifs at hfull with hindex hmirror
    exact ⟨hindex, hmirror⟩
  have hdata : (rb.overwritten ptr).dataLen = rb.bufferSize := by
    rw [dataLen_eq]
    unfold overwritten appended
    split_ifs <;> simp_all
  refine ⟨?_, hdata⟩
  have hmod : (rb.writeIndex + ptr.length) % rb.bufferSize % rb.bufferSize =
      (rb.writeIndex + ptr.length) % rb.bufferSize := Nat.mod_mod ..
  rw [content, hdata, content, (status_eq_full hi).mp hfull, hindex.1, ← reading_writing_over hlen]
  exact reading_of_mod_eq hmod

theorem content_advanced (hm : (rb.advanced k).dataLen = rb.dataLen - k) (hk : k ≤ rb.dataLen) :
    (rb.advanced k).content = rb.content.drop k := by
  rw [content, hm, content, drop_reading hk]
  exact reading_of_mod_eq (Nat.mod_mod ..)

/-! ## The mirror bits -/

section

variable (hi : rb.Indexed) (hm : rb.Mirrored)
include hi hm

theorem Mirrored.appended
    (hroom : rb.dataLen + ptr.length ≤ rb.bufferSize) : (rb.appended ptr).Mirrored := by
  have hlen := dataLen_of_mirrored hi hm
  obtain ⟨-, hread, hwrite⟩ := hi
  unfold Mirrored at hm
  unfold Mirrored RingBuffer.appended
  simp only
  rcases Nat.lt_or_ge (rb.writeIndex + ptr.length) rb.bufferSize with hin | hover
  · rw [Nat.mod_eq_of_lt hin]
    split_ifs at hm hlen ⊢ <;> omega
  · have hbound : rb.writeIndex + ptr.length < rb.bufferSize + rb.bufferSize := by omega
    rw [if_neg (Nat.not_lt.mpr hover), mod_eq_sub hover hbound]
    simp only [Bool.eq_not]
    split_ifs at hm hlen ⊢ <;> omega

theorem Mirrored.dataLen_appended (hroom : rb.dataLen + ptr.length ≤ rb.bufferSize) :
    (rb.appended ptr).dataLen = rb.dataLen + ptr.length := by
  rcases Nat.lt_or_ge (rb.dataLen + ptr.length) rb.bufferSize with hlt | hge
  · exact RingBuffer.dataLen_appended hi hlt
  · rcases Nat.lt_or_ge rb.dataLen rb.bufferSize with hnot | hfull
    · rw [dataLen_appended_eq hi hnot (by omega), if_pos hm]
      omega
    · obtain rfl : ptr = [] := length_eq_zero_iff.mp (by omega)
      rw [appended_nil hi, length_nil, Nat.add_zero]

theorem Mirrored.advanced (hk : k ≤ rb.dataLen) :
    (rb.advanced k).Mirrored ∧ (rb.advanced k).dataLen = rb.dataLen - k := by
  have hlen := dataLen_of_mirrored hi hm
  have hindexed := hi.advanced k
  have hle := dataLen_le hi
  obtain ⟨-, hread, hwrite⟩ := hi
  unfold Mirrored at hm
  -- on which side the reader is afterwards, and where
  rcases Nat.lt_or_ge (rb.readIndex + k) rb.bufferSize with hin | hover
  · have hmirror : (rb.advanced k).readMirror = rb.readMirror := if_pos hin
    have hindex : (rb.advanced k).readIndex = rb.readIndex + k := Nat.mod_eq_of_lt hin
    have hstays : (rb.advanced k).Mirrored := by
      unfold Mirrored
      rw [hmirror, hindex]
      change if rb.readMirror = rb.writeMirror then rb.readIndex + k ≤ rb.writeIndex
        else rb.writeIndex ≤ rb.readIndex + k
      split_ifs at hm hlen ⊢ <;> omega
    refine ⟨hstays, ?_⟩
    rw [dataLen_of_mirrored hindexed hstays, hmirror, hindex]
    change (if rb.readMirror = rb.writeMirror then rb.writeIndex - (rb.readIndex + k)
      else rb.bufferSize + rb.writeIndex - (rb.readIndex + k)) = _
    split_ifs at hm hlen ⊢ <;> omega
  · have hmirror : (rb.advanced k).readMirror = !rb.readMirror := if_neg (Nat.not_lt.mpr hover)
    have hindex : (rb.advanced k).readIndex = rb.readIndex + k - rb.bufferSize :=
      mod_eq_sub hover (by omega)
    have hstays : (rb.advanced k).Mirrored := by
      unfold Mirrored
      rw [hmirror, hindex]
      simp only [Bool.not_eq, ite_not]
      change if rb.readMirror = rb.writeMirror then
        rb.writeIndex ≤ rb.readIndex + k - rb.bufferSize
        else rb.readIndex + k - rb.bufferSize ≤ rb.writeIndex
      split_ifs at hm hlen ⊢ <;> omega
    refine ⟨hstays, ?_⟩
    rw [dataLen_of_mirrored hindexed hstays, hmirror, hindex]
    simp only [Bool.not_eq, ite_not]
    change (if rb.readMirror = rb.writeMirror then
      rb.bufferSize + rb.writeIndex - (rb.readIndex + k - rb.bufferSize)
      else rb.writeIndex - (rb.readIndex + k - rb.bufferSize)) = _
    split_ifs at hm hlen ⊢ <;> omega

end

/-! ## Forced writes -/

/-- A forced write of `ptr` keeps the reader where it belongs: the buffer is full, or there
is room for what is written, and if that fills the buffer the mirror bits are right. -/
def Spared (rb : RingBuffer) (ptr : List UInt8) : Prop :=
  rb.status = .full ∨ rb.dataLen + min ptr.length rb.bufferSize < rb.bufferSize ∨
    rb.dataLen + min ptr.length rb.bufferSize = rb.bufferSize ∧ rb.Mirrored

/-- What a forced write has to find: it is spared, and of more bytes than the buffer has
the first and the last ones are the same. -/
def ForceGuard (rb : RingBuffer) (ptr : List UInt8) : Prop :=
  rb.Spared ptr ∧ (ptr.length ≤ rb.bufferSize ∨
    ptr.take rb.bufferSize = ptr.drop (ptr.length - rb.bufferSize))

theorem newest_take_iff :
    newest n (q ++ ptr.take n) = newest n (q ++ ptr) ↔
      ptr.length ≤ n ∨ ptr.take n = ptr.drop (ptr.length - n) := by
  rcases Nat.lt_or_ge n ptr.length with hlong | hshort
  · have hfirst : newest n (q ++ ptr.take n) = ptr.take n := by
      rw [newest, length_append, length_take, Nat.min_eq_left (le_of_lt hlong),
        Nat.add_sub_cancel, drop_left]
    have hlast : newest n (q ++ ptr) = ptr.drop (ptr.length - n) := by
      rw [newest, length_append, Nat.add_sub_assoc (le_of_lt hlong),
        drop_append, drop_eq_nil_of_le (by omega), nil_append,
        Nat.add_sub_cancel_left]
    rw [hfirst, hlast, or_iff_right (Nat.not_le.mpr hlong)]
  · rw [take_of_length_le hshort]
    exact iff_of_true rfl (.inl hshort)

/-- A forced write that is spared keeps the newest of the content and of what it takes. -/
theorem Spared.putForce (hi : rb.Indexed) (hs : rb.Spared ptr) :
    (rb.putForce ptr).2.content = newest rb.bufferSize (rb.content ++ ptr.take rb.bufferSize) := by
  have hlen : (ptr.take rb.bufferSize).length = min ptr.length rb.bufferSize := by
    rw [length_take, Nat.min_comm]
  have hle : (ptr.take rb.bufferSize).length ≤ rb.bufferSize := by omega
  have hnew : (rb.content ++ ptr.take rb.bufferSize).length - rb.bufferSize =
      rb.dataLen + (ptr.take rb.bufferSize).length - rb.bufferSize := by
    rw [length_append, length_content]
  rw [putForce_eq hi, newest, hnew]
  unfold Spared at hs
  rw [← hlen] at hs
  split
  · next hfull =>
      have hdata := (status_eq_full hi).mp hfull
      rw [(content_overwritten hi hfull hle).1, hdata, Nat.add_sub_cancel_left,
        drop_append_of_le_length (by rw [length_content]; omega)]
  · next hnot =>
      have happended : rb.dataLen + (ptr.take rb.bufferSize).length ≤ rb.bufferSize ∧
          (rb.appended (ptr.take rb.bufferSize)).dataLen =
            rb.dataLen + (ptr.take rb.bufferSize).length := by
        rcases hs.resolve_left hnot with hlt | ⟨heq, hm⟩
        · exact ⟨le_of_lt hlt, dataLen_appended hi hlt⟩
        · exact ⟨le_of_eq heq, hm.dataLen_appended hi (le_of_eq heq)⟩
      rw [content_appended hi happended.1 happended.2, Nat.sub_eq_zero_of_le happended.1, drop_zero]

/-- The others lose more than they have to. -/
theorem dataLen_putForce_lt (hi : rb.Indexed) (hs : ¬rb.Spared ptr) :
    (rb.putForce ptr).2.dataLen < min (rb.dataLen + ptr.length) rb.bufferSize := by
  have hlen : (ptr.take rb.bufferSize).length = min ptr.length rb.bufferSize := by
    rw [length_take, Nat.min_comm]
  unfold Spared at hs
  rw [not_or, not_or, not_and, ← hlen] at hs
  obtain ⟨hnot, hge, hmirror⟩ := hs
  have hdata : rb.dataLen < rb.bufferSize := by
    have hbound := dataLen_le hi
    have := mt (status_eq_full hi).mpr hnot
    omega
  rw [putForce_eq hi, if_neg hnot]
  rcases Nat.lt_or_ge rb.bufferSize (rb.dataLen + (ptr.take rb.bufferSize).length) with hover | hle
  · rw [dataLen_appended_over hi hdata (by omega) hover]
    omega
  · have hfill : rb.dataLen + (ptr.take rb.bufferSize).length = rb.bufferSize := by omega
    rw [dataLen_appended_eq hi hdata hfill, if_neg (hmirror hfill)]
    omega

/-- The newest bytes of the content and of `ptr`, and no others. -/
def KeepsNewest (rb : RingBuffer) (ptr : List UInt8) (rb' : RingBuffer) : Prop :=
  rb'.content = newest rb.bufferSize (rb.content ++ ptr) ∧
    rb'.dataLen = (newest rb.bufferSize (rb.content ++ ptr)).length

theorem keepsNewest_iff (hi : rb.Indexed) :
    rb.KeepsNewest ptr (rb.putForce ptr).2 ↔ rb.ForceGuard ptr := by
  rw [KeepsNewest, ForceGuard]
  by_cases hs : rb.Spared ptr
  · rw [and_iff_right hs, ← newest_take_iff, ← hs.putForce hi, and_iff_left_iff_imp,
      ← length_content]
    exact congrArg List.length
  · refine iff_of_false (fun hkeeps => ?_) fun hguard => hs hguard.1
    have hlt := dataLen_putForce_lt hi hs
    rw [hkeeps.2, newest, length_drop, length_append, length_content] at hlt
    omega

/-! ## Refinement -/

def CallGuard (rb : RingBuffer) : Call → Prop
  | .putForce ptr => rb.ForceGuard ptr
  | .putcharForce ch => rb.ForceGuard [ch]
  | _ => True

/-- The buffer holds the queue `q` of at most `n` bytes. -/
structure Refines (n : ℕ) (rb : RingBuffer) (q : List UInt8) : Prop where
  indexed : rb.Indexed
  mirrored : rb.Mirrored
  bufferSize : rb.bufferSize = n
  content : rb.content = q

namespace Refines

variable {n : ℕ} {q : List UInt8} {c : Call} {calls : List Call}

section

variable (h : Refines n rb q)
include h

theorem length_eq : rb.dataLen = q.length := by
  rw [← h.content, length_content]

theorem put (ptr : List UInt8) :
    rb.put ptr = (min ptr.length (n - q.length), (rb.put ptr).2) ∧
      Refines n (rb.put ptr).2 (q ++ ptr.take (n - q.length)) := by
  have hspace : rb.spaceLen = n - q.length := by rw [spaceLen, h.bufferSize, h.length_eq]
  have hbound := dataLen_le h.indexed
  have hroom : rb.dataLen + (ptr.take (n - q.length)).length ≤ rb.bufferSize := by
    rw [length_take, h.bufferSize, h.length_eq]
    rw [h.bufferSize, h.length_eq] at hbound
    omega
  rw [put_eq h.indexed, hspace]
  refine ⟨rfl, h.indexed.appended _, h.mirrored.appended h.indexed hroom, h.bufferSize, ?_⟩
  rw [content_appended h.indexed hroom (h.mirrored.dataLen_appended h.indexed hroom), h.content]

theorem get (length : ℕ) :
    rb.get length = (min length q.length, q.take length, (rb.get length).2.2) ∧
      Refines n (rb.get length).2.2 (q.drop length) := by
  have hk : min length q.length ≤ rb.dataLen := by
    rw [h.length_eq]
    exact Nat.min_le_right ..
  obtain ⟨hmirrored, hlen⟩ := h.mirrored.advanced h.indexed hk
  have hbytes : reading rb.bufferPtr rb.bufferSize rb.readIndex (min length q.length) =
      q.take length := by
    rw [← take_reading hk]
    change rb.content.take _ = _
    rw [h.content]
    exact take_eq_take_iff.mpr (by omega)
  rw [get_eq h.indexed, h.length_eq, hbytes]
  refine ⟨rfl, h.indexed.advanced _, hmirrored, h.bufferSize, ?_⟩
  rw [content_advanced hlen hk, h.content]
  exact drop_eq_drop_iff.mpr (by omega)

theorem putForce (hguard : rb.ForceGuard ptr) :
    rb.putForce ptr = (min ptr.length n, (rb.putForce ptr).2) ∧
      Refines n (rb.putForce ptr).2 (newest n (q ++ ptr)) := by
  have hcontent := ((keepsNewest_iff h.indexed).mpr hguard).1
  rw [h.bufferSize, h.content] at hcontent
  have heq : rb.putForce ptr = (min ptr.length rb.bufferSize,
      if rb.status = .full then rb.overwritten (ptr.take rb.bufferSize)
      else rb.appended (ptr.take rb.bufferSize)) := putForce_eq h.indexed
  rw [h.bufferSize] at heq
  refine ⟨by rw [heq], ?_⟩
  split_ifs at heq with hfull
  · rw [heq] at hcontent ⊢
    refine ⟨h.indexed.overwritten _, ?_, h.bufferSize, hcontent⟩
    -- both indices have moved to the same place
    unfold Mirrored overwritten appended
    simp
  · rw [heq] at hcontent ⊢
    have hspared := hguard.1.resolve_left hfull
    rw [h.bufferSize] at hspared
    have hroom : rb.dataLen + (ptr.take n).length ≤ rb.bufferSize := by
      rw [length_take, h.bufferSize]
      omega
    exact ⟨h.indexed.appended _, h.mirrored.appended h.indexed hroom, h.bufferSize, hcontent⟩

/-- Every call whose guard is met does to the content what it does to the queue. -/
theorem perform (hguard : rb.CallGuard c) : (rb.perform c).1 = (Fifo.perform n q c).1 ∧
      Refines n (rb.perform c).2 (Fifo.perform n q c).2 := by
  cases c with
  | put ptr =>
    obtain ⟨hreply, hnext⟩ := h.put ptr
    exact ⟨congrArg (fun r : ℕ × RingBuffer => (r.1, [])) hreply, hnext⟩
  | putForce ptr =>
    obtain ⟨hreply, hnext⟩ := h.putForce hguard
    exact ⟨congrArg (fun r : ℕ × RingBuffer => (r.1, [])) hreply, hnext⟩
  | putchar ch =>
    obtain ⟨hreply, hnext⟩ := h.put [ch]
    rw [perform, putchar_eq h.indexed]
    exact ⟨congrArg (fun r : ℕ × RingBuffer => (r.1, [])) hreply, hnext⟩
  | putcharForce ch =>
    obtain ⟨hreply, hnext⟩ := h.putForce hguard
    rw [perform, putcharForce_eq h.indexed]
    exact ⟨congrArg (fun r : ℕ × RingBuffer => (r.1, [])) hreply, hnext⟩
  | get length =>
    obtain ⟨hreply, hnext⟩ := h.get length
    exact ⟨congrArg (fun r : ℕ × List UInt8 × RingBuffer => (r.1, r.2.1)) hreply, hnext⟩
  | getchar =>
    obtain ⟨hreply, hnext⟩ := h.get 1
    rw [perform, getchar_eq h.indexed]
    exact ⟨congrArg (fun r : ℕ × List UInt8 × RingBuffer => (r.1, r.2.1)) hreply, hnext⟩

end

end Refines

theorem callGuard_of_plain {c : Call} (hc : c.Plain) : rb.CallGuard c := by
  cases c with
  | putForce ptr | putcharForce ch => exact hc.elim
  | _ => trivial

theorem Refines.run {calls : List Call} (h : Refines n rb q) (hplain : ∀ c ∈ calls, c.Plain) :
    (runCalls RingBuffer.perform rb calls).1 = (runCalls (Fifo.perform n) q calls).1 ∧
      Refines n (runCalls RingBuffer.perform rb calls).2 (runCalls (Fifo.perform n) q calls).2 := by
  induction calls generalizing rb q with
  | nil => exact ⟨rfl, h⟩
  | cons c calls ih =>
    obtain ⟨hreply, hnext⟩ := h.perform (callGuard_of_plain (hplain c mem_cons_self))
    obtain ⟨hreplies, hlast⟩ := ih hnext fun d hd => hplain d (mem_cons_of_mem _ hd)
    exact ⟨congrArg₂ List.cons hreply hreplies, hlast⟩

theorem refines_init (hinit : init pool size = some rb) (halign : 4 ∣ size) (hlt : size < 2 ^ 15) :
    Refines size rb [] := by
  unfold init at hinit
  split at hinit
  · next hpos =>
      have hsize : Kernel.rtAlignDown size = size := Nat.div_mul_cancel halign
      obtain rfl := Option.some.inj hinit
      exact ⟨⟨by rwa [hsize], by rwa [hsize], by rwa [hsize]⟩, le_refl 0, hsize, rfl⟩
  · cases hinit

/-- **The ring buffer is a bounded queue of bytes.**  Without forced writes, every sequence
of calls gets the replies of the queue, `data_len` is the length of the queue, and the bytes
taken are the bytes read and those still there, in order. -/
theorem ringbuffer_refines_fifo {pool : Cells} {size : ℕ} {calls : List Call}
    (hinit : init pool size = some rb) (halign : 4 ∣ size) (hlt : size < 32768)
    (hplain : ∀ c ∈ calls, c.Plain) :
    (runCalls perform rb calls).1 = (runCalls (Fifo.perform size) [] calls).1 ∧
      (runCalls perform rb calls).2.content =
        (runCalls (Fifo.perform size) [] calls).2 ∧
      (runCalls perform rb calls).2.dataLen =
        (runCalls (Fifo.perform size) [] calls).2.length ∧
      accepted calls (runCalls perform rb calls).1 =
        received (runCalls RingBuffer.perform rb calls).1 ++
          (runCalls RingBuffer.perform rb calls).2.content := by
  obtain ⟨hreplies, hlast⟩ := (refines_init hinit halign hlt).run hplain
  refine ⟨hreplies, hlast.content, hlast.length_eq, ?_⟩
  rw [hreplies, hlast.content]
  simpa using Fifo.accepted_eq (q := []) hplain

def fourBytes : RingBuffer := ⟨fun _ => 0, false, 0, false, 0, 4⟩

/-- Six bytes offered to a buffer of four, then all read. -/
theorem ringbuffer_refines_fifo_four :
    init (fun _ => 0) 4 = some fourBytes ∧
      (runCalls RingBuffer.perform fourBytes
        [.put [1, 2, 3], .getchar, .put [4, 5, 6], .get 9]).1 =
        [(3, []), (1, [1]), (2, []), (4, [2, 3, 4, 5])] := by
  have hinit : init (fun _ => 0) 4 = some fourBytes := rfl
  refine ⟨hinit, ?_⟩
  rw [(ringbuffer_refines_fifo hinit (by decide) (by decide) (by decide)).1]
  decide

/-! ## Forced writes in every reachable state -/

theorem Indexed.perform (hi : rb.Indexed) (c : Call) : (rb.perform c).2.Indexed := by
  have hput (ptr : List UInt8) : (rb.put ptr).2.Indexed := by
    rw [put_eq hi]
    exact hi.appended _
  have hforce (ptr : List UInt8) : (rb.putForce ptr).2.Indexed := by
    rw [putForce_eq hi]
    split
    · exact hi.overwritten _
    · exact hi.appended _
  have hget (length : ℕ) : (rb.get length).2.2.Indexed := by
    rw [get_eq hi]
    exact hi.advanced _
  cases c with
  | put ptr => exact hput ptr
  | putForce ptr => exact hforce ptr
  | putchar ch =>
    rw [RingBuffer.perform, putchar_eq hi]
    exact hput [ch]
  | putcharForce ch =>
    rw [RingBuffer.perform, putcharForce_eq hi]
    exact hforce [ch]
  | get length => exact hget length
  | getchar =>
    rw [RingBuffer.perform, getchar_eq hi]
    exact hget 1

theorem Indexed.run (hi : rb.Indexed) (calls : List Call) :
    (runCalls RingBuffer.perform rb calls).2.Indexed := by
  induction calls generalizing rb with
  | nil => exact hi
  | cons c calls ih => exact ih (hi.perform c)

theorem indexed_init (hinit : init pool size = some rb) (hlow : 4 ≤ size) (hlt : size < 2 ^ 15) :
    rb.Indexed := by
  unfold init at hinit
  rw [if_pos (by omega)] at hinit
  obtain rfl := Option.some.inj hinit
  have hsize : 0 < Kernel.rtAlignDown size ∧ Kernel.rtAlignDown size < 2 ^ 15 := by
    unfold Kernel.rtAlignDown
    omega
  exact ⟨hsize.2, hsize.1, hsize.1⟩

/-- **Forced writes.**  In every state that any calls lead to, a forced write leaves the
newest bytes of the content and of what is written exactly if its guard is met. -/
theorem forced_writes_iff {pool : Cells} {size : ℕ} (hinit : init pool size = some rb)
    (hlow : 4 ≤ size) (hlt : size < 32768) (calls : List Call) :
    (∀ ptr, (runCalls perform rb calls).2.KeepsNewest ptr
        ((runCalls perform rb calls).2.putForce ptr).2 ↔
      (runCalls perform rb calls).2.ForceGuard ptr) ∧
    ∀ ch, (runCalls perform rb calls).2.KeepsNewest [ch]
        ((runCalls RingBuffer.perform rb calls).2.putcharForce ch).2 ↔
      (runCalls RingBuffer.perform rb calls).2.ForceGuard [ch] := by
  have hi := (indexed_init hinit hlow hlt).run calls
  refine ⟨fun ptr => keepsNewest_iff hi, fun ch => ?_⟩
  rw [putcharForce_eq hi]
  exact keepsNewest_iff hi

/-- Two bytes forced into a full buffer. -/
theorem forced_writes_full :
    init (fun _ => 0) 4 = some fourBytes ∧
      (runCalls perform fourBytes [.put [1, 2, 3, 4]]).2.KeepsNewest [5, 6]
        ((runCalls perform fourBytes [.put [1, 2, 3, 4]]).2.putForce [5, 6]).2 := by
  have hinit : init (fun _ => 0) 4 = some fourBytes := rfl
  refine ⟨hinit, ((forced_writes_iff hinit (by decide) (by decide) _).1 [5, 6]).mpr ?_⟩
  exact ⟨.inl (by decide), .inl (by decide)⟩

/-- Three bytes forced into a buffer of four that holds two: one is left. -/
theorem forced_write_loses :
    init (fun _ => 0) 4 = some fourBytes ∧
      (runCalls perform fourBytes [.put [1, 2]]).2.content = [1, 2] ∧
      ((runCalls perform fourBytes [.put [1, 2]]).2.putForce [3, 4, 5]).2.content =
        [5] ∧
      ¬(runCalls perform fourBytes [.put [1, 2]]).2.KeepsNewest [3, 4, 5]
        ((runCalls perform fourBytes [.put [1, 2]]).2.putForce [3, 4, 5]).2 :=
  ⟨rfl, by decide, by decide, fun hkeeps => absurd hkeeps.2 (by decide)⟩

end RingBuffer

end Easyio.Drivers
