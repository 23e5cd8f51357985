import Easyio.Drivers.RingBuffer

/-!
# The ring buffer as a queue of bytes

The calls of the ring buffer do one of two things.  `appended rb ptr` writes `ptr` behind
the content and moves the write index; `advanced rb k` moves the read index by `k`.  As
long as no more is written than there is room for, the first appends to the content and
the second drops from it, and the mirror bits stay right.

A forced write of more than there is room for only moves the read index if the buffer was
full before.  Otherwise the write index passes the read index and most of the content is
lost (`dataLen_appended_over`).  The mirror bits are wrong from then on, so a later write
that just fills the buffer leaves it empty (`dataLen_appended_eq`).
-/

namespace Easyio.Drivers

open List Easyio.Lists Nat Nor RingBuffer

/-! ## Memory runs as cyclic ones -/

variable {cells : Cells} {n i : ℕ} {xs : List UInt8}

theorem window_eq_reading {len : ℕ} (h : i + len ≤ n) :
    window cells i len = reading cells n i len := by
  refine map_congr_left fun k hk => ?_
  have := mem_range.mp hk
  rw [mod_eq_of_lt (by omega)]

theorem overwrite_eq_writing (h : i + xs.length ≤ n) :
    overwrite cells i xs = writing cells n i xs := by
  induction xs generalizing cells i with
  | nil => exact overwrite_nil cells i
  | cons x xs ih =>
    rw [length_cons] at h
    rw [← singleton_append, overwrite_append, overwrite_singleton, length_singleton,
      ih (by omega), singleton_append, writing, mod_eq_of_lt (by omega)]

theorem overwrite_overwrite_eq_writing (hi : i ≤ n) (hlow : n ≤ i + xs.length)
    (hhigh : xs.length ≤ n) :
    overwrite (overwrite cells i (xs.take (n - i))) 0 (xs.drop (n - i)) = writing cells n i xs := by
  have htake : (xs.take (n - i)).length = n - i := by
    rw [length_take]
    omega
  have hdrop : (xs.drop (n - i)).length = xs.length - (n - i) := length_drop
  have hmod : 0 % n = (i + (n - i)) % n := by
    rw [Nat.add_sub_cancel' hi, Nat.mod_self, Nat.zero_mod]
  calc overwrite (overwrite cells i (xs.take (n - i))) 0 (xs.drop (n - i))
      = writing (writing cells n i (xs.take (n - i))) n 0 (xs.drop (n - i)) := by
        rw [overwrite_eq_writing (n := n) (by omega), overwrite_eq_writing (n := n) (by omega)]
    _ = writing cells n i (xs.take (n - i) ++ xs.drop (n - i)) := by
        rw [writing_append, htake, writing_of_mod_eq hmod]
    _ = writing cells n i xs := by rw [take_append_drop]

namespace RingBuffer

variable {rb : RingBuffer} {ptr : List UInt8} {ch : UInt8} {k length : ℕ}

/-! ## The two moves -/

/-- `ptr` written behind the content. -/
def appended (rb : RingBuffer) (ptr : List UInt8) : RingBuffer :=
  { rb with
    bufferPtr := writing rb.bufferPtr rb.bufferSize rb.writeIndex ptr
    writeMirror :=
      if rb.writeIndex + ptr.length < rb.bufferSize then rb.writeMirror else !rb.writeMirror
    writeIndex := (rb.writeIndex + ptr.length) % rb.bufferSize }

/-- The read index moved on by `k`. -/
def advanced (rb : RingBuffer) (k : ℕ) : RingBuffer :=
  { rb with
    readMirror := if rb.readIndex + k < rb.bufferSize then rb.readMirror else !rb.readMirror
    readIndex := (rb.readIndex + k) % rb.bufferSize }

/-- `ptr` written over the oldest bytes of a full buffer. -/
def overwritten (rb : RingBuffer) (ptr : List UInt8) : RingBuffer :=
  { rb.appended ptr with
    readMirror :=
      if rb.writeIndex + ptr.length < rb.bufferSize then rb.readMirror else !rb.readMirror
    readIndex := (rb.writeIndex + ptr.length) % rb.bufferSize }

section

variable (hi : rb.Indexed)
include hi

theorem Indexed.appended (ptr : List UInt8) : (rb.appended ptr).Indexed :=
  ⟨hi.size_lt, hi.read_lt, mod_lt _ (zero_lt_of_lt hi.read_lt)⟩

theorem Indexed.advanced (k : ℕ) : (rb.advanced k).Indexed :=
  ⟨hi.size_lt, mod_lt _ (zero_lt_of_lt hi.read_lt), hi.write_lt⟩

theorem Indexed.overwritten (ptr : List UInt8) : (rb.overwritten ptr).Indexed :=
  have hlt := mod_lt (rb.writeIndex + ptr.length) (zero_lt_of_lt hi.read_lt)
  ⟨hi.size_lt, hlt, hlt⟩

theorem appended_nil : rb.appended [] = rb := by
  have hwrite := hi.write_lt
  simp [appended, writing, hwrite, mod_eq_of_lt hwrite]

theorem advanced_zero : rb.advanced 0 = rb := by
  have hread := hi.read_lt
  simp [advanced, hread, mod_eq_of_lt hread]

end

theorem mod_eq_sub (hlow : n ≤ i) (hhigh : i < n + n) : i % n = i - n := by
  rw [mod_eq_sub_mod hlow, mod_eq_of_lt (by omega)]

/-! ## What the calls do -/

section

variable (hi : rb.Indexed)
include hi

theorem copyIn_eq (hlen : ptr.length ≤ rb.bufferSize) : rb.copyIn ptr = rb.appended ptr := by
  obtain ⟨hsize, hread, hwrite⟩ := hi
  unfold copyIn appended
  simp only
  split
  · next hroom =>
      have hin : rb.writeIndex + ptr.length < rb.bufferSize := by omega
      rw [overwrite_eq_writing (le_of_lt hin), if_pos hin, mod_eq_of_lt hin,
        mod_eq_of_lt (by omega)]
  · next hroom =>
      have hover : rb.bufferSize ≤ rb.writeIndex + ptr.length := by omega
      have hindex : ptr.length - (rb.bufferSize - rb.writeIndex) =
          rb.writeIndex + ptr.length - rb.bufferSize := by omega
      rw [overwrite_overwrite_eq_writing (le_of_lt hwrite) hover hlen, if_neg (by omega),
        mod_eq_sub hover (by omega), hindex, mod_eq_of_lt (by omega)]

theorem storeChar_eq : rb.storeChar ch = rb.appended [ch] := by
  obtain ⟨hsize, hread, hwrite⟩ := hi
  unfold storeChar appended
  simp only [writing, length_singleton, mod_eq_of_lt hwrite]
  split
  · next hlast => rw [if_neg (by omega), hlast, mod_self]
  · next hlast =>
      rw [if_pos (by omega), mod_eq_of_lt (by omega : rb.writeIndex + 1 < 2 ^ 15),
        mod_eq_of_lt (by omega)]

theorem put_eq : rb.put ptr = (min ptr.length rb.spaceLen, rb.appended (ptr.take rb.spaceLen)) := by
  unfold put
  simp only
  have hspace : rb.spaceLen ≤ rb.bufferSize := sub_le ..
  have hmin : (if rb.spaceLen < ptr.length then rb.spaceLen else ptr.length) =
      min ptr.length rb.spaceLen := by
    split <;> omega
  have htake : ptr.take (min ptr.length rb.spaceLen) = ptr.take rb.spaceLen :=
    take_eq_take_iff.mpr (by omega)
  split
  · next hnone => rw [hnone, take_zero, appended_nil hi, Nat.min_zero]
  · rw [hmin, htake, copyIn_eq hi]
    rw [length_take]
    omega

theorem get_eq : rb.get length = (min length rb.dataLen,
      reading rb.bufferPtr rb.bufferSize rb.readIndex (min length rb.dataLen),
      rb.advanced (min length rb.dataLen)) := by
  have hle := dataLen_le hi
  obtain ⟨hsize, hread, hwrite⟩ := id hi
  have hmin : (if rb.dataLen < length then rb.dataLen else length) = min length rb.dataLen := by
    split <;> omega
  unfold get
  simp only [hmin]
  split
  · next hnone => rw [hnone, Nat.min_zero, reading_zero, advanced_zero hi]
  · generalize hk : min length rb.dataLen = k
    split
    · next hroom =>
        have hin : rb.readIndex + k < rb.bufferSize := by omega
        rw [window_eq_reading (le_of_lt hin), advanced, if_pos hin, mod_eq_of_lt hin,
          mod_eq_of_lt (by omega)]
    · next hroom =>
        have hover : rb.bufferSize ≤ rb.readIndex + k := by omega
        have hindex : k - (rb.bufferSize - rb.readIndex) = rb.readIndex + k - rb.bufferSize := by
          omega
        have hround : 0 % rb.bufferSize =
            (rb.readIndex + (rb.bufferSize - rb.readIndex)) % rb.bufferSize := by
          rw [Nat.add_sub_cancel' (le_of_lt hread), Nat.mod_self, Nat.zero_mod]
        have hbytes : window rb.bufferPtr rb.readIndex (rb.bufferSize - rb.readIndex) ++
            window rb.bufferPtr 0 (k - (rb.bufferSize - rb.readIndex)) =
              reading rb.bufferPtr rb.bufferSize rb.readIndex k := by
          rw [window_eq_reading (n := rb.bufferSize) (by omega),
            window_eq_reading (n := rb.bufferSize) (by omega), reading_of_mod_eq hround,
            ← reading_add, Nat.add_sub_cancel' (by omega)]
        rw [hbytes, advanced, if_neg (by omega), mod_eq_sub hover (by omega), hindex,
          mod_eq_of_lt (by omega)]

theorem putForce_eq : rb.putForce ptr = (min ptr.length rb.bufferSize,
      if rb.status = .full then rb.overwritten (ptr.take rb.bufferSize)
      else rb.appended (ptr.take rb.bufferSize)) := by
  have hmin : (if ptr.length > rb.bufferSize then rb.bufferSize else ptr.length) =
      (ptr.take rb.bufferSize).length := by
    rw [length_take]
    split <;> omega
  have htake : ptr.take (ptr.take rb.bufferSize).length = ptr.take rb.bufferSize :=
    take_eq_take_iff.mpr (by rw [length_take]; omega)
  have hlen : (ptr.take rb.bufferSize).length ≤ rb.bufferSize := length_take_le ..
  unfold putForce
  simp only [hmin, htake, copyIn_eq hi hlen]
  rw [length_take, min_comm]
  split <;> refine congrArg _ ?_ <;> split
  · rw [overwritten, if_pos (by rw [length_take]; omega)]
    rfl
  · rfl
  · rw [overwritten, if_neg (by rw [length_take]; omega)]
    rfl
  · rfl

theorem putchar_eq : rb.putchar ch = rb.put [ch] := by
  rw [put_eq hi, putchar]
  split
  · next hnone => rw [hnone, take_zero, appended_nil hi, Nat.min_zero]
  · next hsome =>
      rw [storeChar_eq hi, take_of_length_le (by rw [length_singleton]; omega),
        length_singleton, min_eq_left (by omega)]

theorem putcharForce_eq : rb.putcharForce ch = rb.putForce [ch] := by
  have hwrite := hi.write_lt
  have htake : [ch].take rb.bufferSize = [ch] := take_of_length_le (by rw [length_singleton]; omega)
  rw [putForce_eq hi, htake, length_singleton, min_eq_left (by omega), putcharForce]
  simp only [storeChar_eq hi]
  split <;> refine congrArg _ ?_ <;> split
  · rw [overwritten, if_neg (by rw [length_singleton]; omega)]
    rfl
  · rfl
  · rw [overwritten, if_pos (by rw [length_singleton]; omega)]
    rfl
  · rfl

theorem getchar_eq : rb.getchar = rb.get 1 := by
  obtain ⟨hsize, hread, -⟩ := id hi
  rw [get_eq hi, getchar]
  split
  · next hnone => rw [hnone, Nat.min_zero, reading_zero, advanced_zero hi]
  · next hsome =>
      rw [min_eq_left (by omega), reading_one, mod_eq_of_lt hread, advanced]
      split
      · next hlast => rw [if_neg (by omega), hlast, mod_self]
      · next hlast =>
          rw [if_pos (by omega), mod_eq_of_lt (by omega : rb.readIndex + 1 < 2 ^ 15),
            mod_eq_of_lt (by omega)]

/-! ## The length of the content -/

theorem writeIndex_appended : (rb.appended ptr).writeIndex =
    (rb.readIndex + (rb.dataLen + ptr.length)) % rb.bufferSize := by
  rw [← add_assoc, add_mod, ← mod_mod (rb.readIndex + rb.dataLen), writeIndex_eq hi,
    ← add_mod]
  rfl

theorem dataLen_appended (hroom : rb.dataLen + ptr.length < rb.bufferSize) :
    (rb.appended ptr).dataLen = rb.dataLen + ptr.length := by
  rcases Nat.eq_zero_or_pos (rb.dataLen + ptr.length) with hzero | hpos
  · obtain rfl : ptr = [] := length_eq_zero_iff.mp (by omega)
    rw [appended_nil hi, length_nil, add_zero]
  · exact dataLen_of_between (hi.appended ptr) (writeIndex_appended hi) hpos hroom

/-- More than there is room for: the writer has passed the reader. -/
theorem dataLen_appended_over (hnot : rb.dataLen < rb.bufferSize)
    (hlen : ptr.length ≤ rb.bufferSize) (hover : rb.bufferSize < rb.dataLen + ptr.length) :
    (rb.appended ptr).dataLen = rb.dataLen + ptr.length - rb.bufferSize := by
  refine dataLen_of_between (hi.appended ptr) ?_ (by omega) ?_
  · have hround : rb.readIndex + (rb.dataLen + ptr.length) =
        rb.readIndex + (rb.dataLen + ptr.length - rb.bufferSize) + rb.bufferSize := by omega
    rw [writeIndex_appended hi, hround, add_mod_right]
    rfl
  · change _ < rb.bufferSize
    omega

/-- Exactly what there is room for: the mirror bits decide. -/
theorem dataLen_appended_eq (hnot : rb.dataLen < rb.bufferSize)
    (hfill : rb.dataLen + ptr.length = rb.bufferSize) :
    (rb.appended ptr).dataLen = if rb.Mirrored then rb.bufferSize else 0 := by
  have hread := hi.read_lt
  have hindex : (rb.appended ptr).writeIndex = rb.readIndex := by
    rw [writeIndex_appended hi, hfill, add_mod_right, mod_eq_of_lt hread]
  have hsame : (rb.appended ptr).dataLen =
      if rb.readMirror = (rb.appended ptr).writeMirror then 0 else rb.bufferSize := by
    rw [dataLen_eq, hindex]
    exact if_pos rfl
  have hmirror : rb.readIndex = rb.writeIndex → rb.readMirror = rb.writeMirror := by
    intro heq
    by_contra hne
    rw [dataLen_eq, if_pos heq, if_neg hne] at hnot
    omega
  -- the writer passes the end of the pool unless the reader is ahead of it
  have hwrap : rb.writeIndex + ptr.length < rb.bufferSize ↔ rb.writeIndex < rb.readIndex := by
    have hlen := rb.dataLen_eq
    split_ifs at hlen <;> omega
  have hiff : rb.readMirror = (rb.appended ptr).writeMirror ↔ ¬rb.Mirrored := by
    unfold Mirrored appended
    simp only [hwrap]
    rcases Nat.lt_or_ge rb.writeIndex rb.readIndex with hlt | hge
    · split_ifs with heq
      · simp [heq, hlt]
      · simp [heq, le_of_lt hlt]
    · rw [if_neg (by omega), Bool.eq_not]
      split_ifs with heq
      · simp [heq, hge]
      · have hne : rb.readIndex ≠ rb.writeIndex := fun h => heq (hmirror h)
        exact iff_of_true heq (by omega)
  rw [hsame]
  simp only [hiff, ite_not]

end

end RingBuffer

end Easyio.Drivers
