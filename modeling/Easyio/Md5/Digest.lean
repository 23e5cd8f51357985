import Easyio.Md5.Model

/-!
# The digest of a message

However a message is cut into calls of `md5_append`, the digest is a function of
the message: `md5Finish_of_absorbed`.  The invariant `Absorbed msg st` says that
`st` has taken in exactly the bytes of `msg`: whole blocks have gone through
`md5_process`, and the rest is at the start of `buf`.
-/

namespace Easyio.Md5

open Bytes Nat Nor UInt32

/-- The registers after the first `n` blocks of `data`. -/
def absorb : ℕ → Words → List UInt8 → Words
  | 0, w, _ => w
  | n + 1, w, data => absorb n (md5Process w (data.take 64)) (data.drop 64)

theorem absorb_append {m : ℕ} {first : List UInt8} (w : Words) (n : ℕ) (second : List UInt8)
    (hfirst : first.length = m * 64) :
    absorb (m + n) w (first ++ second) = absorb n (absorb m w first) second := by
  induction m generalizing w first with
  | zero =>
    obtain rfl : first = [] := List.eq_nil_of_length_eq_zero (by omega)
    rw [zero_add, List.nil_append, absorb]
  | succ m ih =>
    have hrest : (first.drop 64).length = m * 64 := by
      rw [List.length_drop]
      omega
    calc absorb (m + 1 + n) w (first ++ second)
          = absorb (m + n) (md5Process w (first.take 64)) (first.drop 64 ++ second) := by
            rw [Nat.add_right_comm, absorb, List.take_append_of_le_length (by omega),
              List.drop_append_of_le_length (by omega)]
      _ = absorb n (absorb m (md5Process w (first.take 64)) (first.drop 64)) second := ih _ hrest
      _ = absorb n (absorb (m + 1) w first) second := by rw [absorb]

variable {full msg : List UInt8} {n : ℕ} {st : State}

section

open List

theorem absorb_snoc {block : List UInt8} (w : Words) (hfull : full.length % 64 = 0)
    (hblock : block.length = 64) :
    absorb ((full ++ block).length / 64) w (full ++ block) =
      md5Process (absorb (full.length / 64) w full) block := by
  have hcount : (full ++ block).length / 64 = full.length / 64 + 1 := by
    rw [length_append]
    omega
  rw [hcount, absorb_append _ _ _ (by omega), absorb, absorb, take_of_length_le hblock.le]

theorem absorb_take (w : Words) (data : List UInt8) :
    absorb n w (data.take (n * 64)) = absorb n w data := by
  induction n generalizing w data with
  | zero => rfl
  | succ n ih =>
    have hdrop : (data.take ((n + 1) * 64)).drop 64 = (data.drop 64).take (n * 64) := by
      rw [drop_take]
      congr 1
      omega
    rw [absorb, absorb, take_take, min_eq_left (by omega), hdrop, ih]

theorem fullBlocks_eq {fuel : ℕ} (w : Words) (data : List UInt8) (hfuel : data.length ≤ fuel) :
    fullBlocks fuel w data =
      (absorb (data.length / 64) w data, data.drop (data.length / 64 * 64)) := by
  induction fuel generalizing w data with
  | zero =>
    obtain rfl : data = [] := eq_nil_of_length_eq_zero (by omega)
    rfl
  | succ fuel ih =>
    rw [fullBlocks]
    split
    · next hlong =>
        have hcount : data.length / 64 = (data.length - 64) / 64 + 1 := by omega
        rw [ih _ _ (by rw [length_drop]; omega), length_drop, hcount, absorb,
          drop_drop]
        congr 2
        omega
    · next hshort =>
        have hcount : data.length / 64 = 0 := by omega
        rw [hcount, absorb, drop_zero]

/-! ## What a state has taken in -/

/-- The registers and the buffer after `msg`. -/
def Blocks (msg : List UInt8) (w : Words) (buf : Cells) : Prop :=
  ∃ full tail, msg = full ++ tail ∧ full.length % 64 = 0 ∧ tail.length < 64 ∧
    w = absorb (full.length / 64) initWords full ∧ window buf 0 tail.length = tail

/-- The two halves of the bit count of `n` bytes. -/
def count0Of (n : ℕ) : UInt32 := .ofNat (n * 8)

@[inherit_doc count0Of]
def count1Of (n : ℕ) : UInt32 := .ofNat (n * 8 / 2 ^ 32)

/-- A state that has taken in the bytes of `msg`. -/
structure Absorbed (msg : List UInt8) (st : State) : Prop where
  count0_eq : st.count0 = count0Of msg.length
  count1_eq : st.count1 = count1Of msg.length
  blocks : Blocks msg st.abcd st.buf

theorem absorbed_init (st : State) : Absorbed [] (md5Init st) :=
  ⟨rfl, rfl, [], [], rfl, rfl, by decide, rfl, rfl⟩

theorem offset_eq (n : ℕ) : ((count0Of n >>> 3) &&& 63).toNat = n % 64 := by
  have hmask : ∀ x : ℕ, x &&& 63 = x % 64 := fun x => and_two_pow_sub_one_eq_mod x 6
  simp [count0Of, hmask]
  omega

theorem addLength_eq (h0 : st.count0 = count0Of n) (h1 : st.count1 = count1Of n) (k : ℕ) :
    (addLength st k).count0 = count0Of (n + k) ∧ (addLength st k).count1 = count1Of (n + k) := by
  have hlow : st.count0 + ofNat (k * 8) = count0Of (n + k) := by
    rw [h0, count0Of, count0Of, ← ofNat_add, Nat.add_mul]
  refine ⟨hlow, ?_⟩
  have hcarry : count0Of (n + k) < ofNat (k * 8) ↔
      2 ^ 32 ≤ n * 8 % 2 ^ 32 + k * 8 % 2 ^ 32 := by
    rw [lt_iff_toNat_lt, count0Of, toNat_ofNat', toNat_ofNat']
    omega
  simp only [addLength, hlow, h1, hcarry]
  split
  · rw [count1Of, ← ofNat_add, show (1 : UInt32) = ofNat 1 from rfl, ←
      ofNat_add]
    congr 1
    omega
  · rw [count1Of, ← ofNat_add]
    congr 1
    omega

theorem blocks_appendBlocks (hfull : full.length % 64 = 0)
    (habcd : st.abcd = absorb (full.length / 64) initWords full) (data : List UInt8) :
    Blocks (full ++ data) (appendBlocks st data).abcd (appendBlocks st data).buf := by
  set k := data.length / 64
  have htake : (data.take (k * 64)).length = k * 64 := by
    rw [length_take]
    omega
  have hdone := fullBlocks_eq st.abcd data le_rfl
  refine ⟨full ++ data.take (k * 64), data.drop (k * 64), ?_, ?_, ?_, ?_, ?_⟩
  · rw [append_assoc, take_append_drop]
  · rw [length_append]
    omega
  · rw [length_drop]
    omega
  · have hcount : (full ++ data.take (k * 64)).length / 64 = full.length / 64 + k := by
      rw [length_append]
      omega
    simp only [appendBlocks, hdone]
    rw [hcount, absorb_append _ _ _ (by omega), absorb_take, habcd]
  · simp only [appendBlocks, hdone]
    exact window_overwrite _ _ _

theorem window_overwrite_tail {buf : Cells} {tail : List UInt8}
    (h : window buf 0 tail.length = tail) (data : List UInt8) :
    window (overwrite buf tail.length data) 0 (tail.length + data.length) =
      tail ++ data := by
  rw [window_add, zero_add, window_overwrite]
  congr 1
  conv_rhs => rw [← h]
  exact window_congr fun i hi => overwrite_apply_of_lt _ (by omega)

/-- **A call of `md5_append` takes in its data.** -/
theorem Absorbed.append (h : Absorbed msg st) (data : List UInt8) :
    Absorbed (msg ++ data) (md5Append st data) := by
  obtain ⟨full, tail, hmsg, hfull, htail, habcd, hbuf⟩ := h.blocks
  obtain ⟨hcount0, hcount1⟩ := addLength_eq h.count0_eq h.count1_eq data.length
  rw [← length_append] at hcount0 hcount1
  have hoffset : ((st.count0 >>> 3) &&& 63).toNat = tail.length := by
    rw [h.count0_eq, offset_eq, hmsg, length_append]
    omega
  have hassoc : msg ++ data = full ++ (tail ++ data) := by rw [hmsg, append_assoc]
  rw [md5Append]
  simp only [hoffset]
  split
  · next hnil =>
      rw [hnil, append_nil]
      exact h
  split
  · next hempty =>
      -- the buffer is empty
      obtain rfl := eq_nil_of_length_eq_zero hempty
      refine ⟨hcount0, hcount1, ?_⟩
      rw [hassoc]
      exact blocks_appendBlocks hfull habcd data
  · next hpos =>
      by_cases hshort : tail.length + data.length < 64
      · -- the data fits into the buffer
        rw [if_neg (show ¬ 64 < tail.length + data.length by omega), if_pos hshort,
          take_length]
        refine ⟨hcount0, hcount1, full, tail ++ data, hassoc, hfull, ?_, habcd, ?_⟩
        · rw [length_append]
          exact hshort
        · rw [length_append]
          exact window_overwrite_tail hbuf data
      · -- the first bytes of the data complete a block
        have hcopy : (if 64 < tail.length + data.length then 64 - tail.length else data.length) =
            64 - tail.length := by
          split <;> omega
        rw [hcopy, if_neg (by omega)]
        have hlen : (data.take (64 - tail.length)).length = 64 - tail.length := by
          rw [length_take]
          omega
        have hblock := window_overwrite_tail hbuf (data.take (64 - tail.length))
        rw [hlen, show tail.length + (64 - tail.length) = 64 by omega] at hblock
        have hsplit : full ++ (tail ++ data) =
            full ++ (tail ++ data.take (64 - tail.length)) ++ data.drop (64 - tail.length) := by
          rw [append_assoc, append_assoc, take_append_drop]
        have hone : (tail ++ data.take (64 - tail.length)).length = 64 := by
          rw [length_append]
          omega
        refine ⟨hcount0, hcount1, ?_⟩
        rw [hassoc, hsplit]
        refine blocks_appendBlocks ?_ ?_ _
        · rw [length_append]
          omega
        · rw [absorb_snoc _ hfull hone, ← habcd]
          exact congrArg (md5Process st.abcd) hblock

end

/-! ## The digest -/

/-- The MD5 digest of `msg`. -/
def md5Digest (msg : List UInt8) : Vector UInt8 16 :=
  let padded := msg ++ padBytes (count0Of msg.length) ++
    lengthBytes (count0Of msg.length) (count1Of msg.length)
  digestOf (absorb (padded.length / 64) initWords padded)

/-- **The digest depends on the message alone.** -/
theorem md5Finish_of_absorbed (h : Absorbed msg st) : (md5Finish st).2 = md5Digest msg := by
  have hend := (h.append (padBytes st.count0)).append (lengthBytes st.count0 st.count1)
  obtain ⟨full, tail, hmsg, hfull, htail, habcd, -⟩ := hend.blocks
  rw [h.count0_eq, h.count1_eq] at hmsg
  simp only [md5Finish, md5Digest]
  rw [habcd, hmsg, ← absorb_take _ (full ++ tail)]
  congr 2
  · rw [List.length_append]
    omega
  · rw [List.length_append, show (full.length + tail.length) / 64 * 64 = full.length by omega,
      List.take_left]

/-- **A message may be cut into calls of `md5_append` in any way.** -/
theorem md5Finish_of_chunks (st : State) (chunks : List (List UInt8)) :
    (md5Finish (chunks.foldl md5Append (md5Init st))).2 = md5Digest chunks.flatten := by
  have habsorbed : ∀ {msg st}, Absorbed msg st →
      Absorbed (msg ++ chunks.flatten) (chunks.foldl md5Append st) := by
    induction chunks with
    | nil => exact fun h => by simpa using h
    | cons chunk chunks ih => exact fun h => by simpa using ih (h.append chunk)
  exact md5Finish_of_absorbed (habsorbed (absorbed_init st))

example : (md5Digest []).toList = [0xd4, 0x1d, 0x8c, 0xd9, 0x8f, 0x00, 0xb2, 0x04, 0xe9, 0x80, 0x09,
    0x98, 0xec, 0xf8, 0x42, 0x7e] := by
  decide +kernel

end Easyio.Md5
