import Easyio.Cmux.Delivery

/-!
# The bounds of `cmux_tmp_buf`

While it reads a frame the parser stays inside its buffer, because the index is
at most the length plus 6 and the length is below 1248 (`Bounded`).  A wrong check
sequence breaks this: the parser sets the length to zero and leaves the index
where it is.  If the payload had two bytes or more the index is then behind both
places where the parser looks for the end of a frame, and every further byte is
stored, until a pause of more than a second or beyond the end of the buffer.
-/

namespace Easyio.Cmux

open Crash List Runs

variable {s : State} {b : UInt8} {now : UInt32}

/-- The byte `b`, which comes in time, stands in the place of the check sequence and
is not the one that belongs to the header. -/
def FcsError (s : State) (now : UInt32) (b : UInt8) : Prop :=
  ¬ 1 < now - s.timer ∧ s.index = s.len + 5 ∧ b ≠ s.fcs

instance (s : State) (now : UInt32) (b : UInt8) : Decidable (FcsError s now b) :=
  inferInstanceAs (Decidable (_ ∧ _))

theorem fcsError_expire (h : (s.expire now).index = (s.expire now).len + 5 ∧
    b ≠ (s.expire now).fcs) : FcsError s now b := by
  obtain ⟨hindex, hb⟩ := h
  have hlen : (s.expire now).len = s.len := rfl
  by_cases hlate : 1 < now - s.timer
  · rw [expire_index_of_lt hlate] at hindex
    omega
  · rw [expire_index_of_not hlate] at hindex
    exact ⟨hlate, hindex, hb⟩

/-- The step touches none but the four channels of `private_data`: a command names one of
them, and a frame that ends here belongs to one. -/
def InChannels (s : State) : Action → Prop
  | .parse now b =>
    ¬ 1 < now - s.timer → s.index = s.len + 6 → b = 0xF9 → (s.buf 1 >>> 2).toNat < 4
  | .useAt port | .clear port | .respond port | .ctrl port _ _ => port < 4
  | .send _ | .init => True

instance (s : State) : (action : Action) → Decidable (InChannels s action)
  | .parse _ _ => inferInstanceAs (Decidable (_ → _ → _ → _))
  | .useAt port | .clear port | .respond port | .ctrl port _ _ =>
    inferInstanceAs (Decidable (port < 4))
  | .send _ | .init => inferInstanceAs (Decidable True)

/-- No frame of two bytes or more ends in a wrong check sequence. -/
def NoLongFcsError (s : State) : Action → Prop
  | .parse now b => ¬ (FcsError s now b ∧ 2 ≤ s.len)
  | _ => True

instance (s : State) : (action : Action) → Decidable (NoLongFcsError s action)
  | .parse now b => inferInstanceAs (Decidable (¬ (FcsError s now b ∧ 2 ≤ s.len)))
  | .useAt _ | .clear _ | .respond _ | .send _ | .ctrl _ _ _ | .init =>
    inferInstanceAs (Decidable True)

/-- The index belongs to a header, or to a frame that fits into the buffer. -/
structure Bounded (s : State) : Prop where
  index : s.index ≤ 4 ∨ s.index ≤ s.len + 6 ∧ s.len < 1248
  writes : ∀ i ∈ s.writes, i < 1280

section

variable (h : Bounded s)
include h

theorem Bounded.index_lt : s.index < 1280 := by
  have := h.index
  omega

theorem Bounded.push_writes (b : UInt8) : ∀ i ∈ (s.push b).writes, i < 1280 := by
  intro i hi
  rcases mem_append.mp hi with hold | hnew
  · exact h.writes i hold
  · rw [mem_singleton.mp hnew]
    exact h.index_lt

theorem Bounded.expire : Bounded (s.expire now) := by
  refine ⟨?_, h.writes⟩
  by_cases hlate : 1 < now - s.timer
  · exact Or.inl (by rw [expire_index_of_lt hlate]; omega)
  · rw [expire_index_of_not hlate]
    exact h.index

theorem bounded_accept (hfcs : s.index = s.len + 5 ∧ b ≠ s.fcs → s.len < 2) :
    Bounded (accept s b) := by
  have hbound := h.index
  have hlt := h.index_lt
  have hwrites := h.push_writes b
  have hpush : (s.push b).index = s.index + 1 := push_index b hlt
  have hcases := accept_accepted s b
  generalize accept s b = s' at hcases ⊢
  cases hcases with
  | skip | noFlag => exact ⟨Or.inl (Nat.zero_le 4), h.writes⟩
  | refuse => exact ⟨Or.inl (Nat.zero_le 4), hwrites⟩
  | header => exact ⟨Or.inl (by omega), hwrites⟩
  | low hthree => exact ⟨Or.inl (show (s.push b).index ≤ 4 by omega), hwrites⟩
  | one hthree =>
    have hpushed : Bounded (s.push b) := ⟨Or.inl (by omega), hwrites⟩
    have hfive : ((s.push b).push 0xFF).index = 5 := (push_index 0xFF (by omega)).trans (by omega)
    refine ⟨Or.inr ⟨?_, length_lt_of_one.trans (by decide)⟩, hpushed.push_writes 0xFF⟩
    show ((s.push b).push 0xFF).index ≤ (b >>> 1).toNat + 6
    omega
  | two hfour hroom =>
    refine ⟨Or.inr ⟨?_, hroom⟩, hwrites⟩
    show (s.push b).index ≤ _
    omega
  | fcsError hcheck hb =>
    -- a wrong check sequence behind at most one byte: the index is 5 or 6
    have := hfcs ⟨hcheck, hb⟩
    exact ⟨Or.inr ⟨show s.index ≤ 0 + 6 by omega, show 0 < 1248 by omega⟩, h.writes⟩
  | close hend =>
    obtain ⟨hindex, -, -, -, hmem⟩ :=
      recvVportData_spec (s.buf 1 >>> 2).toNat 5 s.len { s with index := 0 }
    refine ⟨Or.inl (by rw [hindex]; exact Nat.zero_le 4), fun i hi => ?_⟩
    rcases hmem i hi with hold | rfl
    · exact h.writes i hold
    · omega
  | body hge _ hend =>
    refine ⟨Or.inr ⟨?_, show s.len < 1248 by omega⟩, hwrites⟩
    show (s.push b).index ≤ s.len + 6
    omega

theorem bounded_step {action : Action} (hguard : NoLongFcsError s action) :
    Bounded (step s action) := by
  rcases action.parse_or_no_byte with ⟨now, b, rfl⟩ | hnone
  · refine bounded_accept h.expire fun herror => ?_
    have hlen : (s.expire now).len = s.len := rfl
    by_contra hlong
    exact hguard ⟨fcsError_expire herror, by omega⟩
  · obtain ⟨hindex, hlen, -, -, hwrites, -⟩ := step_of_no_byte s hnone
    constructor
    · rw [hindex, hlen]
      exact h.index
    · rw [hwrites]
      exact h.writes

end

theorem bounded_boot : Bounded State.boot := ⟨Or.inl (Nat.zero_le 4), by simp [State.boot]⟩

/-- **The buffer's bounds.**  In every run inside the four channels and without a wrong
check sequence behind two bytes or more, `cmux_tmp_buf` is only written inside. -/
theorem writes_lt {actions : List Action}
    (hmeets : Meets step (fun s a => NoLongFcsError s a ∧ InChannels s a) .boot actions) :
    ∀ i ∈ (run .boot actions).writes, i < 1280 := by
  have hstep : ∀ s a, Bounded s → NoLongFcsError s a ∧ InChannels s a → Bounded (step s a) :=
    fun _ _ h hguard => bounded_step h hguard.1
  exact (hmeets.invariant hstep bounded_boot).writes

/-- A run with a frame of two bytes and one whose wrong check sequence does no harm. -/
theorem writes_lt_two_frames :
    let actions := ((makeCmuxPkg [0x4F, 0x4B] 2) ++ [0xF9, 0x05, 0xEF, 0x03, 0x41, 0x00, 0xF9]).map
      fun b => Action.parse 0 b
    Meets step (fun s a => NoLongFcsError s a ∧ InChannels s a) .boot actions ∧
      ∀ i ∈ (run .boot actions).writes, i < 1280 := by
  intro actions
  have hmeets : Meets step (fun s a => NoLongFcsError s a ∧ InChannels s a) .boot actions := by
    decide +kernel
  exact ⟨hmeets, writes_lt hmeets⟩

theorem lost_push (hindex : 7 ≤ s.index) (hlen : s.len = 0) :
    parserCmuxPkg s s.timer b = s.push b := by
  have hzero : s.timer - s.timer = 0 := UInt32.sub_self s.timer
  have hsame : s.expire s.timer = s := by
    unfold State.expire
    rw [hzero, if_neg (by decide)]
  rw [parserCmuxPkg, hsame, accept_of_ge (by omega), if_neg (by omega), if_neg (by omega)]

/-- Behind the end of a frame that was given up the parser stores what comes, here
`n` bytes and one more. -/
theorem mem_writes_of_lost (n : ℕ) (hindex : 7 ≤ s.index) (hlen : s.len = 0)
    (hn : s.index + n = 1280) :
    1280 ∈ (feed s (replicate (n + 1) (s.timer, b))).writes := by
  induction n generalizing s with
  | zero =>
    have hstep := lost_push (b := b) hindex hlen
    rw [replicate_one, feed_cons, hstep]
    show 1280 ∈ s.writes ++ [s.index]
    simp_all
  | succ n ih =>
    have hstep := lost_push (b := b) hindex hlen
    have hnext : (s.push b).index = s.index + 1 := push_index b (by omega)
    rw [replicate_succ, feed_cons, hstep]
    exact ih (by omega) hlen (by omega)

/-- A frame of two bytes with a wrong check sequence, and bytes that keep coming: the
last of them is stored behind the buffer. -/
theorem write_behind_buffer :
    ∃ i ∈ (feed .boot ([0xF9, 0x05, 0xEF, 0x05, 0x41, 0x42, 0x00].map (fun b => (0, b)) ++
      List.replicate 1274 (0, 0x55))).writes, ¬ i < 1280 := by
  refine ⟨1280, ?_, by decide⟩
  rw [feed_append]
  exact mem_writes_of_lost 1273 (by decide +kernel) (by decide +kernel) (by decide +kernel)

end Easyio.Cmux
