import Easyio.Cmux.Delivery

/-!
# From `make_cmux_pkg` to `recv_vport_data`

The two functions write and read the length of a frame differently: of a length
`n`, `make_cmux_pkg` sends `n % 128` and `n / 128`, and the parser takes the second
for a multiple of 256.  Below 128 the second byte is zero and a frame that is sent
is received.  From 128 on the parser expects a payload that is at least 128 bytes
longer than what comes.  It then either waits for the missing bytes, or refuses
the length and takes the payload for frames of its own, all of which are shorter
(`feed_calls_short`).
-/

namespace Easyio.Cmux

open List Nat

variable {s : State} {k channel : ℕ} {now : UInt32} {stream : List (UInt32 × UInt8)}
  {p : List UInt8}

/-! ## Calls are short -/

/-- The index grows by one with each byte, or by two behind a single length byte. -/
theorem accept_index_le (s : State) (b : UInt8) :
    (accept s b).index ≤ s.index + 1 ∨ s.index = 3 ∧ (accept s b).index = 5 := by
  have hpush : (s.push b).index ≤ s.index + 1 := mod_le ..
  have hcases := accept_accepted s b
  generalize accept s b = s' at hcases ⊢
  cases hcases with
  | one hthree _ =>
    have hfour : (s.push b).index = 4 := (push_index b (by omega)).trans (by rw [hthree])
    exact Or.inr ⟨hthree, (push_index 0xFF (by omega)).trans (by rw [hfour])⟩
  | close => exact Or.inl (by rw [(recvVportData_spec _ _ _ _).1]; exact zero_le _)
  | skip | refuse | noFlag => exact Or.inl (zero_le _)
  | header | low | two | body => exact Or.inl hpush
  | fcsError => exact Or.inl (le_succ _)

/-- The index is at most what `k` bytes can have made it. -/
def Within (k : ℕ) (s : State) : Prop := s.index ≤ k + 1 ∧ (s.index ≤ 4 → s.index ≤ k)

theorem Within.expire (h : Within k s) : Within k (s.expire now) := by
  unfold Within State.expire at *
  split <;> simp_all

theorem Within.accept (h : Within k s) (b : UInt8) : Within (k + 1) (accept s b) := by
  obtain ⟨hle, hhead⟩ := h
  rcases accept_index_le s b with hstep | ⟨hthree, hfive⟩
  · constructor <;> omega
  · constructor <;> omega

theorem feed_calls_short (h : Within k s) (stream : List (UInt32 × UInt8)) :
    ∃ new, (feed s stream).calls = s.calls ++ new ∧
      ∀ call ∈ new, call.2.length + 6 ≤ k + stream.length := by
  induction stream generalizing s k with
  | nil => exact ⟨[], (append_nil _).symm, by simp⟩
  | cons arrival rest ih =>
    obtain ⟨now, b⟩ := arrival
    obtain ⟨later, hlater, hshort⟩ := ih (h.expire.accept b)
    refine ⟨delivery (s.expire now) b ++ later, ?_, ?_⟩
    · rw [feed_cons, parserCmuxPkg, hlater, (accept_spec _ b).2, expire_calls, append_assoc]
    · intro call hcall
      rw [length_cons]
      rcases mem_append.mp hcall with hnow | hlate
      · have hwithin : (s.expire now).index ≤ k + 1 := h.expire.1
        unfold delivery at hnow
        split at hnow
        · rw [mem_singleton.mp hnow, Nor.length_window]
          omega
        · simp at hnow
      · have := hshort call hlate
        omega

/-! ## The round trip -/

/-- Each byte of `stream` comes at most a second after the one before it. -/
def Paced : List (UInt32 × UInt8) → Prop
  | [] => True
  | (now, _) :: rest => Timely now rest

instance : (stream : List (UInt32 × UInt8)) → Decidable (Paced stream)
  | [] => inferInstanceAs (Decidable True)
  | (now, _) :: rest => inferInstanceAs (Decidable (Timely now rest))

/-- `stream` makes the parser deliver `payload` on `channel`, and nothing else, and
leaves it waiting for a flag. -/
def Delivers (s : State) (stream : List (UInt32 × UInt8)) (channel : ℕ) (payload : List UInt8) :
    Prop :=
  (feed s stream).calls = s.calls ++ [(channel, payload)] ∧ (feed s stream).index = 0

/-- The length the parser reads in a frame that was sent for `len` bytes. -/
def readLength (len : ℕ) : ℕ := len / 128 * 256 + len % 128

theorem port_addressOf (h : channel = 1 ∨ channel = 2) :
    (addressOf channel >>> 2).toNat = channel := by
  rcases h with rfl | rfl <;> decide

theorem lengthField_headerOf {len : ℕ} (channel : ℕ) (h : len < 1248) :
    LengthField ((headerOf len channel).drop 2) (readLength len) := by
  have hfield := @LengthField.two _ (UInt8.ofNat ((32640 &&& len) >>> 7)) (lowByte_even len)
  rw [lowByte_toNat, highByte_toNat, mod_eq_of_lt (show len / 128 < 256 by omega)] at hfield
  exact hfield

theorem feed_refused {a lo hi : UInt8} (hindex : s.index = 0) (htimely : Timely s.timer stream)
    (hbytes : stream.map Prod.snd = [0xF9, a, 0xEF, lo, hi]) (hlo : lo &&& 1 = 0)
    (hlarge : 1248 ≤ hi.toNat * 256 + (lo >>> 1).toNat) :
    (feed s stream).index = 0 ∧ (feed s stream).calls = s.calls := by
  obtain ⟨start, field, rfl, hstart, hfield⟩ := map_eq_append_iff.mp
    (hbytes.trans (append_assoc [0xF9, a, 0xEF] [] [lo, hi]).symm)
  obtain ⟨hfirst, hsecond⟩ := timely_append.mp htimely
  obtain ⟨hheader, hcalls⟩ := feed_start hindex hfirst hstart
  simp only [map_eq_cons_iff, map_eq_nil_iff] at hfield
  obtain ⟨⟨t, lo⟩, _, rfl, rfl, ⟨t', hi⟩, _, rfl, rfl, rfl⟩ := hfield
  obtain ⟨hnow, hnow', -⟩ := hsecond
  obtain ⟨hlow, hlen⟩ := (hheader.expire hnow).low hlo
  rw [← parserCmuxPkg_timer (feed s start) t lo] at hnow'
  rw [feed_append, ← hcalls]
  constructor
  · have hvalue : (hi.toNat * 256 + (lo >>> 1).toNat) % 2 ^ 16 =
        hi.toNat * 256 + (lo >>> 1).toNat := by
      have := hi.toNat_lt
      have := length_lt_of_one (b := lo)
      omega
    have hfour := accept_four (b := hi) (hlow.expire hnow').index
    rw [show ((accept ((feed s start).expire t) lo).expire t').len = (lo >>> 1).toNat from hlen,
      hvalue, if_pos hlarge] at hfour
    exact congrArg State.index hfour
  · calc (feed (feed s start) [(t, lo), (t', hi)]).calls
        = (parserCmuxPkg (feed s start) t lo).calls :=
          parserCmuxPkg_calls_of_lt (hlow.index_lt (by simp))
      _ = (feed s start).calls := parserCmuxPkg_calls_of_lt (hheader.index_lt (by simp))

theorem not_delivers_of_long (hindex : s.index = 0) (htimely : Timely s.timer stream)
    (hbytes : stream.map Prod.snd = makeCmuxPkg p channel) (hlong : 128 ≤ p.length)
    (hlen : p.length < 1248) : ¬ Delivers s stream channel p := by
  rintro ⟨hcalls, hidle⟩
  obtain ⟨head, rest, rfl, hhead, hrest⟩ := map_eq_append_iff.mp
    (hbytes.trans (append_assoc (0xF9 :: headerOf p.length channel) p _))
  obtain ⟨hearly, hlate⟩ := timely_append.mp htimely
  have hrestlen : rest.length = p.length + 2 := by
    rw [← length_map, hrest, length_append]
    rfl
  rw [feed_append] at hcalls hidle
  rcases lt_or_ge (readLength p.length) 1248 with hsmall | hlarge
  · -- the parser takes the whole frame for the beginning of the payload
    obtain ⟨hframe, -⟩ := feed_header hindex hearly hhead (lengthField_headerOf channel hlen) hsmall
    have hvalue := hframe.length.unique (lengthField_headerOf channel hlen)
    have hread : p.length + 2 ≤ readLength p.length := by
      unfold readLength
      omega
    obtain ⟨hin, -⟩ := hframe.feed hlate (by rw [hvalue, hrestlen, length_nil]; omega)
    have := hin.index
    omega
  · -- the parser starts again, with too few bytes to come
    obtain ⟨hagain, hquiet⟩ := feed_refused hindex hearly hhead (lowByte_even p.length)
      (by rwa [lowByte_toNat, highByte_toNat, mod_eq_of_lt (show p.length / 128 < 256 by omega)])
    have hwithin : Within 0 (feed s head) := ⟨by omega, by omega⟩
    obtain ⟨new, hnew, hshort⟩ := feed_calls_short hwithin rest
    rw [hnew, hquiet] at hcalls
    have hmem : (channel, p) ∈ new := by
      rw [append_cancel_left hcalls]
      exact mem_singleton_self _
    have hcall : p.length + 6 ≤ 0 + rest.length := hshort _ hmem
    omega

/-- Where the parser waits for a flag, the time of the first byte does not matter. -/
theorem delivers_resume {b : UInt8} {rest : List (UInt32 × UInt8)} (hindex : s.index = 0) :
    Delivers s ((now, b) :: rest) channel p ↔
      Delivers (s.resume now) ((now, b) :: rest) channel p := by
  have hexpire : (s.expire now).index = 0 := by
    unfold State.expire
    simp [hindex]
  have hcalls : (s.resume now).calls = s.calls := rfl
  unfold Delivers
  rw [feed_cons, feed_cons, parserCmuxPkg_resume b hexpire, hcalls]

/-- **The round trip.**  What `make_cmux_pkg` sends for a payload that fits into the
parser's buffer is received exactly if the payload has less than 128 bytes. -/
theorem delivers_makeCmuxPkg_iff {channel : ℕ} {p : List UInt8} {stream : List (UInt32 × UInt8)}
    (hchannel : channel = 1 ∨ channel = 2) (hlen : p.length < 1248) (hindex : s.index = 0)
    (hpaced : Paced stream) (hbytes : stream.map Prod.snd = makeCmuxPkg p channel) :
    Delivers s stream channel p ↔ p.length < 128 := by
  cases stream with
  | nil => simp [makeCmuxPkg] at hbytes
  | cons arrival rest =>
    obtain ⟨now, b⟩ := arrival
    have htimely : Timely (s.resume now).timer ((now, b) :: rest) := timely_resume hpaced
    rw [delivers_resume hindex]
    constructor
    · intro hdelivers
      by_contra hlong
      exact not_delivers_of_long rfl htimely hbytes (by omega) hlen hdelivers
    · intro hshort
      rw [← bytes_toFrame p channel hshort] at hbytes
      obtain ⟨hidle, hcalls⟩ := feed_frame (toFrame p channel hshort) hlen rfl htimely hbytes
      rw [show (toFrame p channel hshort).port = channel from port_addressOf hchannel] at hcalls
      exact ⟨hcalls, hidle⟩

/-- A payload of two flags, sent on channel 1. -/
theorem delivers_makeCmuxPkg_iff_flags :
    let stream := (makeCmuxPkg [0xF9, 0xF9] 1).map fun b => ((0 : UInt32), b)
    Paced stream ∧ (Delivers .boot stream 1 [0xF9, 0xF9] ↔ [0xF9, 0xF9].length < 128) := by
  have hpaced : Paced ((makeCmuxPkg [0xF9, 0xF9] 1).map fun b => ((0 : UInt32), b)) := by
    decide +kernel
  refine ⟨hpaced, ?_⟩
  refine delivers_makeCmuxPkg_iff (Or.inl rfl) (by decide) rfl hpaced ?_
  simp [Function.comp_def]

/-- 128 bytes sent on channel 1 are not received: the parser reads the length 256 and
waits. -/
theorem payload_lost_at_128 :
    ¬ Delivers .boot ((makeCmuxPkg (List.replicate 128 0x41) 1).map fun b => ((0 : UInt32), b)) 1
      (List.replicate 128 0x41) := by
  refine not_delivers_of_long rfl ?_ ?_ (by simp) (by simp)
  · decide +kernel
  · simp [Function.comp_def]

end Easyio.Cmux
