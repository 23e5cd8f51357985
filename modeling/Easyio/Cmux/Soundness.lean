import Easyio.Cmux.Bounds

/-!
# What is delivered was received

`Tracking got s` relates the parser to the bytes `got` received so far: it waits
for a flag, or the last bytes of `got` are the part of a frame it has read, or it
has given up a frame and is storing bytes until the next pause.  A call of
`recv_vport_data` is then caused by a whole frame that ends with the last byte
(`Tracking.delivered`).

A wrong check sequence leads out of this relation if the payload it follows has at
most one byte.  Behind one byte, the parser sets the length to zero and the next
flag closes the frame, which is delivered without its byte.  Behind no byte, the
parser goes on to wait for the right check sequence.
-/

namespace Easyio.Cmux

open List Crash Runs

variable {s : State} {b : UInt8} {got : List UInt8}

/-- How the parser stands to the bytes received so far. -/
inductive Tracking (got : List UInt8) (s : State) : Prop
  | idle : s.index = 0 → Tracking got s
  | flag : InHeader s [] → [0xF9] <:+ got → Tracking got s
  | address {a : UInt8} : InHeader s [a] → [0xF9, a] <:+ got → Tracking got s
  | control {a : UInt8} : InHeader s [a, 0xEF] → [0xF9, a, 0xEF] <:+ got → Tracking got s
  | low {a lo : UInt8} : InHeader s [a, 0xEF, lo] → lo &&& 1 = 0 → s.len = (lo >>> 1).toNat →
      [0xF9, a, 0xEF, lo] <:+ got → Tracking got s
  | body {a : UInt8} {field data : List UInt8} : InFrame s a field data → data.length ≤ s.len →
      0xF9 :: a :: 0xEF :: field ++ data <:+ got → Tracking got s
  | check {a : UInt8} {field data : List UInt8} :
      InFrame s a field (data ++ [makeFcs (a :: 0xEF :: field)]) → data.length = s.len →
      0xF9 :: a :: 0xEF :: field ++ data ++ [makeFcs (a :: 0xEF :: field)] <:+ got →
      Tracking got s
  | lost : 7 ≤ s.index → s.len = 0 → Tracking got s

theorem suffix_snoc {last : List UInt8} (h : last <:+ got) (b : UInt8) :
    last ++ [b] <:+ got ++ [b] := by
  obtain ⟨front, rfl⟩ := h
  exact ⟨front, (append_assoc ..).symm⟩

/-- Every call in `new` is one for a frame at the end of `got`. -/
def CausedBy (got : List UInt8) (new : List (ℕ × List UInt8)) : Prop :=
  ∀ call ∈ new, ∃ f : Frame, f.bytes <:+ got ∧ (f.port, f.data) = call

theorem causedBy_nil (got : List UInt8) : CausedBy got [] := by
  simp [CausedBy]

theorem Tracking.congr {s' : State} (h : Tracking got s) (hindex : s'.index = s.index)
    (hlen : s'.len = s.len) (hbuf : s'.buf = s.buf) : Tracking got s' := by
  cases s
  cases s'
  cases hindex
  cases hlen
  cases hbuf
  cases h with
  | idle h => exact .idle h
  | flag h hgot => exact .flag ⟨h.index, h.got⟩ hgot
  | address h hgot => exact .address ⟨h.index, h.got⟩ hgot
  | control h hgot => exact .control ⟨h.index, h.got⟩ hgot
  | low h heven hlen hgot => exact .low ⟨h.index, h.got⟩ heven hlen hgot
  | body h hdata hgot =>
    exact .body ⟨h.index, h.length, h.room, h.address, h.fcs, h.tail⟩ hdata hgot
  | check h hdata hgot =>
    exact .check ⟨h.index, h.length, h.room, h.address, h.fcs, h.tail⟩ hdata hgot
  | lost h hlen => exact .lost h hlen

theorem Tracking.expire {now : UInt32} (h : Tracking got s) : Tracking got (s.expire now) := by
  by_cases hlate : 1 < now - s.timer
  · exact .idle (expire_index_of_lt hlate)
  · exact h.congr (expire_index_of_not hlate) rfl rfl

/-- A call is caused by a frame at the end of what was received. -/
theorem Tracking.delivered (h : Tracking got s) (b : UInt8) :
    CausedBy (got ++ [b]) (delivery s b) := by
  by_cases hclose : s.index = s.len + 6 ∧ b = 0xF9
  · cases h with
    | check hframe hdata hgot =>
      rw [hclose.2, hframe.delivery_close hdata]
      intro call hcall
      refine ⟨⟨_, _, _, hdata ▸ hframe.length⟩, ?_, (mem_singleton.mp hcall).symm⟩
      have hsuffix := suffix_snoc hgot 0xF9
      rwa [append_assoc _ [_] [_]] at hsuffix
    | idle hindex => omega
    | flag hheader | address hheader | control hheader | low hheader =>
      exact absurd (hheader.index_lt (by simp)) (by omega)
    | body hframe hdata =>
      have := hframe.index
      omega
    | lost hindex hlen => omega
  · rw [delivery, if_neg hclose]
    exact causedBy_nil _

/-- A byte behind the header: data, or a check sequence that is right or comes behind two
bytes at least. -/
theorem tracking_body {a : UInt8} {field data : List UInt8} (hframe : InFrame s a field data)
    (hdata : data.length ≤ s.len) (hgot : 0xF9 :: a :: 0xEF :: field ++ data <:+ got)
    (hfcs : s.index = s.len + 5 ∧ b ≠ s.fcs → 2 ≤ s.len) :
    Tracking (got ++ [b]) (accept s b) := by
  have hindex := hframe.index
  by_cases hcheck : data.length = s.len ∧ b ≠ s.fcs
  · -- the frame is given up, with the index behind the places where one ends
    have hlong := hfcs ⟨by omega, hcheck.2⟩
    rw [accept_of_ge (by omega), if_pos ⟨by omega, hcheck.2⟩]
    exact .lost (show 7 ≤ s.index by omega) rfl
  · have hb : data.length = s.len → b = makeFcs (a :: 0xEF :: field) := fun hend => by
      rw [← hframe.fcs]
      exact by_contra fun hne => hcheck ⟨hend, hne⟩
    have hpush := hframe.push hdata b
    have hsuffix := suffix_snoc hgot b
    rw [hframe.accept_push hdata hb]
    by_cases hend : data.length = s.len
    · rw [hb hend] at hpush hsuffix ⊢
      exact .check hpush hend hsuffix
    · rw [append_assoc] at hsuffix
      refine .body hpush ?_ hsuffix
      show (data ++ [b]).length ≤ s.len
      rw [length_append, length_singleton]
      omega

/-- One byte, which is not a wrong check sequence behind at most one byte. -/
theorem tracking_accept (h : Tracking got s) (hinside : s.index < 1280)
    (hfcs : s.index = s.len + 5 ∧ b ≠ s.fcs → 2 ≤ s.len) : Tracking (got ++ [b]) (accept s b) := by
  cases h with
  | idle hindex =>
    by_cases hb : b = 0xF9
    · subst hb
      exact .flag (inHeader_flag hindex) (suffix_append ..)
    · exact .idle (by rw [accept_zero hindex, if_neg hb])
  | flag hheader hgot => exact .address (hheader.address b) (suffix_snoc hgot b)
  | address hheader hgot =>
    by_cases hb : b = 0xEF
    · subst hb
      exact .control hheader.control (suffix_snoc hgot 0xEF)
    · exact .idle (by rw [accept_two hheader.index, if_neg hb])
  | control hheader hgot =>
    by_cases hb : b &&& 1 = 0
    · exact .low (hheader.low hb).1 hb (hheader.low hb).2 (suffix_snoc hgot b)
    · exact .body (hheader.one hb) (Nat.zero_le _) (by simpa using suffix_snoc hgot b)
  | @low a lo hheader heven hlen hgot =>
    by_cases hroom : b.toNat * 256 + (lo >>> 1).toNat < 1248
    · exact .body (hheader.two heven hlen hroom) (Nat.zero_le _)
        (by simpa using suffix_snoc hgot b)
    · refine .idle ?_
      have := b.toNat_lt
      have := length_lt_of_one (b := lo)
      rw [accept_four hheader.index, if_pos (by omega)]
  | body hframe hdata hgot => exact tracking_body hframe hdata hgot hfcs
  | check hframe hdata _ => exact .idle (hframe.accept_close hdata b)
  | lost hindex hlen =>
    rw [accept_of_ge (by omega), if_neg (by omega), if_neg (by omega)]
    refine .lost ?_ hlen
    rw [push_index b hinside]
    omega

/-! ## Runs -/

/-- No frame of at most one byte ends in a wrong check sequence, and the parser has not
left its buffer. -/
def NoShortFcsError (s : State) : Action → Prop
  | .parse now b => ¬ (FcsError s now b ∧ s.len < 2) ∧ s.index < 1280
  | _ => True

instance (s : State) : (action : Action) → Decidable (NoShortFcsError s action)
  | .parse now b => inferInstanceAs (Decidable (¬ (FcsError s now b ∧ s.len < 2) ∧ s.index < 1280))
  | .useAt _ | .clear _ | .respond _ | .send _ | .ctrl _ _ _ | .init =>
    inferInstanceAs (Decidable True)

theorem tracking_step (h : Tracking got s) {action : Action} (hguard : NoShortFcsError s action) :
    Tracking (got ++ received [action]) (step s action) ∧
      ∃ new, (step s action).calls = s.calls ++ new ∧ CausedBy (got ++ received [action]) new := by
  rcases action.parse_or_no_byte with ⟨now, b, rfl⟩ | hnone
  · refine ⟨tracking_accept h.expire ?_ fun herror => ?_, delivery (s.expire now) b,
      parserCmuxPkg_calls s now b, h.expire.delivered b⟩
    · exact Nat.lt_of_le_of_lt (expire_index_le s now) hguard.2
    · by_contra hshort
      exact hguard.1 ⟨fcsError_expire herror, Nat.lt_of_not_le hshort⟩
  · obtain ⟨hindex, hlen, -, hbuf, -, hcalls⟩ := step_of_no_byte s hnone
    have hbytes : received [action] = [] := by simp [received, hnone]
    rw [hbytes, append_nil]
    refine ⟨?_, [], by rw [hcalls, append_nil], causedBy_nil _⟩
    exact h.congr hindex hlen hbuf

theorem tracking_run {actions : List Action} (h : Tracking got s)
    (hmeets : Meets step (fun s a => NoShortFcsError s a ∧ InChannels s a) s actions) :
    Tracking (got ++ received actions) (run s actions) := by
  induction actions generalizing s got with
  | nil =>
    rw [received, filterMap_nil, append_nil]
    exact h
  | cons action rest ih =>
    have hrest := ih (tracking_step h hmeets.1.1).1 hmeets.2
    rwa [append_assoc, received, received, ← filterMap_append] at hrest

/-- Every step of the run makes calls only for frames that end with the byte it has
received. -/
def IntactOnly (actions : List Action) : Prop :=
  ∀ done action, done ++ [action] <+: actions → ∀ new,
    (run .boot (done ++ [action])).calls = (run .boot done).calls ++ new →
      CausedBy (received (done ++ [action])) new

/-- **Only intact frames are delivered**, in every run inside the four channels and without
a wrong check sequence behind at most one byte. -/
theorem intactOnly_of_meets {actions : List Action}
    (hmeets : Meets step (fun s a => NoShortFcsError s a ∧ InChannels s a) .boot actions) :
    IntactOnly actions := by
  rintro done action ⟨later, rfl⟩ new hnew
  obtain ⟨hearly, hnow, -⟩ := meets_append.mp ((meets_append.mp hmeets).1)
  have htrack : Tracking (received done) (run .boot done) :=
    @tracking_run .boot [] done (.idle rfl) hearly
  obtain ⟨-, new', hnew', hcaused⟩ := tracking_step htrack hnow.1
  have hrun : run .boot (done ++ [action]) = step (run .boot done) action := replay_append ..
  rw [hrun, hnew'] at hnew
  rw [← append_cancel_left hnew, received, filterMap_append]
  exact hcaused

/-- A frame of two bytes, an AT command on its channel, and a frame of two bytes with a
wrong check sequence. -/
theorem intactOnly_of_meets_two_frames :
    let actions := (makeCmuxPkg [0x4F, 0x4B] 2).map (fun b => Action.parse 0 b) ++
      [.useAt 2, .clear 2] ++
      [0xF9, 0x09, 0xEF, 0x05, 0x4F, 0x4B, 0x00, 0xF9].map fun b => Action.parse 1 b
    Meets step (fun s a => NoShortFcsError s a ∧ InChannels s a) .boot actions ∧
      IntactOnly actions := by
  intro actions
  have hmeets : Meets step (fun s a => NoShortFcsError s a ∧ InChannels s a) .boot actions := by
    decide +kernel
  exact ⟨hmeets, intactOnly_of_meets hmeets⟩

/-- A frame of one byte with a wrong check sequence is delivered as an empty one. -/
theorem broken_frame_delivered :
    ¬ IntactOnly ([0xF9, 0x05, 0xEF, 0x03, 0x41, 0x00, 0xF9].map fun b => Action.parse 0 b) := by
  intro h
  have hcaused := h ([0xF9, 0x05, 0xEF, 0x03, 0x41, 0x00].map fun b => Action.parse 0 b)
    (.parse 0 0xF9) prefix_rfl [(1, [])] (by decide +kernel)
  obtain ⟨⟨a, field, data, hlength⟩, ⟨front, hfront⟩, hcall⟩ :=
    hcaused (1, []) (mem_singleton_self _)
  obtain rfl : data = [] := (Prod.mk.inj hcall).2
  change front ++ (0xF9 :: a :: 0xEF :: field ++ [] ++ [makeFcs (a :: 0xEF :: field), 0xF9]) =
    [0xF9, 0x05, 0xEF, 0x03, 0x41, 0x00, 0xF9] at hfront
  clear hcall
  generalize ([] : List UInt8).length = n at hlength
  have hsize := congrArg List.length hfront
  cases hlength with
  | one hodd =>
    -- six bytes, so that the first is the address
    obtain ⟨x, rfl⟩ : ∃ x, front = [x] := length_eq_one_iff.mp (by simpa using hsize)
    simp at hfront
  | @two lo hi heven =>
    -- seven bytes, whose first length byte is odd
    obtain rfl : front = [] := length_eq_zero_iff.mp (by simpa using hsize)
    obtain rfl : lo = 0x03 := by simp at hfront; exact hfront.2.1
    exact absurd heven (by decide)

end Easyio.Cmux
