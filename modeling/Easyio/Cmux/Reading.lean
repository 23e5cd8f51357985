import Easyio.Cmux.Parser

/-!
# Reading one frame

What `__parser_cmux_pkg` has in its variables while it reads a frame.
`InHeader s got` says that it has read a flag and the bytes `got` of a header, and
`InFrame s a field tail` that it has read a whole header and `tail` behind it.

The step lemmas are stated for `accept`, the parser without its clock.  They serve
both directions: a frame that arrives whole is delivered, and what is delivered
arrived as a whole frame.
-/

namespace Easyio.Cmux

open Function List Crash Nor

variable {s : State} {b : UInt8} {now : UInt32}

/-! ## The steps of the parser -/

@[simp] theorem expire_calls (s : State) (now : UInt32) : (s.expire now).calls = s.calls := rfl

theorem expire_index_of_not (h : ¬ 1 < now - s.timer) : (s.expire now).index = s.index := if_neg h

theorem expire_index_of_lt (h : 1 < now - s.timer) : (s.expire now).index = 0 := if_pos h

theorem expire_index_le (s : State) (now : UInt32) : (s.expire now).index ≤ s.index := by
  unfold State.expire
  split <;> simp

theorem push_index (b : UInt8) (h : s.index < 1280) : (s.push b).index = s.index + 1 :=
  Nat.mod_eq_of_lt (by omega)

theorem accept_zero (h : s.index = 0) :
    accept s b = if b = 0xF9 then s.push 0xF9 else { s with index := 0 } := by
  simp only [accept, h]

theorem accept_one (h : s.index = 1) : accept s b = s.push b := by
  simp only [accept, h]

theorem accept_two (h : s.index = 2) :
    accept s b = if b = 0xEF then s.push 0xEF else { s with index := 0 } := by
  simp only [accept, h]

theorem accept_three (h : s.index = 3) :
    accept s b = if b &&& 1 = 0 then { s.push b with len := (b >>> 1).toNat }
      else { (s.push b).push 0xFF with len := (b >>> 1).toNat } := by
  simp only [accept, h]

theorem accept_four (h : s.index = 4) :
    accept s b = if 1248 ≤ (b.toNat * 256 + s.len) % 2 ^ 16 then
        { s.push b with len := (b.toNat * 256 + s.len) % 2 ^ 16, index := 0 }
      else { s.push b with len := (b.toNat * 256 + s.len) % 2 ^ 16 } := by
  simp only [accept, h]

theorem accept_of_ge (h : 5 ≤ s.index) :
    accept s b =
      if s.index = s.len + 5 ∧ b ≠ s.fcs then { s with len := 0 }
      else if s.index = s.len + 6 then
        if b = 0xF9 then recvVportData (s.buf 1 >>> 2).toNat 5 s.len { s with index := 0 }
        else { s with index := 0 }
      else s.push b := by
  unfold accept
  split
  all_goals first | omega | rfl

theorem calls_mark (m : Mark) (s : State) : (s.mark m).calls = s.calls ++ m.call?.toList := by
  unfold State.calls State.mark
  rw [filterMap_append]
  cases m <;> rfl

theorem recvVportData_spec (port data len : ℕ) (s : State) :
    (recvVportData port data len s).index = s.index ∧
      (recvVportData port data len s).len = s.len ∧
      (recvVportData port data len s).timer = s.timer ∧
      (recvVportData port data len s).calls = s.calls ++ [(port, window s.buf data len)] ∧
      ∀ i ∈ (recvVportData port data len s).writes, i ∈ s.writes ∨ i = data + len := by
  have hcalls : ∀ m type, m.call? = none →
      ((s.mark (.received port type (window s.buf data len))).mark m).calls =
        s.calls ++ [(port, window s.buf data len)] := by
    intro m type hm
    rw [calls_mark, calls_mark, hm]
    simp [Mark.call?]
  simp only [recvVportData]
  split
  · exact ⟨rfl, rfl, rfl, hcalls _ _ rfl, fun i hi => Or.inl hi⟩
  · split
    · split
      · exact ⟨rfl, rfl, rfl, hcalls _ _ rfl, fun i hi => Or.inl hi⟩
      · exact ⟨rfl, rfl, rfl, calls_mark _ s, fun i hi => Or.inl hi⟩
    · split
      · refine ⟨rfl, rfl, rfl, hcalls (.atInterrupt _) _ rfl, fun i hi => ?_⟩
        simpa [State.mark, State.setVport, State.store] using hi
      · exact ⟨rfl, rfl, rfl, calls_mark _ s, fun i hi => Or.inl hi⟩

/-- The call a byte causes. -/
def delivery (s : State) (b : UInt8) : List (ℕ × List UInt8) :=
  if s.index = s.len + 6 ∧ b = 0xF9 then
    [((s.buf 1 >>> 2).toNat, window s.buf 5 s.len)]
  else []

/-- What a byte may do, with what it is and where it comes. -/
inductive Accepted (s : State) (b : UInt8) : State → Prop
  | skip : (s.index = 0 ∧ b ≠ 0xF9 ∨ s.index = 2 ∧ b ≠ 0xEF) → Accepted s b { s with index := 0 }
  | header : (s.index = 0 ∧ b = 0xF9 ∨ s.index = 1 ∨ s.index = 2 ∧ b = 0xEF) →
      Accepted s b (s.push b)
  | low : s.index = 3 → b &&& 1 = 0 → Accepted s b { s.push b with len := (b >>> 1).toNat }
  | one : s.index = 3 → b &&& 1 ≠ 0 →
      Accepted s b { (s.push b).push 0xFF with len := (b >>> 1).toNat }
  | refuse : s.index = 4 → 1248 ≤ (b.toNat * 256 + s.len) % 2 ^ 16 →
      Accepted s b { s.push b with len := (b.toNat * 256 + s.len) % 2 ^ 16, index := 0 }
  | two : s.index = 4 → (b.toNat * 256 + s.len) % 2 ^ 16 < 1248 →
      Accepted s b { s.push b with len := (b.toNat * 256 + s.len) % 2 ^ 16 }
  | fcsError : s.index = s.len + 5 → b ≠ s.fcs → Accepted s b { s with len := 0 }
  | close : s.index = s.len + 6 → b = 0xF9 →
      Accepted s b (recvVportData (s.buf 1 >>> 2).toNat 5 s.len { s with index := 0 })
  | noFlag : s.index = s.len + 6 → b ≠ 0xF9 → Accepted s b { s with index := 0 }
  | body : 5 ≤ s.index → (s.index = s.len + 5 → b = s.fcs) → s.index ≠ s.len + 6 →
      Accepted s b (s.push b)

theorem accept_accepted (s : State) (b : UInt8) : Accepted s b (accept s b) := by
  by_cases hge : 5 ≤ s.index
  · rw [accept_of_ge hge]
    by_cases herror : s.index = s.len + 5 ∧ b ≠ s.fcs
    · rw [if_pos herror]
      exact .fcsError herror.1 herror.2
    · rw [if_neg herror]
      by_cases hend : s.index = s.len + 6
      · rw [if_pos hend]
        split
        · exact .close hend ‹_›
        · exact .noFlag hend ‹_›
      · rw [if_neg hend]
        exact .body hge (fun h => by_contra fun hb => herror ⟨h, hb⟩) hend
  · rcases (by omega : s.index = 0 ∨ s.index = 1 ∨ s.index = 2 ∨ s.index = 3 ∨ s.index = 4) with
      h | h | h | h | h
    · rw [accept_zero h]
      split
      · rename_i hb
        rw [← hb]
        exact .header (Or.inl ⟨h, hb⟩)
      · exact .skip (Or.inl ⟨h, ‹_›⟩)
    · rw [accept_one h]
      exact .header (Or.inr (Or.inl h))
    · rw [accept_two h]
      split
      · rename_i hb
        rw [← hb]
        exact .header (Or.inr (Or.inr ⟨h, hb⟩))
      · exact .skip (Or.inr ⟨h, ‹_›⟩)
    · rw [accept_three h]
      split
      · exact .low h ‹_›
      · exact .one h ‹_›
    · rw [accept_four h]
      split
      · exact .refuse h ‹_›
      · exact .two h (Nat.lt_of_not_le ‹_›)

/-- A byte causes at most one call, of the bytes behind the header. -/
theorem accept_spec (s : State) (b : UInt8) :
    (accept s b).timer = s.timer ∧ (accept s b).calls = s.calls ++ delivery s b := by
  have hquiet : ∀ s' : State, s'.timer = s.timer → s'.trace = s.trace →
      ¬ (s.index = s.len + 6 ∧ b = 0xF9) →
      s'.timer = s.timer ∧ s'.calls = s.calls ++ delivery s b := by
    intro s' htimer htrace hnone
    rw [delivery, if_neg hnone, append_nil]
    exact ⟨htimer, congrArg (filterMap Mark.call?) htrace⟩
  have hcases := accept_accepted s b
  generalize accept s b = s' at hcases ⊢
  cases hcases with
  | close hend hb =>
    obtain ⟨-, -, htimer, hcalls, -⟩ :=
      recvVportData_spec (s.buf 1 >>> 2).toNat 5 s.len { s with index := 0 }
    refine ⟨htimer, ?_⟩
    rw [hcalls, delivery, if_pos ⟨hend, hb⟩]
    rfl
  | noFlag _ hb => exact hquiet _ rfl rfl fun h => hb h.2
  | body _ _ hend => exact hquiet _ rfl rfl fun h => hend h.1
  | skip | header | low | one | refuse | two | fcsError => exact hquiet _ rfl rfl (by omega)

theorem parserCmuxPkg_timer (s : State) (now : UInt32) (b : UInt8) :
    (parserCmuxPkg s now b).timer = now :=
  (accept_spec _ b).1

theorem parserCmuxPkg_calls (s : State) (now : UInt32) (b : UInt8) :
    (parserCmuxPkg s now b).calls = s.calls ++ delivery (s.expire now) b :=
  (accept_spec _ b).2

theorem Action.parse_or_no_byte (action : Action) :
    (∃ now b, action = .parse now b) ∨ action.byte? = none := by
  cases action with
  | parse now b => exact Or.inl ⟨now, b, rfl⟩
  | _ => exact Or.inr rfl

theorem step_of_no_byte (s : State) {action : Action} (h : action.byte? = none) :
    (step s action).index = s.index ∧ (step s action).len = s.len ∧
      (step s action).timer = s.timer ∧ (step s action).buf = s.buf ∧
      (step s action).writes = s.writes ∧ (step s action).calls = s.calls := by
  have hcalls : ∀ (s' : State) (m : Mark), s'.calls = s.calls → m.call? = none →
      (s'.mark m).calls = s.calls := by
    intro s' m hs hm
    rw [calls_mark, hm, hs]
    exact append_nil _
  cases action with
  | parse now data => cases h
  | useAt port | ctrl port type recvDataCb => exact ⟨rfl, rfl, rfl, rfl, rfl, rfl⟩
  | clear port | respond port | send frame | init =>
    exact ⟨rfl, rfl, rfl, rfl, rfl, hcalls _ _ rfl rfl⟩

theorem delivery_of_lt (h : s.index < 6) : delivery s b = [] := if_neg (by omega)

/-! ## Inside a header -/

/-- A flag has been read, and the bytes `got` of a header behind it. -/
structure InHeader (s : State) (got : List UInt8) : Prop where
  index : s.index = 1 + got.length
  got : window s.buf 1 got.length = got

theorem InHeader.push {got : List UInt8} (h : InHeader s got) (hshort : got.length < 4)
    (b : UInt8) : InHeader (s.push b) (got ++ [b]) := by
  have hindex := h.index
  refine ⟨?_, ?_⟩
  · rw [push_index b (by omega), hindex, length_append]
    rfl
  · have hbuf : (s.push b).buf = update s.buf s.index b := rfl
    rw [hbuf, length_append, length_singleton, window_succ,
      window_update_of_ge _ (by omega), h.got, hindex, update_self]

theorem inHeader_flag (h : s.index = 0) : InHeader (accept s 0xF9) [] := by
  rw [accept_zero h]
  exact ⟨(push_index _ (by omega)).trans (by rw [h]; rfl), rfl⟩

theorem InHeader.address (h : InHeader s []) (b : UInt8) : InHeader (accept s b) [b] := by
  rw [accept_one h.index]
  exact h.push (by decide) b

theorem InHeader.control {a : UInt8} (h : InHeader s [a]) : InHeader (accept s 0xEF) [a, 0xEF] := by
  rw [accept_two h.index]
  exact h.push (by simp) 0xEF

theorem InHeader.low {a lo : UInt8} (h : InHeader s [a, 0xEF]) (hlo : lo &&& 1 = 0) :
    InHeader (accept s lo) [a, 0xEF, lo] ∧ (accept s lo).len = (lo >>> 1).toNat := by
  rw [accept_three h.index, if_pos hlo]
  have hpush := h.push (by simp) lo
  exact ⟨⟨hpush.index, hpush.got⟩, rfl⟩

/-! ## Behind the header -/

/-- The header of a frame has been read, and `tail` behind it. -/
structure InFrame (s : State) (a : UInt8) (field tail : List UInt8) : Prop where
  index : s.index = 5 + tail.length
  length : LengthField field s.len
  room : s.len < 1248
  address : s.buf 1 = a
  fcs : s.fcs = makeFcs (a :: 0xEF :: field)
  tail : window s.buf 5 tail.length = tail

/-- A single length byte.  The parser puts `0xFF` in the place of the second. -/
theorem InHeader.one {a lo : UInt8} (h : InHeader s [a, 0xEF]) (hlo : lo &&& 1 ≠ 0) :
    InFrame (accept s lo) a [lo] [] := by
  rw [accept_three h.index, if_neg hlo]
  have hpush := h.push (by simp) lo
  have hfull := hpush.push (by simp) 0xFF
  have hbytes : window ((s.push lo).push 0xFF).buf 1 4 = [a, 0xEF, lo, 0xFF] := hfull.got
  have hthree : window ((s.push lo).push 0xFF).buf 1 3 = [a, 0xEF, lo] := by
    exact append_inj_left' hbytes rfl
  simp only [window, range_succ, range_zero, nil_append, cons_append,
    map_cons, map_nil, cons.injEq] at hbytes
  refine ⟨hfull.index, .one hlo, length_lt_of_one.trans (by decide), hbytes.1, ?_, rfl⟩
  exact (if_pos hbytes.2.2.2.1).trans (congrArg makeFcs hthree)

theorem InHeader.two {a lo hi : UInt8} (h : InHeader s [a, 0xEF, lo]) (hlo : lo &&& 1 = 0)
    (hlen : s.len = (lo >>> 1).toNat) (hroom : hi.toNat * 256 + (lo >>> 1).toNat < 1248) :
    InFrame (accept s hi) a [lo, hi] [] := by
  have hvalue : (hi.toNat * 256 + s.len) % 2 ^ 16 = hi.toNat * 256 + (lo >>> 1).toNat := by
    omega
  rw [accept_four h.index, hvalue, if_neg (by omega)]
  -- a second byte `0xFF` would make the length too large
  have hhi : hi ≠ 0xFF := by
    rintro rfl
    have : (0xFF : UInt8).toNat = 255 := rfl
    omega
  have hfull := h.push (by simp) hi
  have hfour : window (s.push hi).buf 1 4 = [a, 0xEF, lo, hi] := hfull.got
  have hbytes := hfour
  simp only [window, range_succ, range_zero, nil_append, cons_append,
    map_cons, map_nil, cons.injEq] at hbytes
  refine ⟨hfull.index, .two hlo, hroom, hbytes.1, ?_, rfl⟩
  refine (if_neg ?_).trans (congrArg makeFcs hfour)
  intro hcontra
  exact hhi (hbytes.2.2.2.1.symm.trans hcontra)

theorem fcs_push (h : 5 ≤ s.index) : (s.push b).fcs = s.fcs := by
  have hbuf : ∀ i < 5, (s.push b).buf i = s.buf i := fun i hi =>
    update_of_ne (by omega) ..
  unfold State.fcs
  rw [hbuf 4 (by decide), window_congr fun i hi => hbuf (1 + i) (by omega),
    window_congr fun i hi => hbuf (1 + i) (by omega)]

namespace InFrame

variable {a : UInt8} {field tail data : List UInt8}

theorem push (h : InFrame s a field tail) (hroom : tail.length ≤ s.len) (b : UInt8) :
    InFrame (s.push b) a field (tail ++ [b]) := by
  have hindex := h.index
  have hsmall := h.room
  refine ⟨?_, h.length, h.room, ?_, ?_, ?_⟩
  · rw [push_index _ (by omega), hindex, length_append]
    rfl
  · rw [← h.address]
    exact update_of_ne (by omega) ..
  · rw [fcs_push (by omega), h.fcs]
  · have hbuf : (s.push b).buf = update s.buf s.index b := rfl
    rw [hbuf, length_append, length_singleton, window_succ,
      window_update_of_ge _ (by omega), h.tail, hindex, update_self]

theorem accept_push (h : InFrame s a field tail) (hroom : tail.length ≤ s.len)
    (hfcs : tail.length = s.len → b = makeFcs (a :: 0xEF :: field)) : accept s b = s.push b := by
  have hindex := h.index
  rw [accept_of_ge (by omega), if_neg, if_neg (by omega)]
  rintro ⟨hlen, hb⟩
  exact hb ((hfcs (by omega)).trans h.fcs.symm)

section

variable (h : InFrame s a field (data ++ [b])) (hdata : data.length = s.len)
include h hdata

theorem delivery_close : delivery s 0xF9 = [((a >>> 2).toNat, data)] := by
  have hindex := h.index
  have hwindow := h.tail
  rw [length_append, length_singleton] at hindex
  rw [length_append, length_singleton, window_succ] at hwindow
  rw [delivery, if_pos ⟨by omega, rfl⟩, h.address, ← hdata, append_inj_left' hwindow rfl]

theorem accept_close (c : UInt8) : (accept s c).index = 0 := by
  have hindex := h.index
  rw [length_append, length_singleton] at hindex
  rw [accept_of_ge (by omega), if_neg (by omega), if_pos (by omega)]
  split
  · exact (recvVportData_spec _ _ _ _).1
  · rfl

end

end InFrame

end Easyio.Cmux
