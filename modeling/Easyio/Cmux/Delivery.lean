import Easyio.Cmux.Reading

/-!
# Frames that arrive whole

A frame that begins while the parser waits for a flag, and that arrives without a
pause, is delivered once and leaves the parser waiting for the next flag
(`feed_frame`).  After a pause the parser waits for a flag whatever state it was
in, so a sequence of frames behind a pause is delivered frame by frame.

Time is the counter `app_timer_second` that the parser reads.
-/

namespace Easyio.Cmux

open Crash List Prod

variable {s : State} {now : UInt32} {b a : UInt8} {got field tail : List UInt8} {n : ℕ}
  {stream : List (UInt32 × UInt8)}

/-- No byte of `stream` comes more than a second after the one before it; the first
is compared with `last`. -/
def Timely : UInt32 → List (UInt32 × UInt8) → Prop
  | _, [] => True
  | last, (now, _) :: rest => ¬ 1 < now - last ∧ Timely now rest

instance : (last : UInt32) → (stream : List (UInt32 × UInt8)) → Decidable (Timely last stream)
  | _, [] => inferInstanceAs (Decidable True)
  | last, (now, _) :: rest =>
    have := instDecidableTimely now rest
    inferInstanceAs (Decidable (¬ 1 < now - last ∧ Timely now rest))

theorem feed_cons (s : State) (now : UInt32) (b : UInt8) (rest : List (UInt32 × UInt8)) :
    feed s ((now, b) :: rest) = feed (parserCmuxPkg s now b) rest := rfl

theorem feed_append (s : State) (first second : List (UInt32 × UInt8)) :
    feed s (first ++ second) = feed (feed s first) second := by
  unfold feed run
  rw [map_append, replay_append]

theorem timely_append {first second : List (UInt32 × UInt8)} :
    Timely s.timer (first ++ second) ↔
      Timely s.timer first ∧ Timely (feed s first).timer second := by
  induction first generalizing s with
  | nil => exact (true_and _).to_iff.symm
  | cons arrival rest ih =>
    obtain ⟨now, b⟩ := arrival
    have hrest := ih (s := parserCmuxPkg s now b)
    rw [parserCmuxPkg_timer] at hrest
    rw [cons_append, Timely, Timely, hrest, feed_cons, and_assoc]

theorem parserCmuxPkg_calls_of_lt (h : s.index < 6) : (parserCmuxPkg s now b).calls = s.calls := by
  have hle := expire_index_le s now
  rw [parserCmuxPkg_calls, delivery_of_lt (by omega), append_nil]

theorem InHeader.index_lt (h : InHeader s got) (hshort : got.length < 5) : s.index < 6 := by
  rw [h.index]
  omega

theorem InHeader.expire (h : InHeader s got) (hnow : ¬ 1 < now - s.timer) :
    InHeader (s.expire now) got :=
  ⟨(expire_index_of_not hnow).trans h.index, h.got⟩

theorem InFrame.expire (h : InFrame s a field tail) (hnow : ¬ 1 < now - s.timer) :
    InFrame (s.expire now) a field tail :=
  ⟨(expire_index_of_not hnow).trans h.index, h.length, h.room, h.address, h.fcs, h.tail⟩

/-! ## One frame -/

theorem LengthField.unique {m : ℕ} (h : LengthField field m) (h' : LengthField field n) :
    m = n := by
  cases h <;> cases h' <;> rfl

theorem feed_start {start : List (UInt32 × UInt8)} (hindex : s.index = 0)
    (htimely : Timely s.timer start) (hbytes : start.map snd = [0xF9, a, 0xEF]) :
    InHeader (feed s start) [a, 0xEF] ∧ (feed s start).calls = s.calls := by
  obtain ⟨t₀, t₁, t₂, rfl⟩ : ∃ t₀ t₁ t₂, start = [(t₀, 0xF9), (t₁, a), (t₂, 0xEF)] := by
    simp only [map_eq_cons_iff, map_eq_nil_iff] at hbytes
    obtain ⟨⟨t₀, _⟩, _, rfl, rfl, ⟨t₁, _⟩, _, rfl, rfl, ⟨t₂, _⟩, _, rfl, rfl, rfl⟩ := hbytes
    exact ⟨t₀, t₁, t₂, rfl⟩
  obtain ⟨h₀, h₁, h₂, -⟩ := htimely
  have hflag : InHeader (parserCmuxPkg s t₀ 0xF9) [] :=
    inHeader_flag ((expire_index_of_not h₀).trans hindex)
  rw [← parserCmuxPkg_timer s t₀ 0xF9] at h₁
  have haddress := (hflag.expire h₁).address a
  rw [← parserCmuxPkg_timer (parserCmuxPkg s t₀ 0xF9) t₁ a] at h₂
  refine ⟨(haddress.expire h₂).control, ?_⟩
  calc (feed s [(t₀, 0xF9), (t₁, a), (t₂, 0xEF)]).calls
      = (parserCmuxPkg (parserCmuxPkg s t₀ 0xF9) t₁ a).calls :=
        parserCmuxPkg_calls_of_lt (haddress.index_lt (by simp))
    _ = (parserCmuxPkg s t₀ 0xF9).calls := parserCmuxPkg_calls_of_lt (hflag.index_lt (by simp))
    _ = s.calls := parserCmuxPkg_calls_of_lt (by omega)

theorem feed_field (h : InHeader s [a, 0xEF]) (htimely : Timely s.timer stream)
    (hbytes : stream.map snd = field) (hfield : LengthField field n) (hn : n < 1248) :
    InFrame (feed s stream) a field [] ∧ (feed s stream).calls = s.calls := by
  cases hfield with
  | @one lo hodd =>
    simp only [map_eq_cons_iff, map_eq_nil_iff] at hbytes
    obtain ⟨⟨t, _⟩, _, rfl, rfl, rfl⟩ := hbytes
    exact ⟨(h.expire htimely.1).one hodd, parserCmuxPkg_calls_of_lt (h.index_lt (by simp))⟩
  | @two lo hi heven =>
    simp only [map_eq_cons_iff, map_eq_nil_iff] at hbytes
    obtain ⟨⟨t, lo⟩, _, rfl, rfl, ⟨t', hi⟩, _, rfl, rfl, rfl⟩ := hbytes
    obtain ⟨hnow, hnow', -⟩ := htimely
    obtain ⟨hlow, hlen⟩ := (h.expire hnow).low heven
    rw [← parserCmuxPkg_timer s t lo] at hnow'
    refine ⟨(hlow.expire hnow').two heven hlen hn, ?_⟩
    calc (feed s [(t, lo), (t', hi)]).calls
        = (parserCmuxPkg s t lo).calls := parserCmuxPkg_calls_of_lt (hlow.index_lt (by simp))
      _ = s.calls := parserCmuxPkg_calls_of_lt (h.index_lt (by simp))

theorem feed_header (hindex : s.index = 0) (htimely : Timely s.timer stream)
    (hbytes : stream.map snd = 0xF9 :: a :: 0xEF :: field) (hfield : LengthField field n)
    (hn : n < 1248) : InFrame (feed s stream) a field [] ∧ (feed s stream).calls = s.calls := by
  obtain ⟨start, rest, rfl, hstart, hrest⟩ :=
    map_eq_append_iff.mp (hbytes.trans (append_assoc [0xF9, a, 0xEF] [] field).symm)
  obtain ⟨hfirst, hsecond⟩ := timely_append.mp htimely
  obtain ⟨hheader, hcalls⟩ := feed_start hindex hfirst hstart
  obtain ⟨hframe, hcalls'⟩ := feed_field hheader hsecond hrest hfield hn
  rw [feed_append]
  exact ⟨hframe, hcalls'.trans hcalls⟩

/-- Bytes that still belong to the payload. -/
theorem InFrame.feed (h : InFrame s a field tail) (htimely : Timely s.timer stream)
    (hroom : tail.length + stream.length ≤ s.len) :
    InFrame (feed s stream) a field (tail ++ stream.map snd) ∧
      (Cmux.feed s stream).calls = s.calls := by
  induction stream generalizing s tail with
  | nil =>
    rw [map_nil, append_nil]
    exact ⟨h, rfl⟩
  | cons arrival rest ih =>
    obtain ⟨now, b⟩ := arrival
    rw [length_cons] at hroom
    have hexpire := h.expire htimely.1
    have hindex := hexpire.index
    have hlen : (s.expire now).len = s.len := rfl
    have hstep : parserCmuxPkg s now b = (s.expire now).push b :=
      hexpire.accept_push (by omega) (by omega)
    have hquiet : (parserCmuxPkg s now b).calls = s.calls := by
      rw [parserCmuxPkg_calls, delivery, if_neg (by omega), append_nil]
    have hpush : InFrame (parserCmuxPkg s now b) a field (tail ++ [b]) := by
      rw [hstep]
      exact hexpire.push (by omega) b
    have hlater : Timely (parserCmuxPkg s now b).timer rest := by
      rw [parserCmuxPkg_timer]
      exact htimely.2
    have hfits : (tail ++ [b]).length + rest.length ≤ (parserCmuxPkg s now b).len := by
      have hsame : ((s.expire now).push b).len = s.len := rfl
      rw [hstep, length_append, length_singleton]
      omega
    obtain ⟨hframe, hcalls⟩ := ih hpush hlater hfits
    rw [append_assoc] at hframe
    exact ⟨hframe, hcalls.trans hquiet⟩

/-- The check sequence and the closing flag. -/
theorem InFrame.feed_close {data : List UInt8} (h : InFrame s a field data)
    (hdata : data.length = s.len) (htimely : Timely s.timer stream)
    (hbytes : stream.map snd = [makeFcs (a :: 0xEF :: field), 0xF9]) :
    (Cmux.feed s stream).index = 0 ∧
      (Cmux.feed s stream).calls = s.calls ++ [((a >>> 2).toNat, data)] := by
  simp only [map_eq_cons_iff, map_eq_nil_iff] at hbytes
  obtain ⟨⟨t, check⟩, _, rfl, rfl, ⟨t', _⟩, _, rfl, rfl, rfl⟩ := hbytes
  obtain ⟨hnow, hnow', -⟩ := htimely
  have hexpire := h.expire hnow
  have hindex := hexpire.index
  have hstep : parserCmuxPkg s t (makeFcs (a :: 0xEF :: field)) =
      (s.expire t).push (makeFcs (a :: 0xEF :: field)) :=
    hexpire.accept_push (Nat.le_of_eq hdata) fun _ => rfl
  have hcheck := hexpire.push (Nat.le_of_eq hdata) (makeFcs (a :: 0xEF :: field))
  rw [← hstep] at hcheck
  have hquiet : (parserCmuxPkg s t (makeFcs (a :: 0xEF :: field))).calls = s.calls := by
    have hlen : (s.expire t).len = s.len := rfl
    rw [parserCmuxPkg_calls, delivery, if_neg (by omega), append_nil]
  rw [← parserCmuxPkg_timer s t (makeFcs (a :: 0xEF :: field))] at hnow'
  have hclose := hcheck.expire hnow'
  have hlen : data.length = ((parserCmuxPkg s t (makeFcs (a :: 0xEF :: field))).expire t').len := by
    rw [hstep]
    exact hdata
  refine ⟨hclose.accept_close hlen _, ?_⟩
  rw [← hquiet, ← hclose.delivery_close hlen]
  exact parserCmuxPkg_calls _ t' 0xF9

/-- **A frame is delivered.** -/
theorem feed_frame (f : Frame) (hlen : f.data.length < 1248) (hindex : s.index = 0)
    (htimely : Timely s.timer stream) (hbytes : stream.map snd = f.bytes) :
    (feed s stream).index = 0 ∧ (feed s stream).calls = s.calls ++ [(f.port, f.data)] := by
  obtain ⟨front, close, rfl, hfront, hclose⟩ := map_eq_append_iff.mp hbytes
  obtain ⟨head, body, rfl, hhead, hbody⟩ := map_eq_append_iff.mp hfront
  obtain ⟨htimely, hlate⟩ := timely_append.mp htimely
  obtain ⟨hearly, hmiddle⟩ := timely_append.mp htimely
  obtain ⟨hheader, hcalls⟩ := feed_header hindex hearly hhead f.length hlen
  have hvalue : (feed s head).len = f.data.length := hheader.length.unique f.length
  have hbodylen : body.length = f.data.length := by
    rw [← hbody, length_map]
  obtain ⟨hframe, hcalls'⟩ := hheader.feed hmiddle (by simp [hvalue, hbodylen])
  rw [hbody, ← feed_append] at hframe
  rw [← feed_append, hcalls] at hcalls'
  have hdata : f.data.length = (feed s (head ++ body)).len := f.length.unique hframe.length
  rw [feed_append, ← hcalls']
  exact hframe.feed_close hdata hlate hclose

/-! ## Frames behind a pause -/

theorem feed_frames {frames : List Frame} (hlen : ∀ f ∈ frames, f.data.length < 1248)
    (hindex : s.index = 0) (htimely : Timely s.timer stream)
    (hbytes : stream.map snd = frames.flatMap Frame.bytes) :
    (feed s stream).calls = s.calls ++ frames.map fun f => (f.port, f.data) := by
  induction frames generalizing s stream with
  | nil =>
    rw [map_eq_nil_iff.mp hbytes, map_nil, append_nil]
    rfl
  | cons f rest ih =>
    rw [flatMap_cons] at hbytes
    obtain ⟨first, later, rfl, hfirst, hlater⟩ := map_eq_append_iff.mp hbytes
    obtain ⟨hearly, hlate⟩ := timely_append.mp htimely
    obtain ⟨hidle, hcalls⟩ := feed_frame f (hlen f mem_cons_self) hindex hearly hfirst
    have hrest := ih (fun g hg => hlen g (mem_cons_of_mem f hg)) hidle hlate hlater
    rw [feed_append, hrest, hcalls, append_assoc, map_cons, singleton_append]

/-- A frame on one of the four channels, with a payload that one length byte can give. -/
structure Frame.WellFormed (f : Frame) : Prop where
  port : f.port < 4
  length : f.data.length < 128

/-- The first byte of `stream` comes more than a second after `last`, and each of the
others at most a second after the one before it. -/
def AfterPause (last : UInt32) : List (UInt32 × UInt8) → Prop
  | [] => True
  | (now, _) :: rest => 1 < now - last ∧ Timely now rest

instance : (last : UInt32) → (stream : List (UInt32 × UInt8)) → Decidable (AfterPause last stream)
  | _, [] => inferInstanceAs (Decidable True)
  | last, (now, _) :: rest => inferInstanceAs (Decidable (1 < now - last ∧ Timely now rest))

/-- The parser that has just seen a pause. -/
def State.resume (s : State) (now : UInt32) : State := { s with index := 0, timer := now }

theorem parserCmuxPkg_resume (b : UInt8) (h : (s.expire now).index = 0) :
    parserCmuxPkg s now b = parserCmuxPkg (s.resume now) now b := by
  have hsame : s.expire now = (s.resume now).expire now := by
    unfold State.expire at h ⊢
    simp only at h
    simp [h, State.resume]
  rw [parserCmuxPkg, parserCmuxPkg, hsame]

theorem timely_resume {rest : List (UInt32 × UInt8)} (h : Timely now rest) :
    Timely (s.resume now).timer ((now, b) :: rest) := by
  refine ⟨?_, h⟩
  have hzero : now - (s.resume now).timer = 0 := UInt32.sub_self now
  rw [hzero]
  decide

/-- **Resynchronisation.**  Whatever state the parser is in, the frames that follow
a pause are delivered, each once and in order. -/
theorem resynchronisation (s : State) {frames : List Frame} {stream : List (UInt32 × UInt8)}
    (hframes : ∀ f ∈ frames, f.WellFormed)
    (hbytes : stream.map snd = frames.flatMap Frame.bytes)
    (hpause : AfterPause s.timer stream) :
    (feed s stream).calls = s.calls ++ frames.map fun f => (f.port, f.data) := by
  have hlen : ∀ f ∈ frames, f.data.length < 1248 := fun f hf =>
    (hframes f hf).length.trans (by decide)
  match stream, hpause with
  | [], _ =>
    have hnone : Timely (s.resume 0).timer [] := trivial
    exact feed_frames hlen (s := s.resume 0) rfl hnone hbytes
  | (now, b) :: rest, ⟨hlong, hrest⟩ =>
    rw [feed_cons, parserCmuxPkg_resume b (expire_index_of_lt hlong)]
    exact feed_frames hlen rfl (timely_resume hrest) hbytes

/-- After a broken frame, which leaves the parser storing whatever comes, a frame with
one length byte and a frame with two, whose payload is a flag. -/
theorem resynchronisation_after_error :
    let broken := feed .boot ([0xF9, 0x05, 0xEF, 0x05, 0x41, 0x42, 0x00, 0xF9].map fun b => (7, b))
    let frames : List Frame := [⟨0x05, [0x03], [0x41], .one (by decide)⟩,
      ⟨0x09, [0x02, 0x00], [0xF9], .two (by decide)⟩]
    let stream := (frames.flatMap Frame.bytes).map fun b => ((9 : UInt32), b)
    broken.index = 8 ∧ AfterPause broken.timer stream ∧
      (feed broken stream).calls = broken.calls ++ [(1, [0x41]), (2, [0xF9])] := by
  intro broken frames stream
  have hpause : AfterPause broken.timer stream := by
    decide +kernel
  refine ⟨by decide +kernel, hpause, ?_⟩
  refine @resynchronisation broken frames stream ?_ ?_ hpause
  · intro f hf
    simp only [frames, mem_cons, not_mem_nil, or_false] at hf
    rcases hf with rfl | rfl
    · exact ⟨by decide, by decide⟩
    · exact ⟨by decide, by decide⟩
  · simp [stream, Function.comp_def]

end Easyio.Cmux
