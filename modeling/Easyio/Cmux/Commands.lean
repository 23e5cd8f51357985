import Easyio.Cmux.Parser

/-!
# Sending data and AT commands

`cmux_write`, `cmux_at_command`, `cmux_at_command_check_resp` and
`cmux_at_command_wait` of `gsmmux/easyio_cmux.c`, as the lists of steps they take.
`rt_malloc` is taken to succeed, so that every call of `make_cmux_pkg` sends its
frame.

The first three send their input in pieces.  Their loops are given a bound on the
number of rounds, and `none` is the result of a bound that is too small.  The two
loops for AT commands count in a `short`.

What is shown is that the payloads of the frames, one behind the other, are the
input (`Carries`).
-/

namespace Easyio.Cmux

open List CString

variable {port : ℕ}

/-- The loop of `cmux_write`. -/
def writeLoop (port : ℕ) (data : List UInt8) : ℕ → ℕ → Option (List (List UInt8))
  | 0, _ => none
  | fuel + 1, sendIndex =>
    if 64 < data.length - sendIndex then
      (writeLoop port data fuel (sendIndex + 64)).map
        (makeCmuxPkg ((data.drop sendIndex).take 64) port :: ·)
    else some [makeCmuxPkg ((data.drop sendIndex).take (data.length - sendIndex)) port]

/-- `cmux_write` -/
def cmuxWrite (fuel port : ℕ) (data : List UInt8) : Option (List Action) :=
  (writeLoop port data fuel 0).map (·.map .send)

/-- A number stored in a `short`. -/
def toShort (n : ℤ) : ℤ := n.bmod (2 ^ 16)

/-- The loop of `cmux_at_command` and `cmux_at_command_check_resp`.  `atCmd` is the
memory the command is in, `len` is `at_cmd_len` and the last argument
`at_cmd_len_cnt`. -/
def atLoop (port : ℕ) (atCmd : List UInt8) (len : ℤ) : ℕ → ℤ → Option (List (List UInt8))
  | 0, _ => none
  | fuel + 1, cnt =>
    if 0 < len - cnt then
      if 48 < len - cnt then
        (atLoop port atCmd len fuel (toShort (cnt + 48))).map
          (makeCmuxPkg ((atCmd.drop cnt.toNat).take 48) port :: ·)
      else
        (atLoop port atCmd len fuel (toShort (cnt + (len - cnt)))).map
          (makeCmuxPkg ((atCmd.drop cnt.toNat).take (len - cnt).toNat) port :: ·)
    else some []

/-- What both commands do up to the point where they wait for a response. -/
def atRequest (fuel port : ℕ) (atCmd : List UInt8) : Option (List Action) :=
  (atLoop port atCmd (toShort (cString atCmd).length) fuel 0).map fun frames =>
    [.useAt port, .clear port] ++ frames.map .send ++ [.clear port]

/-- `cmux_at_command`; `answered` says whether the first `rt_sem_take` succeeds and a
callback was given. -/
def cmuxAtCommand (fuel port : ℕ) (atCmd : List UInt8) (answered : Bool) : Option (List Action) :=
  (atRequest fuel port atCmd).map (· ++ if answered then [.respond port] else [])

/-- `cmux_at_command_check_resp`, which looks for a string in the response itself. -/
def cmuxAtCommandCheckResp (fuel port : ℕ) (atCmd : List UInt8) : Option (List Action) :=
  atRequest fuel port atCmd

/-- `cmux_at_command_wait`, with the number of times it calls the callback.  It sends
the command in one frame and does not empty the response buffer behind it. -/
def cmuxAtCommandWait (port : ℕ) (atCmd : List UInt8) (answers : ℕ) : List Action :=
  [.useAt port, .clear port, .send (makeCmuxPkg (cString atCmd) port)] ++
    List.replicate answers (.respond port)

/-- The frame a step sends. -/
def Action.frame? : Action → Option (List UInt8)
  | .send frame => some frame
  | _ => none

def framesOf (actions : List Action) : List (List UInt8) := actions.filterMap Action.frame?

/-! ## What the frames carry -/

/-- The frames of `port` carry `input`, at most `limit` bytes each. -/
structure Carries (limit port : ℕ) (input : List UInt8) (frames : List (List UInt8)) : Prop where
  payloads : (frames.map payloadOf).flatten = input
  short : ∀ f ∈ frames, (payloadOf f).length ≤ limit
  framed : ∀ f ∈ frames, f = makeCmuxPkg (payloadOf f) port

theorem carries_nil (limit port : ℕ) : Carries limit port [] [] := ⟨rfl, by simp, by simp⟩

theorem Carries.cons {limit : ℕ} {input : List UInt8} {frames : List (List UInt8)}
    (h : Carries limit port input frames) (chunk : List UInt8) (hchunk : chunk.length ≤ limit) :
    Carries limit port (chunk ++ input) (makeCmuxPkg chunk port :: frames) := by
  refine ⟨?_, ?_, ?_⟩
  · rw [map_cons, flatten_cons, payloadOf_makeCmuxPkg, h.payloads]
  · rw [forall_mem_cons, payloadOf_makeCmuxPkg]
    exact ⟨hchunk, h.short⟩
  · rw [forall_mem_cons, payloadOf_makeCmuxPkg]
    exact ⟨rfl, h.framed⟩

theorem framesOf_append (first second : List Action) :
    framesOf (first ++ second) = framesOf first ++ framesOf second :=
  filterMap_append

theorem framesOf_sends (frames : List (List UInt8)) : framesOf (frames.map .send) = frames := by
  unfold framesOf
  rw [filterMap_map]
  exact filterMap_some

theorem writeLoop_spec (data : List UInt8) (fuel sendIndex : ℕ)
    (hfuel : data.length - sendIndex < fuel) :
    ∃ frames, writeLoop port data fuel sendIndex = some frames ∧
      Carries 64 port (data.drop sendIndex) frames := by
  induction fuel generalizing sendIndex with
  | zero => omega
  | succ fuel ih =>
    unfold writeLoop
    by_cases hlong : 64 < data.length - sendIndex
    · obtain ⟨frames, hframes, hcarries⟩ := ih (sendIndex + 64) (by omega)
      refine ⟨_, by rw [if_pos hlong, hframes]; rfl, ?_⟩
      have hcons := hcarries.cons ((data.drop sendIndex).take 64) (length_take_le ..)
      rwa [← drop_drop, take_append_drop] at hcons
    · have hrest : (data.drop sendIndex).take (data.length - sendIndex) = data.drop sendIndex :=
        take_of_length_le (by rw [length_drop])
      refine ⟨[makeCmuxPkg (data.drop sendIndex) port], by rw [if_neg hlong, hrest], ?_⟩
      have hcons := (carries_nil 64 port).cons (data.drop sendIndex) (by
        rw [length_drop]
        omega)
      rwa [append_nil] at hcons

theorem toShort_of_lt {n : ℤ} (h : 0 ≤ n) (hlt : n < 32768) : toShort n = n :=
  Int.bmod_eq_of_le (by omega) (by omega)

theorem atLoop_spec {atCmd : List UInt8} {len : ℕ} (hlen : len < 32768) (fuel cnt : ℕ)
    (hcnt : cnt ≤ len) (hfuel : len - cnt < fuel) :
    ∃ frames, atLoop port atCmd len fuel cnt = some frames ∧
      Carries 48 port ((atCmd.drop cnt).take (len - cnt)) frames := by
  induction fuel generalizing cnt with
  | zero => omega
  | succ fuel ih =>
    unfold atLoop
    by_cases hleft : 0 < (len : ℤ) - cnt
    · by_cases hlong : 48 < (len : ℤ) - cnt
      · obtain ⟨frames, hframes, hcarries⟩ := ih (cnt + 48) (by omega) (by omega)
        have hnext : toShort ((cnt : ℤ) + 48) = (cnt + 48 : ℕ) :=
          toShort_of_lt (by omega) (by omega)
        refine ⟨_, by rw [if_pos hleft, if_pos hlong, hnext, hframes]; rfl, ?_⟩
        have hcons := hcarries.cons ((atCmd.drop cnt).take 48) (length_take_le ..)
        rwa [← drop_drop, ← take_add, show 48 + (len - (cnt + 48)) = len - cnt by omega]
          at hcons
      · obtain ⟨frames, hframes, hcarries⟩ := ih len (Nat.le_refl len) (by omega)
        have hnext : toShort ((cnt : ℤ) + (len - cnt)) = len := by
          rw [toShort_of_lt (by omega) (by omega)]
          omega
        have hchunk : ((len : ℤ) - cnt).toNat = len - cnt := by omega
        refine ⟨_, by rw [if_pos hleft, if_neg hlong, hnext, hframes, hchunk]; rfl, ?_⟩
        have hcons := hcarries.cons ((atCmd.drop cnt).take (len - cnt)) (by
          rw [length_take]
          omega)
        rwa [Nat.sub_self, take_zero, append_nil] at hcons
    · have hdone : len - cnt = 0 := by omega
      refine ⟨[], if_neg hleft, ?_⟩
      rw [hdone]
      exact carries_nil 48 port

theorem atRequest_spec {cmd : List UInt8} (rest : List UInt8) (hnul : 0 ∉ cmd)
    (hlen : cmd.length < 32768) {fuel : ℕ} (hfuel : cmd.length < fuel) :
    ∃ actions, atRequest fuel port (cmd ++ 0 :: rest) = some actions ∧
      Carries 48 port cmd (framesOf actions) := by
  have hstring : cString (cmd ++ 0 :: rest) = cmd := cString_append_zero hnul rest
  obtain ⟨frames, hframes, hcarries⟩ :=
    @atLoop_spec port (cmd ++ 0 :: rest) cmd.length hlen fuel 0 (Nat.zero_le _) hfuel
  have hshort : toShort cmd.length = cmd.length := toShort_of_lt (by omega) (by omega)
  refine ⟨[.useAt port, .clear port] ++ frames.map .send ++ [.clear port], ?_, ?_⟩
  · rw [atRequest, hstring, hshort]
    exact congrArg (Option.map _) hframes
  · have hsent : framesOf ([.useAt port, .clear port] ++ frames.map .send ++ [.clear port]) =
        frames := by
      rw [framesOf_append, framesOf_append, framesOf_sends]
      exact append_nil frames
    rw [hsent]
    rwa [drop_zero, Nat.sub_zero, take_left] at hcarries

/-- **Chunking.**  `cmux_write` and the two AT commands end, and the frames they send
carry their input, in pieces of at most 64 and of at most 48 bytes. -/
theorem sent_in_chunks (port : ℕ) (data : List UInt8) {cmd : List UInt8} (rest : List UInt8)
    (answered : Bool) (hnul : 0 ∉ cmd) (hlen : cmd.length < 32768) :
    (∀ fuel, data.length < fuel → ∃ actions, cmuxWrite fuel port data = some actions ∧
      Carries 64 port data (framesOf actions)) ∧ (∀ fuel, cmd.length < fuel → ∃ actions,
      cmuxAtCommand fuel port (cmd ++ 0 :: rest) answered = some actions ∧
        Carries 48 port cmd (framesOf actions)) ∧
    ∀ fuel, cmd.length < fuel → ∃ actions,
      cmuxAtCommandCheckResp fuel port (cmd ++ 0 :: rest) = some actions ∧
        Carries 48 port cmd (framesOf actions) := by
  refine ⟨fun fuel hfuel => ?_, fun fuel hfuel => ?_, fun fuel hfuel => ?_⟩
  · obtain ⟨frames, hframes, hcarries⟩ := @writeLoop_spec port data fuel 0 (by omega)
    refine ⟨frames.map .send, by rw [cmuxWrite, hframes]; rfl, ?_⟩
    rwa [framesOf_sends]
  · obtain ⟨actions, hactions, hcarries⟩ := @atRequest_spec port cmd rest hnul hlen fuel hfuel
    refine ⟨_, by rw [cmuxAtCommand, hactions]; rfl, ?_⟩
    have hsent : framesOf (actions ++ if answered then [.respond port] else []) =
        framesOf actions := by
      rw [framesOf_append]
      cases answered <;> exact append_nil _
    rwa [hsent]
  · exact atRequest_spec rest hnul hlen hfuel

/-- 130 bytes on channel 1, and the command `AT` on channel 2. -/
theorem sent_in_chunks_at : (∃ actions, cmuxWrite 131 1 (List.replicate 130 0x41) = some actions ∧
      Carries 64 1 (List.replicate 130 0x41) (framesOf actions)) ∧
    ∃ actions, cmuxAtCommand 3 2 (ascii "AT" ++ 0 :: []) true = some actions ∧
      Carries 48 2 (ascii "AT") (framesOf actions) := by
  have h := fun port => @sent_in_chunks port (List.replicate 130 0x41) (ascii "AT") [] true
    (by decide +kernel) (by decide +kernel)
  exact ⟨(h 1).1 131 (by simp), (h 2).2.1 3 (by decide +kernel)⟩

end Easyio.Cmux
