import Easyio.Cmux.Reading

/-!
# The response buffer of an AT channel

`recv_vport_data` appends what arrives on an AT channel to the channel's
`at_resp_buf`, which an AT command empties before it waits for the response.  The
room it gives to `strncat` is 60 minus the length of the string, in unsigned
arithmetic, so it is only right as long as that length is at most 60.

`Responds` is the invariant: the 64 bytes of the buffer hold a string of at most 60
characters, the first ones of what was received since it was emptied.  It is kept
by every step of every thread, so it holds however AT commands and received bytes
are interleaved.
-/

namespace Easyio.Cmux

open CString Crash Function List Mark Nor Runs

variable {port p data : ℕ} {s s' : State} {m : Mark} {mem : Cells}

/-! ## What a callback should see -/

/-- The payload of a call of `recv_vport_data` on the AT channel `port`.  On channel 1
a payload that begins with `0x7E` belongs to PPP. -/
def Mark.atPayload (port : ℕ) : Mark → Option (List UInt8)
  | .received p .atType data =>
    if p = port ∧ ¬ (p = 1 ∧ data.head? = some 0x7e) then some data else none
  | _ => none

/-- The response buffer of `port` is emptied. -/
def Mark.clears (port : ℕ) : Mark → Bool
  | .cleared p => p = port
  | .reset => true
  | _ => false

/-- What has been received on `port`, after one more mark. -/
def heard (port : ℕ) (text : List UInt8) (m : Mark) : List UInt8 :=
  if m.clears port then [] else text ++ (m.atPayload port).getD []

section

variable (port : ℕ) (trace : List Mark)

/-- The payloads received on the AT channel `port` since its buffer was last emptied,
one behind the other. -/
def sinceCleared : List UInt8 := trace.foldl (heard port) []

/-- No payload received on the AT channel `port` has a zero byte. -/
def NulFree : Prop := ∀ m ∈ trace, 0 ∉ (m.atPayload port).getD []

instance (port : ℕ) (trace : List Mark) : Decidable (NulFree port trace) :=
  inferInstanceAs (Decidable (∀ m ∈ trace, 0 ∉ (m.atPayload port).getD []))

theorem sinceCleared_concat (m : Mark) :
    sinceCleared port (trace ++ [m]) = heard port (sinceCleared port trace) m := by
  unfold sinceCleared
  rw [foldl_append]
  rfl

end

theorem NulFree.of_append {first second : List Mark} (h : NulFree port (first ++ second)) :
    NulFree port first :=
  fun m hm => h m (mem_append_left _ hm)

/-! ## The invariant -/

/-- The buffer of `port` is as it should be. -/
structure Responds (port : ℕ) (s : State) : Prop where
  size : (s.vport port).atRespBuf.length = 64
  short : (cString (s.vport port).atRespBuf).length ≤ 60
  text : NulFree port s.trace →
    cString (s.vport port).atRespBuf = (sinceCleared port s.trace).take 60

theorem Responds.congr (h : Responds port s)
    (hbuf : (s'.vport port).atRespBuf = (s.vport port).atRespBuf) (htrace : s'.trace = s.trace) :
    Responds port s' := by
  refine ⟨?_, ?_, ?_⟩
  · rw [hbuf]
    exact h.size
  · rw [hbuf]
    exact h.short
  · rw [hbuf, htrace]
    exact h.text

theorem Responds.mark (h : Responds port s) (hclears : m.clears port = false)
    (hpayload : (m.atPayload port).getD [] = []) : Responds port (s.mark m) := by
  refine ⟨h.size, h.short, fun hnul => ?_⟩
  have hold := h.text (NulFree.of_append hnul)
  have hsame : sinceCleared port (s.mark m).trace = sinceCleared port s.trace := by
    rw [State.mark, sinceCleared_concat, heard, hclears, hpayload]
    exact append_nil _
  rw [hsame]
  exact hold

theorem responds_cleared {buf : List UInt8} (hsize : (s.vport port).atRespBuf = buf)
    (hbuf : buf.length = 64) (hempty : cString buf = []) (hclears : m.clears port = true) :
    Responds port (s.mark m) := by
  have hsame : ((s.mark m).vport port).atRespBuf = buf := hsize
  refine ⟨by rw [hsame, hbuf], by rw [hsame, hempty]; exact Nat.zero_le 60, fun _ => ?_⟩
  rw [hsame, hempty, State.mark, sinceCleared_concat, heard, if_pos hclears, take_nil]

theorem setVport_self (s : State) (p : ℕ) (v : Vport) : (s.setVport p v).vport p = v :=
  update_self ..

theorem responds_setVport {v : Vport} (h : Responds port s)
    (hbuf : v.atRespBuf = (s.vport p).atRespBuf) : Responds port (s.setVport p v) := by
  refine h.congr ?_ rfl
  by_cases hp : port = p
  · subst hp
    simp [State.setVport, hbuf]
  · simp [State.setVport, update_of_ne hp]

/-! ## A received frame -/

theorem atPayload_of_ne (hp : p ≠ port) (type : VportType) (data : List UInt8) :
    (Mark.received p type data).atPayload port = none := by
  cases type <;> simp [atPayload, hp]

theorem atPayload_of_type {type : VportType} (htype : type ≠ .atType) (p : ℕ) (data : List UInt8) :
    (Mark.received p type data).atPayload port = none := by
  cases type with
  | atType => exact absurd rfl htype
  | _ => rfl

/-- A payload for PPP.  It may be empty, and the byte that was looked at an old one. -/
theorem atPayload_of_ppp (hbyte : mem data = 0x7e) (type : VportType) (len : ℕ) :
    ((Mark.received 1 type (window mem data len)).atPayload port).getD [] = [] := by
  cases type with
  | atType =>
    simp only [atPayload, head?_window, hbyte]
    rcases Nat.eq_zero_or_pos len with rfl | hpos
    · have hempty : window mem data 0 = [] := rfl
      by_cases hport : 1 = port <;> simp [hport, hempty]
    · simp [hpos]
  | _ => rfl

theorem responds_append {payload : List UInt8} (h : Responds port s)
    (hppp : ¬ (port = 1 ∧ payload.head? = some 0x7e))
    (hbuf : (s'.vport port).atRespBuf = strncat (s.vport port).atRespBuf (payload ++ [0])
      (60 - (cString (s.vport port).atRespBuf).length))
    (htrace : s'.trace = s.trace ++ [.received port .atType payload, .atInterrupt payload]) :
    Responds port s' := by
  have hsize := h.size
  have hshort := h.short
  have hpayload : (Mark.received port .atType payload).atPayload port = some payload :=
    if_pos ⟨rfl, hppp⟩
  refine ⟨?_, ?_, fun hnul => ?_⟩
  · rw [hbuf, length_strncat _ (by omega), hsize]
  · have hcut : ((cString (payload ++ [0])).take
        (60 - (cString (s.vport port).atRespBuf).length)).length ≤
          60 - (cString (s.vport port).atRespBuf).length := length_take_le ..
    rw [hbuf, cString_strncat, length_append]
    omega
  · rw [htrace] at hnul
    have hfree : 0 ∉ payload := by
      have := hnul (.received port .atType payload) (by simp)
      rwa [hpayload] at this
    have hold := h.text (NulFree.of_append hnul)
    have hnew : sinceCleared port s'.trace = sinceCleared port s.trace ++ payload := by
      rw [htrace, append_cons, sinceCleared_concat, sinceCleared_concat]
      rw [heard, heard, hpayload]
      simp [clears, atPayload]
    rw [hbuf, cString_strncat, cString_append_zero hfree, hold, hnew, take_append, length_take]
    congr 2
    omega

theorem payload_not_ppp {len : ℕ} (h : ¬ (p = 1 ∧ mem data = 0x7e)) :
    ¬ (p = 1 ∧ (window mem data len).head? = some 0x7e) := by
  rintro ⟨hone, hhead⟩
  rw [head?_window] at hhead
  split at hhead
  · exact h ⟨hone, Option.some.inj hhead⟩
  · cases hhead

theorem responds_recv (h : Responds port s) (p data len : ℕ) :
    Responds port (recvVportData p data len s) := by
  simp only [recvVportData]
  split
  · rename_i hppp
    rw [hppp.1]
    exact (h.mark rfl (atPayload_of_ppp hppp.2 _ len)).mark rfl rfl
  · rename_i hppp
    split
    · rename_i hraw
      have htype : (s.vport p).vportTypel ≠ .atType := by
        rw [hraw.2]
        decide
      have hquiet : (Mark.received p (s.vport p).vportTypel
          (window s.buf data len)).atPayload port = none := atPayload_of_type htype p _
      split
      · exact (h.mark rfl (by rw [hquiet]; rfl)).mark rfl rfl
      · exact h.mark rfl (by rw [hquiet]; rfl)
    · split
      · rename_i hat
        rw [hat]
        by_cases hp : p = port
        · subst hp
          refine responds_append h (payload_not_ppp hppp) ?_ (append_assoc ..)
          have hroom : (60 + 2 ^ 32 - (cString (s.vport p).atRespBuf).length) % 2 ^ 32 =
              60 - (cString (s.vport p).atRespBuf).length := by
            have := h.short
            omega
          have htext : window (update s.buf (data + len) 0) data (len + 1) =
              window s.buf data len ++ [0] := by
            rw [window_succ, window_update_of_ge _ (Nat.le_refl _), update_self]
          simp only [State.mark, State.setVport, State.store, update_self, hroom, htext]
        · -- another channel: the buffer of `port` is not touched
          have hquiet := atPayload_of_ne hp .atType (window s.buf data len)
          have hmarked : Responds port (s.mark (.received p .atType (window s.buf data len))) :=
            h.mark rfl (by rw [hquiet]; rfl)
          refine Responds.mark (hmarked.congr ?_ ?_) rfl rfl
          · exact congrArg Vport.atRespBuf (update_of_ne (Ne.symm hp) ..)
          · rfl
      · rename_i hat
        exact h.mark rfl (by rw [atPayload_of_type hat]; rfl)

/-! ## Every step -/

/-- A byte changes the channels only by a call of `recv_vport_data`. -/
theorem accept_channels (s : State) (b : UInt8) :
    (∃ p len, accept s b = recvVportData p 5 len { s with index := 0 }) ∨
      (accept s b).vport = s.vport ∧ (accept s b).trace = s.trace := by
  have hcases := accept_accepted s b
  generalize accept s b = s' at hcases ⊢
  cases hcases with
  | close => exact Or.inl ⟨_, _, rfl⟩
  | _ => exact Or.inr ⟨rfl, rfl⟩

theorem responds_step (hport : port < 4) (h : Responds port s) (action : Action) :
    Responds port (step s action) := by
  cases action with
  | parse now b =>
    have hexpire : Responds port (s.expire now) := h.congr rfl rfl
    rcases accept_channels (s.expire now) b with ⟨p, len, hstep⟩ | ⟨hvport, htrace⟩
    · have hidle : Responds port { s.expire now with index := 0 } := h.congr rfl rfl
      rw [step, parserCmuxPkg, hstep]
      exact responds_recv hidle p 5 len
    · exact hexpire.congr (by rw [step, parserCmuxPkg, hvport]) htrace
  | useAt p | ctrl p type recvDataCb => exact responds_setVport h rfl
  | respond p | send frame => exact h.mark rfl rfl
  | clear p =>
    by_cases hp : p = port
    · subst hp
      refine responds_cleared (congrArg Vport.atRespBuf (setVport_self s p _)) ?_ ?_
        (by simp [clears])
      · exact length_set.trans h.size
      · exact cString_set_zero (length_pos_iff.mp (by rw [h.size]; decide))
    · refine Responds.mark (h.congr ?_ ?_) (by simp [clears, hp]) rfl
      · exact congrArg Vport.atRespBuf (update_of_ne (Ne.symm hp) ..)
      · rfl
  | init =>
    refine responds_cleared (congrArg Vport.atRespBuf (if_pos hport)) ?_ ?_ rfl
    · exact length_replicate
    · rfl

theorem responds_boot (port : ℕ) : Responds port State.boot :=
  ⟨length_replicate, Nat.zero_le 60, fun _ => rfl⟩

/-- **The response buffer.**  After every interleaving of the steps of AT commands and
received bytes, the 64 bytes of the buffer of a channel hold a string of at most 60
characters.  A callback that is called then is given the first 60 characters of what
was received on the channel since the buffer was last emptied. -/
theorem at_response (port : ℕ) (hport : port < 4) (actions : List Action) :
    let s := run .boot actions
    (s.vport port).atRespBuf.length = 64 ∧ (cString (s.vport port).atRespBuf).length ≤ 60 ∧
      (NulFree port s.trace → (step s (.respond port)).trace = s.trace ++
        [.atCb port ((sinceCleared port s.trace).take 60) (s.vport port).dataLen]) := by
  have h : Responds port (run .boot actions) :=
    @replay_invariant _ _ step _ (Responds port) (fun _ action hs => responds_step hport hs action)
      (responds_boot port) actions
  refine ⟨h.size, h.short, fun hnul => ?_⟩
  rw [← h.text hnul]
  rfl

/-- A response in two frames, with a frame of another channel between them. -/
def twoFrames : List Action :=
  [.useAt 2, .clear 2] ++ (makeCmuxPkg (ascii "+CSQ: ") 2 ++ makeCmuxPkg (ascii "RING") 1 ++
    makeCmuxPkg (ascii "21,0") 2).map fun b => .parse 0 b

theorem at_response_two_frames :
    sinceCleared 2 (run .boot twoFrames).trace = ascii "+CSQ: 21,0" ∧
      (step (run .boot twoFrames) (.respond 2)).trace = (run .boot twoFrames).trace ++
        [.atCb 2 ((sinceCleared 2 (run .boot twoFrames).trace).take 60)
          ((run .boot twoFrames).vport 2).dataLen] := by
  have hnul : NulFree 2 (run .boot twoFrames).trace := by decide +kernel
  exact ⟨by decide +kernel, (at_response 2 (by decide) twoFrames).2.2 hnul⟩

end Easyio.Cmux
