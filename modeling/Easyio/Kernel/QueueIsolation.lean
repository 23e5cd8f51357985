import Easyio.Kernel.Payload
import Easyio.Kernel.QueueMessages

/-!
# What a receiver learns of earlier messages

`rt_mq_recv` copies as many bytes as it is asked for, also when the message is shorter, and the
node still has the bytes of an earlier message behind it.  A receiver that asks for more than
was sent gets them (`stale_bytes_leak`).  If nobody does, two runs that differ in the bytes of
one message only differ in what the receiver of this message gets (`message_isolation`).
-/

namespace Easyio.Kernel

open List Option Ipc Easyio.Lists Runs.Partial QueueLog

def Stage.bare : Stage → Stage
  | .fill msg buffer urgent => .fill msg (blank buffer) urgent
  | .free msg _ => .free msg []
  | stage => stage

/-- The log without the bytes of the messages. -/
def QueueLog.bare (log : QueueLog) : QueueLog :=
  { log with
    buffer := fun t => blank (log.buffer t)
    sent := log.sent.map blank
    received := log.received.map ({ · with bytes := [] }) }

theorem stage_bare (pc : Pc) (i : ℕ) : pc.bare.stage i = (pc.stage i).bare := by
  cases pc with
  | mqFill j msg buffer urgent | mqLink j msg urgent | mqCopy j msg size | mqFree j msg bytes =>
    simp only [Pc.bare, Pc.stage]; split <;> rfl
  | _ => rfl

namespace QueueLog

variable {log log' : QueueLog} {i : ℕ} {s s' r r' : Ipc} {e e' : Event}

section

variable (log : QueueLog) (t : ℕ)

theorem bare_hold (buffer : List ℕ) : (log.hold t buffer).bare = log.bare.hold t (blank buffer) :=
  QueueLog.ext (Function.comp_update blank log.buffer t buffer) rfl rfl rfl rfl

theorem bare_link (urgent : Bool) : (log.link t urgent).bare = log.bare.link t urgent := by
  refine QueueLog.ext rfl map_append ?_ rfl rfl
  change entered urgent log.sent.length log.queue =
    entered urgent (log.sent.map blank).length log.queue
  rw [length_map]

theorem bare_receive (bytes : List ℕ) : (log.receive t bytes).bare = log.bare.receive t [] := by
  cases h : log.taken t with
  | none =>
    rw [receive, receive, h, show log.bare.taken t = none from h]
  | some mark =>
    rw [receive, receive, h, show log.bare.taken t = some mark from h]
    exact QueueLog.ext rfl rfl rfl rfl map_append

theorem bare_move (before after : Stage) :
    (log.move t before after).bare = log.bare.move t before.bare after.bare := by
  cases before with
  | outside =>
    cases after with
    | fill msg buffer urgent => exact bare_hold ..
    | _ => rfl
  | link msg urgent => cases after <;> exact bare_link ..
  | free msg bytes => cases after <;> exact bare_receive ..
  | _ => cases after <;> rfl

end

theorem bare_note (hlog : log'.bare = log.bare) (hs : r.bare = s.bare) (he : e'.bare = e.bare)
    (hs' : r'.bare = s'.bare) : (log'.note i r e' r').bare = (log.note i s e s').bare := by
  have hactor : e'.actor = e.actor := by
    have hbare : ∀ e : Event, e.bare.actor = e.actor := fun e => by cases e <;> rfl
    rw [← hbare, he, hbare]
  have hstage : ∀ {a b : Ipc} (t : ℕ), a.bare = b.bare →
      (a.stages i t).bare = (b.stages i t).bare := by
    intro a b t hab
    rw [stages, stages, ← stage_bare, ← stage_bare]
    exact congrArg (fun c => (Ipc.pc c t).stage i) hab
  rw [note, note, hactor]
  cases e.actor with
  | none => exact hlog
  | some t =>
    change (log'.move t _ _).bare = (log.move t _ _).bare
    rw [bare_move, bare_move, hlog, hstage t hs, hstage t hs']

end QueueLog

namespace Ipc

variable {s s' r r' : Ipc} {i : ℕ} {log log' : QueueLog} {events events' : List Event}

theorem bare_run (i : ℕ) (hevents : events'.map Event.bare = events.map Event.bare)
    (hrun : run (observing step (note i)) (s, log) events = some (s', log')) {c : Ipc × QueueLog}
    (hrun' : run (observing step (note i)) (s, log) events' = some c) :
    c.1.bare = s'.bare ∧ c.2.bare = log'.bare := by
  have hstep : ∀ (c c' : Ipc × QueueLog) (e e' : Event),
      (c'.1.bare, c'.2.bare) = (c.1.bare, c.2.bare) → e'.bare = e.bare →
      (observing step (note i) c' e').map (fun c => (c.1.bare, c.2.bare)) =
        (observing step (note i) c e).map fun c => (c.1.bare, c.2.bare) := by
    intro c c' e e' hc he
    obtain ⟨hs, hlog⟩ := Prod.mk.inj hc
    have hnext : (c'.1.step e').map bare = (c.1.step e).map bare := by
      rw [bare_step, hs, he, ← bare_step]
    change ((c'.1.step e').map _).map _ = ((c.1.step e).map _).map _
    cases h : c.1.step e with
    | none =>
      rw [h] at hnext
      rw [map_eq_none_iff.mp hnext]
      rfl
    | some s₁ =>
      rw [h] at hnext
      obtain ⟨s₁', h', hbare⟩ := map_eq_some_iff.mp hnext
      rw [h']
      exact congrArg some (Prod.ext hbare (bare_note hlog hs he hbare))
  have hsame := run_map_congr hstep hevents (s := (s, log)) rfl
  rw [hrun, hrun'] at hsame
  exact Prod.mk.inj (some.inj hsame)

end Ipc

/-- A receiver that asks for no more bytes than the message has gets bytes of the message
only. -/
theorem QueueLog.Copied.eq_take {log : QueueLog} {mq : MessageQueue} {k size : ℕ}
    {b bytes : List ℕ} (h : log.Copied mq k size bytes) (hb : log.sent[k]? = some b)
    (hfit : min size mq.msgSize ≤ b.length) : bytes = b.take (min size mq.msgSize) := by
  obtain ⟨b', hb', -, d, hpre, rfl⟩ := h
  obtain rfl : b = b' := some.inj (hb.symm.trans hb')
  rw [prefix_iff_eq_take.mp hpre, take_take, Nat.min_eq_left hfit]

theorem Reception.eq_of_map_eq {later later' : List Reception}
    (hmap : later'.map ({ · with bytes := [] }) = later.map ({ · with bytes := [] }))
    (hbytes : ∀ q ∈ later, ∀ q' ∈ later', q'.message = q.message → q'.size = q.size →
      q'.bytes = q.bytes) : later' = later := by
  induction later generalizing later' with
  | nil => exact map_eq_nil_iff.mp hmap
  | cons q rest ih =>
    obtain ⟨q', rest', rfl, hq, hrest⟩ := map_eq_cons_iff.mp hmap
    obtain ⟨hmessage, hsize, -⟩ := Reception.mk.inj hq
    have hself := hbytes q mem_cons_self q' mem_cons_self hmessage hsize
    rw [Reception.ext hmessage hsize hself, ih hrest fun a ha a' ha' =>
      hbytes a (mem_cons_of_mem q ha) a' (mem_cons_of_mem q' ha')]

namespace Ipc

variable {s s' r' : Ipc} {i : ℕ} {log log' : QueueLog} {events events' : List Event}

/-- **Messages are isolated, if nobody asks for more than was sent.**  Take two runs after
`rt_mq_init` with the same calls, but for the bytes of the messages, in which all messages but
that of number `k` are the same.  If every receive that ends after that of `k` asks for no more
bytes than its message has, these receives get the same in both runs. -/
theorem message_isolation (h : s.sched.Queued) (i : ℕ)
    (hidle : ∀ t, (s.pc t).obj ≠ some (.queue i)) (msgPool : ℕ → ℕ) (msgSize poolSize : ℕ)
    (flag : Flag) (events events' : List Event)
    (hevents : events'.map Event.bare = events.map Event.bare) (hrun : run (observing step (note i))
      (s.rtMqInit i msgPool msgSize poolSize flag, .empty) events = some (s', log))
    (hrun' : run (observing step (note i))
      (s.rtMqInit i msgPool msgSize poolSize flag, .empty) events' = some (r', log'))
    (k : ℕ) (hsame : ∀ m, m ≠ k → log'.sent[m]? = log.sent[m]?)
    (earlier later : List Reception) (r : Reception)
    (hreceived : log.received = earlier ++ r :: later) (hr : r.message = k)
    (hfit : ∀ q ∈ later, ∀ b, log.sent[q.message]? = some b →
      min q.size (mqMsgSize msgSize) ≤ b.length) :
    ∃ earlier' r', log'.received = earlier' ++ r' :: later ∧ r'.message = k := by
  obtain ⟨-, hlook⟩ := bare_run i hevents hrun hrun'
  obtain ⟨_, _, _, hmessages⟩ := (observed_run h hidle msgPool msgSize poolSize flag hrun).delivered
  have hsize := (observed_run h hidle msgPool msgSize poolSize flag hrun).msgSize
  obtain ⟨_, _, _, hmessages'⟩ :=
    (observed_run h hidle msgPool msgSize poolSize flag hrun').delivered
  have hsize' := (observed_run h hidle msgPool msgSize poolSize flag hrun').msgSize
  -- the receptions of the second run, up to their bytes
  have hmarks : log'.received.map _ = log.received.map _ := congrArg received hlook
  rw [hreceived, map_append, map_cons] at hmarks
  obtain ⟨earlier', rest, hsplit, -, hrest⟩ := map_eq_append_iff.mp hmarks
  obtain ⟨r', later', rfl, hr', hlater⟩ := map_eq_cons_iff.mp hrest
  refine ⟨earlier', r', ?_, (Reception.mk.inj hr').1.trans hr⟩
  rw [hsplit, Reception.eq_of_map_eq hlater fun q hq q' hq' hmessage hqsize => ?_]
  have hmem : q ∈ log.received := hreceived ▸ mem_append_right _ (mem_cons_of_mem r hq)
  have hmem' : q' ∈ log'.received := hsplit ▸ mem_append_right _ (mem_cons_of_mem r' hq')
  have hne : q.message ≠ k := by
    have hnodup := (nodup_append.mp hmessages.custody.nodup).2.1
    rw [hreceived, map_append, map_cons] at hnodup
    have hnot := (nodup_cons.mp (nodup_append.mp hnodup).2.1).1
    exact fun he => hnot (List.mem_map.mpr ⟨q, hq, he.trans hr.symm⟩)
  have hcopied := hmessages.received q hmem
  obtain ⟨b, hb, -⟩ := hcopied.take_eq
  have hb' : log'.sent[q'.message]? = some b := by rw [hmessage, hsame q.message hne, hb]
  have hq := hfit q hq b hb
  have hfirst : q.bytes = b.take (min q.size (mqMsgSize msgSize)) :=
    hsize ▸ hcopied.eq_take hb (hsize.symm ▸ hq)
  have hsecond : q'.bytes = b.take (min q'.size (mqMsgSize msgSize)) :=
    hsize' ▸ (hmessages'.received q' hmem').eq_take hb' (hsize'.symm ▸ hqsize.symm ▸ hq)
  rw [hfirst, hsecond, hqsize]

/-- A queue with one node of four bytes. -/
def oneNode : Ipc := (fresh (started [(1, 20), (2, 15)])).rtMqInit 0 (fun _ => 0) 4 8 .fifo

/-- Thread 2 receives a message of four bytes, and then one of one byte. -/
def secretThenShort (secret : List ℕ) (size : ℕ) : List Event :=
  [.call 1 (.mqSend 0 secret), .resume 1, .resume 1, .call 2 (.mqRecv 0 4 0), .resume 2, .resume 2,
    .call 1 (.mqSend 0 [5]), .resume 1, .resume 1, .call 2 (.mqRecv 0 size 0), .resume 2, .resume 2]

/-- What the observer has noted at the end. -/
def sentAndReceived (events : List Event) : Option (List (List ℕ) × List Reception) :=
  (run (observing step (note 0)) (oneNode, .empty) events).map fun c =>
    (c.2.sent, c.2.received)

theorem same_but_first {secret secret' : List ℕ} :
    ∀ m, m ≠ 0 → [secret', [5]][m]? = [secret, [5]][m]? := by
  intro m hm
  obtain ⟨n, rfl⟩ := Nat.exists_eq_succ_of_ne_zero hm
  rfl

theorem message_isolation_short :
    ∃ s' log r' log',
      run (observing step (note 0)) (oneNode, .empty) (secretThenShort [1, 2, 3, 4] 1) =
        some (s', log) ∧
      run (observing step (note 0)) (oneNode, .empty) (secretThenShort [9, 9, 9, 9] 1) =
        some (r', log') ∧
      ∃ earlier' r, log'.received = earlier' ++ r :: [⟨1, 1, [5]⟩] ∧ r.message = 0 := by
  have hrun : sentAndReceived (secretThenShort [1, 2, 3, 4] 1) =
      some ([[1, 2, 3, 4], [5]], [⟨0, 4, [1, 2, 3, 4]⟩, ⟨1, 1, [5]⟩]) := by decide +kernel
  have hrun' : sentAndReceived (secretThenShort [9, 9, 9, 9] 1) =
      some ([[9, 9, 9, 9], [5]], [⟨0, 4, [9, 9, 9, 9]⟩, ⟨1, 1, [5]⟩]) := by decide +kernel
  obtain ⟨⟨s', log⟩, hs, hlog⟩ := map_eq_some_iff.mp hrun
  obtain ⟨⟨r', log'⟩, hs', hlog'⟩ := map_eq_some_iff.mp hrun'
  obtain ⟨hsent, hreceived⟩ := Prod.mk.inj hlog
  obtain ⟨hsent', -⟩ := Prod.mk.inj hlog'
  have hqueued := queued_fresh [(1, 20), (2, 15)]
  refine ⟨s', log, r', log', hs, hs', ?_⟩
  refine message_isolation hqueued 0 (fun t => (some_ne_none _).symm) (fun _ => 0) 4 8 .fifo
    (secretThenShort [1, 2, 3, 4] 1) (secretThenShort [9, 9, 9, 9] 1) rfl hs hs' 0 ?_ []
    [⟨1, 1, [5]⟩] ⟨0, 4, [1, 2, 3, 4]⟩ hreceived rfl fun q hq b hb => ?_
  · rw [hsent, hsent']
    exact same_but_first
  · rw [mem_singleton.mp hq, hsent] at hb
    obtain rfl : [5] = b := some.inj hb
    rw [mem_singleton.mp hq]
    decide

/-- Thread 2 asks for four bytes of a message of one byte, and gets three bytes of the message
before. -/
theorem stale_bytes_leak :
    ∃ s' log r' log', (secretThenShort [9, 9, 9, 9] 4).map Event.bare =
        (secretThenShort [1, 2, 3, 4] 4).map Event.bare ∧
      run (observing step (note 0)) (oneNode, .empty) (secretThenShort [1, 2, 3, 4] 4) =
        some (s', log) ∧
      run (observing step (note 0)) (oneNode, .empty) (secretThenShort [9, 9, 9, 9] 4) =
        some (r', log') ∧
      (∀ m, m ≠ 0 → log'.sent[m]? = log.sent[m]?) ∧
      log.received = [⟨0, 4, [1, 2, 3, 4]⟩, ⟨1, 4, [5, 2, 3, 4]⟩] ∧
      log'.received = [⟨0, 4, [9, 9, 9, 9]⟩, ⟨1, 4, [5, 9, 9, 9]⟩] := by
  have hrun : sentAndReceived (secretThenShort [1, 2, 3, 4] 4) =
      some ([[1, 2, 3, 4], [5]], [⟨0, 4, [1, 2, 3, 4]⟩, ⟨1, 4, [5, 2, 3, 4]⟩]) := by decide +kernel
  have hrun' : sentAndReceived (secretThenShort [9, 9, 9, 9] 4) =
      some ([[9, 9, 9, 9], [5]], [⟨0, 4, [9, 9, 9, 9]⟩, ⟨1, 4, [5, 9, 9, 9]⟩]) := by decide +kernel
  obtain ⟨⟨s', log⟩, hs, hlog⟩ := map_eq_some_iff.mp hrun
  obtain ⟨⟨r', log'⟩, hs', hlog'⟩ := map_eq_some_iff.mp hrun'
  obtain ⟨hsent, hreceived⟩ := Prod.mk.inj hlog
  obtain ⟨hsent', hreceived'⟩ := Prod.mk.inj hlog'
  refine ⟨s', log, r', log', rfl, hs, hs', ?_, hreceived, hreceived'⟩
  rw [hsent, hsent']
  exact same_but_first

end Ipc

end Easyio.Kernel
