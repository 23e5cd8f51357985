import Easyio.Kernel.MailboxSteps
import Easyio.Lists.Cyclic

/-!
# A mailbox is a bounded queue

The mails of a mailbox are the `entry` cells of `msg_pool` from `out_offset` on, around its
end.  A send that succeeds adds its value at the end and a receive that succeeds takes the
first one, so what was received and what is still in the mailbox are together what was sent,
in this order (`mailbox_refines_fifo`).
-/

namespace Easyio.Kernel

open Function Ipc List Easyio.Lists Nat Runs.Partial

namespace Ipc

namespace Mailbox

variable {mb : Mailbox} {value : ℕ}

/-- The mails, from the oldest to the newest. -/
def content (mb : Mailbox) : List ℕ := reading mb.msgPool mb.size mb.outOffset mb.entry

/-- What the counters and offsets of a mailbox have in common. -/
structure Ring (mb : Mailbox) : Prop where
  size_lt : mb.size < 2 ^ 16
  entry_le : mb.entry ≤ mb.size
  out_lt : mb.outOffset < max mb.size 1
  in_eq : mb.inOffset = (mb.outOffset + mb.entry) % mb.size

theorem advance_eq {offset : ℕ} (h : offset < mb.size) :
    mb.advance offset = (offset + 1) % mb.size := by
  unfold advance
  split
  · rw [show offset + 1 = mb.size by omega, mod_self]
  · rw [mod_eq_of_lt (by omega)]

theorem Ring.in_lt (h : mb.Ring) : mb.inOffset < max mb.size 1 := by
  have hout := h.out_lt
  have hentry := h.entry_le
  rw [h.in_eq]
  rcases Nat.eq_zero_or_pos mb.size with hzero | hpos
  · rw [hzero]
    omega
  · have := mod_lt (mb.outOffset + mb.entry) hpos
    omega

theorem Ring.put (h : mb.Ring) (hroom : mb.entry ≠ mb.size) : (mb.put value).Ring := by
  have hsmall := h.size_lt
  have hentry := h.entry_le
  have hpos : 0 < mb.size := by omega
  have hin : mb.inOffset < mb.size := by
    rw [h.in_eq]
    exact mod_lt _ hpos
  have hcount : (mb.entry + 1) % 2 ^ 16 = mb.entry + 1 := mod_eq_of_lt (by omega)
  refine ⟨hsmall, ?_, h.out_lt, ?_⟩
  · change (mb.entry + 1) % 2 ^ 16 ≤ mb.size
    omega
  · change mb.advance mb.inOffset = (mb.outOffset + (mb.entry + 1) % 2 ^ 16) % mb.size
    rw [advance_eq hin, hcount, h.in_eq, mod_add_mod, add_assoc]

theorem Ring.content_put (h : mb.Ring) (hroom : mb.entry ≠ mb.size) :
    (mb.put value).content = mb.content ++ [value] := by
  have hsmall := h.size_lt
  have hentry := h.entry_le
  have hcount : (mb.entry + 1) % 2 ^ 16 = mb.entry + 1 := mod_eq_of_lt (by omega)
  have hpool : update mb.msgPool mb.inOffset value =
      writing mb.msgPool mb.size (mb.outOffset + mb.entry) [value] := by
    rw [h.in_eq]
    rfl
  change reading (update mb.msgPool mb.inOffset value) mb.size mb.outOffset
    ((mb.entry + 1) % 2 ^ 16) = _
  rw [hcount, hpool]
  refine reading_writing_append ?_
  rw [length_singleton]
  omega

theorem Ring.take (h : mb.Ring) (hmail : mb.entry ≠ 0) : mb.take.Ring := by
  have hentry := h.entry_le
  have hout : mb.outOffset < mb.size := by
    have := h.out_lt
    omega
  have hadvance := advance_eq hout
  have hlt := mod_lt (mb.outOffset + 1) (zero_lt_of_lt hout)
  refine ⟨h.size_lt, ?_, ?_, ?_⟩
  · change mb.entry - 1 ≤ mb.size
    omega
  · change mb.advance mb.outOffset < max mb.size 1
    omega
  · change mb.inOffset = (mb.advance mb.outOffset + (mb.entry - 1)) % mb.size
    rw [hadvance, h.in_eq, mod_add_mod, add_assoc,
      Nat.add_sub_cancel' (Nat.one_le_iff_ne_zero.mpr hmail)]

theorem Ring.content_take (h : mb.Ring) (hmail : mb.entry ≠ 0) :
    mb.content = mb.msgPool mb.outOffset :: mb.take.content := by
  have hentry := h.entry_le
  have hout : mb.outOffset < mb.size := by
    have := h.out_lt
    omega
  have hsplit : mb.entry = 1 + (mb.entry - 1) := by omega
  have hrest : mb.take.content = reading mb.msgPool mb.size (mb.outOffset + 1) (mb.entry - 1) := by
    refine reading_of_mod_eq ?_
    change mb.advance mb.outOffset % mb.size = (mb.outOffset + 1) % mb.size
    rw [advance_eq hout, Nat.mod_mod]
  rw [hrest, content, hsplit, reading_add, reading_one, Nat.mod_eq_of_lt hout,
    Nat.add_sub_cancel_left]
  rfl

theorem length_content (mb : Mailbox) : mb.content.length = mb.entry := length_reading

end Mailbox

end Ipc

/-! ## Runs -/

/-- The values of the sends and of the receives that were successful. -/
structure MailLog where
  sent : List ℕ
  received : List ℕ
  deriving DecidableEq

/-- What an observer of the mailbox `i` notes of a step. -/
def MailLog.note (i : ℕ) (log : MailLog) (s : Ipc) (e : Event) (s' : Ipc) : MailLog :=
  match s.mailOp i e with
  | some (t, .send, value) =>
    if s'.pc t = .returned .eok .none then { log with sent := log.sent ++ [value] } else log
  | some (t, .recv, _) =>
    match s'.pc t with
    | .returned .eok (.mail value) => { log with received := log.received ++ [value] }
    | _ => log
  | none => log

namespace Ipc

variable {s s' : Ipc} {t i value : ℕ} {e : Event} {k : Side} {log : MailLog}

/-- The invariant of a mailbox and its observer. -/
structure Fifo (i size : ℕ) (c : Ipc × MailLog) : Prop where
  queued : c.1.sched.Queued
  ring : (c.1.mailbox i).Ring
  size_eq : (c.1.mailbox i).size = size
  content : c.2.received ++ (c.1.mailbox i).content = c.2.sent

theorem MailStep.ring (hring : (s.mailbox i).Ring) (hstep : MailStep k value s t i s') :
    (s'.mailbox i).Ring := by
  cases hstep with
  | done hopen hmailbox =>
    rw [hmailbox]
    cases k with
    | send => exact hring.put hopen
    | recv => exact hring.take hopen
  | waited _ _ _ hmailbox | failed _ _ _ _ hmailbox => exact hmailbox ▸ hring

/-- A step on the mailbox is successful and noted, or it changes no mail. -/
theorem MailStep.fifo (hop : s.mailOp i e = some (t, k, value)) (hring : (s.mailbox i).Ring)
    (hcontent : log.received ++ (s.mailbox i).content = log.sent)
    (hstep : MailStep k value s t i s') :
    (s'.mailbox i).size = (s.mailbox i).size ∧
      (log.note i s e s').received ++ (s'.mailbox i).content = (log.note i s e s').sent ∧
      (log.note i s e s' = log → s'.mailbox i = s.mailbox i) := by
  cases hstep with
  | done hopen hmailbox _ hpc =>
    have hself : s'.pc t = .returned .eok (k.output (s.mailbox i)) := by
      rw [hpc, update_self]
    rw [hmailbox]
    cases k with
    | send =>
      have hlog : log.note i s e s' = { log with sent := log.sent ++ [value] } := by
        simp only [MailLog.note, hop]
        exact if_pos hself
      refine ⟨rfl, ?_, fun hsame => ?_⟩
      · rw [hlog]
        change log.received ++ ((s.mailbox i).put value).content = log.sent ++ [value]
        rw [hring.content_put hopen, ← hcontent, append_assoc]
      · have hlength := congrArg (fun log => log.sent.length) (hlog.symm.trans hsame)
        simp at hlength
    | recv =>
      have hlog : log.note i s e s' = { log with
          received := log.received ++ [(s.mailbox i).msgPool (s.mailbox i).outOffset] } := by
        simp only [MailLog.note, hop, hself, Side.output]
      refine ⟨rfl, ?_, fun hsame => ?_⟩
      · rw [hlog, ← hcontent, hring.content_take hopen]
        exact append_assoc ..
      · have hlength := congrArg (fun log => log.received.length) (hlog.symm.trans hsame)
        simp at hlength
  | waited time start _ hmailbox _ _ hpc =>
    have hlog : log.note i s e s' = log := by
      have hself : s'.pc t = k.pc i value time start := by rw [hpc, update_self]
      cases k with
      | send =>
        simp only [MailLog.note, hop, hself]
        exact if_neg Pc.noConfusion
      | recv => simp only [MailLog.note, hop, hself, Side.pc]
    rw [hmailbox, hlog]
    exact ⟨rfl, hcontent, fun _ => rfl⟩
  | failed err n herr _ hmailbox _ _ hpc =>
    have hlog : log.note i s e s' = log := by
      have hself : s'.pc t = .returned err .none := by rw [hpc, update_self]
      cases k with
      | send =>
        simp only [MailLog.note, hop, hself]
        exact if_neg fun heq => herr (Pc.returned.inj heq).1
      | recv => simp only [MailLog.note, hop, hself]
    rw [hmailbox, hlog]
    exact ⟨rfl, hcontent, fun _ => rfl⟩

theorem mailbox_of_obj (h : s.sched.Queued) (hs : s.step e = some s')
    (hobj : s.obj e ≠ some (.mailbox i)) : s'.mailbox i = s.mailbox i := by
  by_cases htimeout : ∃ t, e = .timeout t
  · obtain ⟨t, rfl⟩ := htimeout
    rw [(expired_step hs).2.1]
  · exact (framed_step h (fun t he => htimeout ⟨t, he⟩) hs).mailbox i hobj

theorem Fifo.step {size : ℕ} {c c' : Ipc × MailLog} (h : Fifo i size c)
    (hnoted : observing Ipc.step (MailLog.note i) c e = some c') :
    Fifo i size c' ∧ (c'.2 = c.2 → c'.1.mailbox i = c.1.mailbox i) := by
  obtain ⟨s, log⟩ := c
  obtain ⟨s', log'⟩ := c'
  obtain ⟨hs, rfl⟩ : s.step e = some s' ∧ log' = log.note i s e s' := observing_eq hnoted
  have hqueued := queued_step h.queued hs
  by_cases hobj : s.obj e = some (.mailbox i)
  · obtain ⟨t, k, value, hop, -, -, -, hstep⟩ := mailStep h.queued hs hobj
    obtain ⟨hsize, hcontent, hsame⟩ := hstep.fifo hop h.ring h.content
    exact ⟨⟨hqueued, hstep.ring h.ring, hsize.trans h.size_eq, hcontent⟩, hsame⟩
  · have hmailbox := mailbox_of_obj h.queued hs hobj
    have hlog : log.note i s e s' = log := by
      simp only [MailLog.note, mailOp_eq_none hobj]
    refine ⟨⟨hqueued, ?_, ?_, ?_⟩, fun _ => hmailbox⟩
    · exact hmailbox ▸ h.ring
    · exact (congrArg Mailbox.size hmailbox).trans h.size_eq
    · rw [hlog, hmailbox]
      exact h.content

theorem rtMbInit_mailbox (s : Ipc) (i : ℕ) (pool : ℕ → ℕ) (size : ℕ) (flag : Flag) :
    (s.rtMbInit i pool size flag).mailbox i =
      { msgPool := pool, size := size % 2 ^ 16, entry := 0, inOffset := 0, outOffset := 0, flag } :=
  update_self ..

theorem ring_rtMbInit (s : Ipc) (i : ℕ) (pool : ℕ → ℕ) (size : ℕ) (flag : Flag) :
    ((s.rtMbInit i pool size flag).mailbox i).Ring := by
  rw [rtMbInit_mailbox]
  refine ⟨mod_lt _ (by decide), zero_le _, ?_, (zero_mod _).symm⟩
  exact Nat.lt_of_lt_of_le Nat.zero_lt_one (Nat.le_max_right ..)

/-- **A mailbox refines a bounded queue.**  After `rt_mb_init` with any `size` of at least 1, in
every run of any calls of any threads, with timeouts and clock interrupts in between, the
values received and those still in the mailbox are the values sent, in the order of the
sends.  There are `entry` mails in it, not more than its size, the offsets stay below `size`,
and a step that neither sends nor receives a mail leaves the mailbox as it is. -/
theorem mailbox_refines_fifo (h : s.sched.Queued) (i : ℕ) (pool : ℕ → ℕ) (size : ℕ)
    (hsize : 1 ≤ size) (flag : Flag) (events : List Event)
    (hrun : run (observing step (MailLog.note i)) (s.rtMbInit i pool size flag, ⟨[], []⟩) events =
      some (s', log)) :
    log.received ++ (s'.mailbox i).content = log.sent ∧
      (s'.mailbox i).content.length = (s'.mailbox i).entry ∧
      (s'.mailbox i).entry ≤ (s'.mailbox i).size ∧ (s'.mailbox i).size = size % 2 ^ 16 ∧
      (s'.mailbox i).inOffset < size ∧ (s'.mailbox i).outOffset < size ∧
      ∀ e c, observing step (MailLog.note i) (s', log) e = some c → c.2 = log →
        c.1.mailbox i = s'.mailbox i := by
  have hstart : Fifo i (size % 2 ^ 16) (s.rtMbInit i pool size flag, ⟨[], []⟩) :=
    ⟨queued_rtMbInit h pool size flag, ring_rtMbInit .., by rw [rtMbInit_mailbox], by
      rw [rtMbInit_mailbox]
      rfl⟩
  have hend := run_invariant (fun _ _ _ h hs => (Fifo.step h hs).1) hrun hstart
  have hle : max (s'.mailbox i).size 1 ≤ size :=
    Nat.max_le.mpr ⟨hend.size_eq ▸ Nat.mod_le size _, hsize⟩
  exact ⟨hend.content, Mailbox.length_content _, hend.ring.entry_le, hend.size_eq,
    lt_of_lt_of_le hend.ring.in_lt hle, lt_of_lt_of_le hend.ring.out_lt hle,
    fun e c hs hsame => (hend.step hs).2 hsame⟩

/-- A mailbox for one mail.  Thread 2 has to wait until thread 3 has taken the first mail. -/
theorem mailbox_refines_fifo_one :
    ∃ s' log, run (observing step (MailLog.note 0))
        ((fresh (started [(1, 20), (2, 15), (3, 10)])).rtMbInit 0 (fun _ => 0) 1 .fifo, ⟨[], []⟩)
        [.call 1 (.mbSend 0 7), .call 2 (.mbSendWait 0 8 (-1)), .call 3 (.mbRecv 0 0), .resume 2] =
          some (s', log) ∧
      log = ⟨[7, 8], [7]⟩ ∧ log.received ++ (s'.mailbox 0).content = log.sent := by
  refine exists_pair_of_any (fun _ log => log = ⟨[7, 8], [7]⟩) (by decide +kernel) ?_
  intro s' log hs hlog
  have hqueued := queued_started [(1, 20), (2, 15), (3, 10)]
  exact ⟨hlog, (mailbox_refines_fifo hqueued 0 _ 1 (le_refl 1) .fifo _ hs).1⟩

end Ipc

end Easyio.Kernel
