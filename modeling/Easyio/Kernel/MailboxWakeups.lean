import Mathlib.Data.Set.Card
import Easyio.Kernel.MailboxFifo

/-!
# No lost wake-up of a mailbox

A thread that is woken may find that another one took the mail, or the room, and waits again.
So mails may be there while a receiver waits, but only if other receivers have been woken and
have not looked yet: as many as there are mails.  The same holds for senders and the room
(`no_lost_wakeup`).
-/

namespace Easyio.Kernel

open Function List Ipc Runs.Partial

namespace Ipc

variable {s s' : Ipc} {t i value u : ℕ} {e : Event} {k : Side} {mb : Mailbox}

/-- The threads of a side that have been resumed by the other side and have not run since. -/
def woken (k : Side) (i : ℕ) (s : Ipc) : Set ℕ :=
  { u | (∃ value timeout start, s.pc u = k.pc i value timeout start) ∧
    (s.sched.thread u).stat = .ready ∧ (s.sched.thread u).error = .eok }

/-- If a thread of a side waits, at least as many have been woken as can go on. -/
def NoLostWakeup (i : ℕ) (s : Ipc) : Prop :=
  ∀ k : Side, s.sched.waiting (k.wait i) ≠ [] →
    (k.level (s.mailbox i) : ℕ∞) ≤ (woken k i s).encard

theorem mem_woken_of_same (hu : u ∈ woken k i s) (hpc : s'.pc u = s.pc u)
    (hnote : s'.sched.note u = s.sched.note u) : u ∈ woken k i s' := by
  obtain ⟨hinside, hready, herror⟩ := hu
  exact ⟨hpc ▸ hinside, (congrArg Note.stat hnote).trans hready,
    (congrArg Note.error hnote).trans herror⟩

/-- The invariant of one side. -/
structure Attended (k : Side) (i : ℕ) (s : Ipc) : Prop where
  inside : ∀ u ∈ s.sched.waiting (k.wait i),
    (∃ value timeout start, s.pc u = k.pc i value timeout start) ∧ (s.sched.note u).error = .eok
  level : s.sched.waiting (k.wait i) ≠ [] →
    (k.level (s.mailbox i) : ℕ∞) ≤ (woken k i s).encard

namespace Attended

theorem of_same (h : Attended k i s) (hmailbox : s'.mailbox i = s.mailbox i)
    (hwaiting : ∀ u ∈ s'.sched.waiting (k.wait i), u ∈ s.sched.waiting (k.wait i) ∧
      s'.pc u = s.pc u ∧ s'.sched.note u = s.sched.note u)
    (hwoken : woken k i s ⊆ woken k i s') : Attended k i s' := by
  refine ⟨fun u hu => ?_, fun hne => ?_⟩
  · obtain ⟨hin, hpc, hnote⟩ := hwaiting u hu
    rw [hpc, hnote]
    exact h.inside u hin
  · obtain ⟨u, rest, hlist⟩ := exists_cons_of_ne_nil hne
    have hin := (hwaiting u (hlist ▸ mem_cons_self ..)).1
    rw [hmailbox]
    exact (h.level (ne_nil_of_mem hin)).trans (Set.encard_le_encard hwoken)

theorem timeout (hqueued : s.sched.Queued) (h : Attended k i s)
    (hs : s.step (.timeout t) = some s') : Attended k i s' := by
  obtain ⟨hself, hs', hwaiting, hnote⟩ := expired_step hs
  have hpc : s'.pc = s.pc := by rw [hs']
  have hother : ∀ u ≠ t, s'.sched.note u = s.sched.note u := fun u hu => by
    rw [hnote, update_of_ne hu]
  refine h.of_same (by rw [hs']) (fun u hu => ?_) fun u hu => ?_
  · rw [hwaiting] at hu
    obtain ⟨hut, hin⟩ := (hqueued.waitingNodup _).mem_erase_iff.mp hu
    exact ⟨hin, by rw [hpc], hother u hut⟩
  · have hut : u ≠ t := by
      rintro rfl
      exact Stat.noConfusion (hu.2.1.symm.trans (congrArg Note.stat hself))
    exact mem_woken_of_same hu (by rw [hpc]) (hother u hut)

theorem of_other (hqueued : s.sched.Queued) (h : Attended k i s) (he : ∀ t, e ≠ .timeout t)
    (hs : s.step e = some s') (hobj : s.obj e ≠ some (.mailbox i)) : Attended k i s' := by
  have hframed := framed_step hqueued he hs
  have hw : s.obj e ≠ some (k.wait i).obj := by rwa [Side.wait_obj]
  refine h.of_same (hframed.mailbox i hobj) (fun u hu => ?_) fun u hu => ?_
  · rw [hframed.waiting _ hw] at hu
    obtain ⟨hnote, hpc⟩ := note_of_waiting hqueued he hs hw hu
    exact ⟨hu, hpc, hnote⟩
  · obtain ⟨value, timeout, start, hpc⟩ := hu.1
    have ha : e.actor ≠ some u := fun ha =>
      hobj (obj_of_actor hs ha (by rw [hpc, Side.pc_obj]))
    exact mem_woken_of_same hu (hframed.pc u ha)
      (note_of_ready hqueued he hs ha hu.2.1)

end Attended

/-! ## Steps on the mailbox -/

theorem level_of_blocked (h : k.blocked mb) : k.level mb = 0 := by
  cases k with
  | recv => exact h
  | send => exact Nat.sub_eq_zero_of_le (Nat.le_of_eq h.symm)

/-- A mail more is room less, and the other way round. -/
theorem level_act (hring : mb.Ring) (hopen : ¬ k.blocked mb) (value : ℕ) :
    k.level mb = k.level (k.act mb value) + 1 ∧
      k.other.level (k.act mb value) = k.other.level mb + 1 := by
  have hsmall := hring.size_lt
  have hentry := hring.entry_le
  cases k with
  | recv =>
    have hpos : mb.entry ≠ 0 := hopen
    constructor
    · change mb.entry = mb.entry - 1 + 1
      omega
    · change mb.size - (mb.entry - 1) = mb.size - mb.entry + 1
      omega
  | send =>
    have hroom : mb.entry ≠ mb.size := hopen
    constructor
    · change mb.size - mb.entry = mb.size - (mb.entry + 1) % 2 ^ 16 + 1
      omega
    · change (mb.entry + 1) % 2 ^ 16 = mb.entry + 1
      omega

/-- The caller is the only one of the threads that wait or are woken whose `pc` changes. -/
theorem MailStep.pc_of_ne (hstep : MailStep k value s t i s') (hu : u ≠ t) : s'.pc u = s.pc u := by
  cases hstep with
  | done _ _ _ hpc | waited _ _ _ _ _ _ hpc | failed _ _ _ _ _ _ _ hpc => rw [hpc, update_of_ne hu]

theorem Attended.own (hqueued : s.sched.Queued) (hring : (s.mailbox i).Ring)
    (h : Attended k i s) (ht : (s.sched.thread t).stat = .ready)
    (hstep : MailStep k value s t i s') :
    Attended k i s' := by
  have hnot : ∀ u ∈ s.sched.waiting (k.wait i), u ≠ t := hqueued.ne_of_waiting ht
  have hpcs : ∀ u ≠ t, s'.pc u = s.pc u := fun u hu => hstep.pc_of_ne hu
  cases hstep with
  | done hopen hmailbox hwoken hpc =>
    -- the threads that wait or are woken on this side are not in the list of the other
    have hnotes : ∀ u ≠ t, u ∈ s.sched.waiting (k.wait i) ∨ u ∈ woken k i s →
        s'.sched.note u = s.sched.note u := by
      intro u hu hor
      refine hwoken.note_of_not_mem fun hin => ?_
      rcases hor with hwait | hwake
      · exact k.wait_other_ne i (hqueued.waitingOnce u _ _ hin hwait)
      · exact hqueued.not_waiting hwake.2.1 _ hin
    have hlist := hwoken.waiting_of_ne (k.wait_other_ne i).symm
    refine ⟨fun u hu => ?_, fun hne => ?_⟩
    · rw [hlist] at hu
      rw [hpcs u (hnot u hu), hnotes u (hnot u hu) (.inl hu)]
      exact h.inside u hu
    · rw [hlist] at hne
      have hlevel := h.level hne
      rw [(level_act hring hopen value).1, ← hmailbox] at hlevel
      have hsub : woken k i s ⊆ insert t (woken k i s') := fun u hu =>
        (eq_or_ne u t).imp_right fun hut =>
          mem_woken_of_same hu (hpcs u hut) (hnotes u hut (.inr hu))
      have hle : (woken k i s).encard ≤ (woken k i s').encard + 1 :=
        (Set.encard_le_encard hsub).trans (Set.encard_insert_le ..)
      have hboth := hlevel.trans hle
      exact (ENat.add_le_add_iff_right ENat.one_ne_top).mp hboth
  | waited time start hblocked hmailbox hwaiting hnote hpc =>
    have hself : s'.sched.waiting (k.wait i) = Sched.place s.sched.view.priority t
        (s.sched.waiting (k.wait i)) (s.mailbox i).flag := by
      rw [hwaiting, update_self]
    refine ⟨fun u hu => ?_, fun _ => ?_⟩
    · rw [hself, Sched.mem_place] at hu
      rcases hu with rfl | hu
      · rw [hnote, update_self]
        exact ⟨⟨value, time, start, by rw [hpc, update_self]⟩, rfl⟩
      · rw [hpcs u (hnot u hu), hnote, update_of_ne (hnot u hu)]
        exact h.inside u hu
    · rw [hmailbox, level_of_blocked hblocked]
      exact zero_le
  | failed err n herr hwhy hmailbox hwaiting hnote hpc =>
    refine ⟨fun u hu => ?_, fun hne => ?_⟩
    · rw [hwaiting] at hu
      rw [hpcs u (hnot u hu), hnote, update_of_ne (hnot u hu)]
      exact h.inside u hu
    · rw [hwaiting] at hne
      rw [hmailbox]
      rcases hwhy with hblocked | herror
      · rw [level_of_blocked hblocked]
        exact zero_le
      · refine (h.level hne).trans (Set.encard_le_encard fun u hu => ?_)
        have hut : u ≠ t := fun he => herror (he ▸ hu.2.2)
        exact mem_woken_of_same hu (hpcs u hut) (by rw [hnote, update_of_ne hut])

theorem Attended.other (hqueued : s.sched.Queued) (hring : (s.mailbox i).Ring)
    (h : Attended k.other i s) (ht : (s.sched.thread t).stat = .ready)
    (hout : Outside k i (s.pc t)) (hstep : MailStep k value s t i s') : Attended k.other i s' := by
  have hnot : ∀ u ∈ s.sched.waiting (k.other.wait i), u ≠ t := hqueued.ne_of_waiting ht
  have hpcs : ∀ u ≠ t, s'.pc u = s.pc u := fun u hu => hstep.pc_of_ne hu
  have hawake : ∀ u ∈ woken k.other i s, u ≠ t := by
    rintro u ⟨⟨value, timeout, start, hpc⟩, -⟩ rfl
    exact hout value timeout start hpc
  have hsame {n : Note} (hmailbox : s'.mailbox i = s.mailbox i)
      (hlist : s'.sched.waiting (k.other.wait i) = s.sched.waiting (k.other.wait i))
      (hnote : s'.sched.note = update s.sched.note t n) : Attended k.other i s' := by
    have hnotes : ∀ u ≠ t, s'.sched.note u = s.sched.note u := fun u hu => by
      rw [hnote, update_of_ne hu]
    refine h.of_same hmailbox (fun u hu => ?_) fun u hu => ?_
    · rw [hlist] at hu
      exact ⟨hu, hpcs u (hnot u hu), hnotes u (hnot u hu)⟩
    · exact mem_woken_of_same hu (hpcs u (hawake u hu)) (hnotes u (hawake u hu))
  cases hstep with
  | waited time start hblocked hmailbox hwaiting hnote hpc =>
    refine hsame hmailbox ?_ hnote
    rw [hwaiting, update_of_ne (k.wait_other_ne i)]
  | failed err n herr hwhy hmailbox hwaiting hnote hpc =>
    exact hsame hmailbox (by rw [hwaiting]) hnote
  | done hopen hmailbox hwoken hpc =>
    cases hwoken with
    | none hlist hwaiting hnote =>
      rw [← hwaiting] at hlist
      refine ⟨fun u hu => ?_, fun hne => absurd hlist hne⟩
      exact absurd (hlist ▸ hu) not_mem_nil
    | first v rest hlist hwaiting hnote =>
      have hv : v ∈ s.sched.waiting (k.other.wait i) := hlist ▸ mem_cons_self ..
      have hrest : s'.sched.waiting (k.other.wait i) = rest := by
        rw [hwaiting, update_self]
      have hnotes : ∀ u ≠ v, s'.sched.note u = s.sched.note u := fun u hu => by
        rw [hnote, update_of_ne hu]
      have hasleep : ∀ u ∈ woken k.other i s, u ≠ v := fun u hu he =>
        hqueued.not_waiting hu.2.1 _ (he ▸ hv)
      have hnodup := hqueued.waitingNodup (k.other.wait i)
      rw [hlist, nodup_cons] at hnodup
      refine ⟨fun u hu => ?_, fun _ => ?_⟩
      · rw [hrest] at hu
        have huv : u ≠ v := fun he => hnodup.1 (he ▸ hu)
        have hin : u ∈ s.sched.waiting (k.other.wait i) := hlist ▸ mem_cons_of_mem _ hu
        rw [hpcs u (hnot u hin), hnotes u huv]
        exact h.inside u hin
      · -- the thread `v` is one more that is woken
        have hsub : insert v (woken k.other i s) ⊆ woken k.other i s' := by
          rintro u (rfl | hu)
          · obtain ⟨hinside, herror⟩ := h.inside u hv
            have hself : s'.sched.note u = (s.sched.note u).resumed := by
              rw [hnote, update_self]
            refine ⟨(hpcs u (hnot u hv)) ▸ hinside, ?_, ?_⟩
            · exact congrArg Note.stat hself
            · exact (congrArg Note.error hself).trans herror
          · exact mem_woken_of_same hu (hpcs u (hawake u hu)) (hnotes u (hasleep u hu))
        have hcount := Set.encard_insert_of_notMem fun hin => hasleep v hin rfl
        rw [hmailbox, (level_act hring hopen value).2, Nat.cast_add, Nat.cast_one]
        calc (k.other.level (s.mailbox i) : ℕ∞) + 1
            ≤ (woken k.other i s).encard + 1 := add_le_add_left (h.level (ne_nil_of_mem hv)) 1
          _ = (insert v (woken k.other i s)).encard := hcount.symm
          _ ≤ (woken k.other i s').encard := Set.encard_le_encard hsub

/-! ## Runs -/

/-- The invariant of a mailbox. -/
structure Attentive (i : ℕ) (s : Ipc) : Prop where
  queued : s.sched.Queued
  ring : (s.mailbox i).Ring
  attended : ∀ k, Attended k i s

theorem Attentive.step (h : Attentive i s) (hs : s.step e = some s') : Attentive i s' := by
  have hqueued := queued_step h.queued hs
  by_cases hobj : s.obj e = some (.mailbox i)
  · obtain ⟨t, k, value, -, -, ht, hout, hstep⟩ := mailStep h.queued hs hobj
    refine ⟨hqueued, hstep.ring h.ring, fun j => ?_⟩
    have hcases : j = k ∨ j = k.other := by cases j <;> cases k <;> simp [Side.other]
    rcases hcases with rfl | rfl
    · exact (h.attended j).own h.queued h.ring ht hstep
    · exact (h.attended k.other).other h.queued h.ring ht hout hstep
  · refine ⟨hqueued, mailbox_of_obj h.queued hs hobj ▸ h.ring, fun k => ?_⟩
    by_cases htimeout : ∃ t, e = .timeout t
    · obtain ⟨t, rfl⟩ := htimeout
      exact (h.attended k).timeout h.queued hs
    · exact (h.attended k).of_other h.queued (fun t he => htimeout ⟨t, he⟩) hs hobj

/-- **No lost wake-up.**  After `rt_mb_init`, in every state of every run of any calls of any
threads, with timeouts and clock interrupts in between: if a receiver waits, there are at most
as many mails as receivers that were woken and have not run since, and if a sender waits,
there is at most as much room as there are such senders. -/
theorem no_lost_wakeup (h : s.sched.Queued) (i : ℕ) (pool : ℕ → ℕ) (size : ℕ) (flag : Flag)
    (events : List Event) : Always step (NoLostWakeup i) (s.rtMbInit i pool size flag) events := by
  have hempty : ∀ k : Side, (s.rtMbInit i pool size flag).sched.waiting (k.wait i) = [] := by
    intro k
    change update (update s.sched.waiting (.mbRecv i) []) (.mbSend i) [] _ = []
    cases k with
    | recv => exact (update_of_ne Wait.noConfusion ..).trans (update_self ..)
    | send => exact update_self ..
  have hstart : Attentive i (s.rtMbInit i pool size flag) :=
    { queued := queued_rtMbInit h pool size flag
      ring := ring_rtMbInit ..
      attended := fun k => ⟨fun u hu => absurd (hempty k ▸ hu) not_mem_nil,
        fun hne => absurd (hempty k) hne⟩ }
  have hmeets : Meets step (fun _ _ => True) (s.rtMbInit i pool size flag) events :=
    meets_of_forall fun _ _ _ => trivial
  exact (hmeets.always (fun _ _ _ h _ hs => h.step hs) hstart).imp fun _ h k => (h.attended k).level

/-- Thread 1 waits for a mail and is woken, but thread 3 takes it. -/
theorem no_lost_wakeup_overtaken :
    Always step (NoLostWakeup 0)
      ((fresh (started [(1, 20), (2, 15), (3, 10)])).rtMbInit 0 (fun _ => 0) 2 .fifo)
      [.call 1 (.mbRecv 0 (-1)), .call 2 (.mbSend 0 7), .call 3 (.mbRecv 0 0), .resume 1] :=
  no_lost_wakeup (s := fresh (started [(1, 20), (2, 15), (3, 10)]))
    (queued_started [(1, 20), (2, 15), (3, 10)]) 0 _ 2 .fifo _

end Ipc

end Easyio.Kernel
