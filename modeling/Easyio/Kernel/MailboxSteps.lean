import Easyio.Kernel.Frames

/-!
# The two sides of a mailbox

Senders and receivers do the same: they look whether the mailbox is full, or empty, wait if
it is, put a mail in, or take one out, and wake the first thread that waits on the other side.
A thread that is woken looks again, so another one may have been faster.  `MailStep` are the
outcomes of one step on one side.
-/

namespace Easyio.Kernel

open Function Ipc Option Sched

/-- The sides of a mailbox. -/
inductive Side where
  | recv
  | send

namespace Side

def other : Side → Side
  | recv => send
  | send => recv

/-- The list in which the threads of a side wait. -/
def wait (i : ℕ) : Side → Wait
  | recv => .mbRecv i
  | send => .mbSend i

/-- How many threads of a side can go on: by the mails, or by the room for them. -/
def level (mb : Mailbox) : Side → ℕ
  | recv => mb.entry
  | send => mb.size - mb.entry

/-- A thread of the side has to wait. -/
def blocked (mb : Mailbox) : Side → Prop
  | recv => mb.entry = 0
  | send => mb.entry = mb.size

/-- What a thread of the side does to the mailbox. -/
def act (mb : Mailbox) (value : ℕ) : Side → Mailbox
  | recv => mb.take
  | send => mb.put value

def output (mb : Mailbox) : Side → Output
  | recv => .mail (mb.msgPool mb.outOffset)
  | send => .none

/-- Where a thread of the side is that waits. -/
def pc (i value : ℕ) (timeout : ℤ) (start : ℕ) : Side → Pc
  | recv => .mbRecv i timeout start
  | send => .mbSend i value timeout start

variable (k : Side) (i : ℕ)

theorem wait_obj : (k.wait i).obj = .mailbox i := by cases k <;> rfl

theorem pc_obj (value : ℕ) (timeout : ℤ) (start : ℕ) :
    (k.pc i value timeout start).obj = some (.mailbox i) := by cases k <;> rfl

theorem wait_other_ne : k.other.wait i ≠ k.wait i := by
  cases k <;> exact Wait.noConfusion

end Side

/-- The first thread of a list is woken, if there is one. -/
inductive WokenFirst (w : Wait) (s s' : Sched) : Prop
  | none (hlist : s.waiting w = []) (hwaiting : s'.waiting = s.waiting) (hnote : s'.note = s.note)
  | first (u : ℕ) (rest : List ℕ) (hlist : s.waiting w = u :: rest)
      (hwaiting : s'.waiting = update s.waiting w rest)
      (hnote : s'.note = update s.note u (s.note u).resumed)

namespace WokenFirst

variable {w : Wait} {s s' : Sched}

theorem waiting_of_ne {w' : Wait} (h : WokenFirst w s s') (hw : w' ≠ w) :
    s'.waiting w' = s.waiting w' := by
  cases h with
  | none _ hwaiting _ => rw [hwaiting]
  | first u rest _ hwaiting _ => rw [hwaiting, update_of_ne hw]

theorem note_of_not_mem {u : ℕ} (h : WokenFirst w s s') (hu : u ∉ s.waiting w) :
    s'.note u = s.note u := by
  cases h with
  | none _ _ hnote => rw [hnote]
  | first v rest hlist _ hnote =>
    have huv : u ≠ v := fun he => hu (he ▸ hlist ▸ List.mem_cons_self ..)
    rw [hnote, update_of_ne huv]

end WokenFirst

namespace Ipc

variable {s s' r : Ipc} {t i value : ℕ} {timeout : ℤ} {e : Event} {k : Side} {w : Wait}

theorem wokenFirst (h : s.sched.Queued) (hs : s.wakeIfAny w = some s') :
    WokenFirst w s.sched s'.sched ∧ s' = { s with sched := s'.sched } := by
  unfold wakeIfAny at hs
  split at hs
  · rename_i hne
    obtain ⟨u, rest, hlist⟩ := List.exists_cons_of_ne_nil hne
    obtain ⟨hsched, hs'⟩ := under_eq hs
    have heffect := effect_wake h hlist hsched
    refine ⟨.first u rest hlist ?_ heffect.note, hs'⟩
    exact (congrArg View.waiting heffect.view).trans (resume_head h hlist)
  · rename_i hempty
    rw [← some.inj hs]
    exact ⟨.none (not_not.mp hempty) rfl rfl, rfl⟩

/-- The outcomes of a step of the thread `t` on a side of the mailbox `i`. -/
inductive MailStep (k : Side) (value : ℕ) (s : Ipc) (t i : ℕ) (s' : Ipc) : Prop
  /-- a mail is put in or taken out -/
  | done (hopen : ¬ k.blocked (s.mailbox i)) (hmailbox : s'.mailbox i = k.act (s.mailbox i) value)
      (hwoken : WokenFirst (k.other.wait i) s.sched s'.sched)
      (hpc : s'.pc = update s.pc t (.returned .eok (k.output (s.mailbox i))))
  /-- the thread waits -/
  | waited (time : ℤ) (start : ℕ) (hblocked : k.blocked (s.mailbox i))
      (hmailbox : s'.mailbox i = s.mailbox i)
      (hwaiting : s'.sched.waiting = update s.sched.waiting (k.wait i)
        (Sched.place s.sched.view.priority t (s.sched.waiting (k.wait i)) (s.mailbox i).flag))
      (hnote : s'.sched.note = update s.sched.note t
        ({ s.sched.note t with error := .eok }.suspended (decide (0 < time))))
      (hpc : s'.pc = update s.pc t (k.pc i value time start))
  /-- the thread does not wait any longer -/
  | failed (err : Err) (n : Note) (herr : err ≠ .eok)
      (hwhy : k.blocked (s.mailbox i) ∨ (s.sched.note t).error ≠ .eok)
      (hmailbox : s'.mailbox i = s.mailbox i) (hwaiting : s'.sched.waiting = s.sched.waiting)
      (hnote : s'.sched.note = update s.sched.note t n)
      (hpc : s'.pc = update s.pc t (.returned err .none))

namespace MailStep

theorem of_done (h : s.sched.Queued) (hopen : ¬ k.blocked (s.mailbox i))
    (hs : ((s.setMailbox i (k.act (s.mailbox i) value)).wakeIfAny (k.other.wait i)).map
      (ret · t .eok (k.output (s.mailbox i))) = some s') : MailStep k value s t i s' := by
  obtain ⟨r, hr, rfl⟩ := map_eq_some_iff.mp hs
  have hquiet : (s.setMailbox i (k.act (s.mailbox i) value)).sched.Queued := h
  obtain ⟨hwoken, hr'⟩ := wokenFirst hquiet hr
  refine .done hopen ?_ hwoken ?_
  · rw [hr']
    exact update_self ..
  · rw [hr']
    rfl

theorem of_block (h : s.sched.Queued) (ht : (s.sched.thread t).stat = .ready)
    (hblocked : k.blocked (s.mailbox i)) {time : ℤ} {start : ℕ}
    (hs : (s.setError t .eok).block t (k.wait i) (s.mailbox i).flag time
      (k.pc i value time start) = some s') : MailStep k value s t i s' := by
  have hquiet : Quiet s (s.setError t .eok) := .setError h t .eok
  have hready := hquiet.toStill.ready ht
  obtain ⟨hsched, hs'⟩ := under_eq hs
  obtain ⟨-, hview, hnote, -⟩ := effect_block hquiet.queued hready hsched
  rw [hquiet.view] at hview
  refine .waited time start hblocked (by rw [hs']; rfl) (congrArg View.waiting hview) ?_
    (by rw [hs']; rfl)
  have hok : (s.setError t .eok).sched.note = _ := note_setError s.sched t .eok
  rw [hnote, hok, update_self, update_idem]

variable {err : Err}

theorem of_refused (herr : err ≠ .eok) (hblocked : k.blocked (s.mailbox i)) (err' : Err) :
    MailStep k value s t i ((s.setError t err').ret t err .none) :=
  .failed err _ herr (.inl hblocked) rfl rfl (note_setError ..) rfl

theorem of_refused_at_once (herr : err ≠ .eok) (hblocked : k.blocked (s.mailbox i)) :
    MailStep k value s t i (s.ret t err .none) :=
  .failed err _ herr (.inl hblocked) rfl rfl (update_eq_self ..).symm rfl

theorem of_waitEnd (herror : (s.sched.thread t).error ≠ .eok) :
    MailStep k value s t i (s.waitEnd t) :=
  .failed _ _ herror (.inr herror) rfl rfl (update_eq_self ..).symm rfl

section

variable (h : s.sched.Queued) (ht : (s.sched.thread t).stat = .ready)
include h ht

theorem of_mbSendLoop
    (hs : s.mbSendLoop t i value timeout = some s') : MailStep .send value s t i s' := by
  unfold mbSendLoop at hs
  split at hs
  · rename_i hfull
    split at hs
    · rw [← some.inj hs]
      exact of_refused (k := .send) Err.noConfusion hfull .eok
    · exact of_block h ht hfull hs
  · rename_i hfull
    exact of_done h hfull hs

theorem of_rtMbSendWait
    (hs : s.rtMbSendWait t i value timeout = some s') : MailStep .send value s t i s' := by
  unfold rtMbSendWait at hs
  split at hs
  · rename_i hcond
    rw [← some.inj hs]
    exact of_refused_at_once Err.noConfusion hcond.1
  · exact of_mbSendLoop h ht hs

theorem of_mbRecvLoop
    (hs : s.mbRecvLoop t i timeout = some s') : MailStep .recv value s t i s' := by
  unfold mbRecvLoop at hs
  split at hs
  · rename_i hempty
    split at hs
    · rw [← some.inj hs]
      exact of_refused (k := .recv) Err.noConfusion hempty .etimeout
    · exact of_block h ht hempty hs
  · rename_i hempty
    exact of_done h hempty hs

theorem of_rtMbRecv (hs : s.rtMbRecv t i timeout = some s') : MailStep .recv value s t i s' := by
  unfold rtMbRecv at hs
  split at hs
  · rename_i hcond
    rw [← some.inj hs]
    exact of_refused_at_once Err.noConfusion hcond.1
  · exact of_mbRecvLoop h ht hs

end

end MailStep

/-- The thread that makes a step on the mailbox `i`, its side, and the value that it sends. -/
def mailOp (s : Ipc) (i : ℕ) : Event → Option (ℕ × Side × ℕ)
  | .call t (.mbSendWait j value _) => if j = i then some (t, .send, value) else none
  | .call t (.mbSend j value) => if j = i then some (t, .send, value) else none
  | .call t (.mbRecv j _) => if j = i then some (t, .recv, 0) else none
  | .resume t =>
    match s.pc t with
    | .mbSend j value _ _ => if j = i then some (t, .send, value) else none
    | .mbRecv j _ _ => if j = i then some (t, .recv, 0) else none
    | _ => none
  | _ => none

theorem mailOp_eq_none (hobj : s.obj e ≠ some (.mailbox i)) : s.mailOp i e = none := by
  have hne {j : ℕ} (hj : s.obj e = some (.mailbox j)) : j ≠ i := fun he => hobj (he ▸ hj)
  cases e with
  | call t c =>
    cases c with
    | mbSendWait j v timeout | mbSend j v | mbRecv j timeout => exact if_neg (hne rfl)
    | _ => rfl
  | resume t =>
    cases hpc : s.pc t with
    | mbSend j v timeout start | mbRecv j timeout start =>
      simp only [mailOp, hpc]
      exact if_neg (hne (by rw [obj, hpc]; rfl))
    | _ => simp only [mailOp, hpc]
  | timeout t => rfl
  | tick => rfl

/-- A thread at `pc` is not inside of a call on the other side of the mailbox. -/
def Outside (k : Side) (i : ℕ) (pc : Pc) : Prop :=
  ∀ value timeout start, pc ≠ k.other.pc i value timeout start

theorem outside_of_isReturned (k : Side) (i : ℕ) {pc : Pc} (h : pc.isReturned = true) :
    Outside k i pc := by
  rintro value timeout start rfl
  cases k <;> exact Bool.false_ne_true h

theorem mailStep (h : s.sched.Queued) (hs : s.step e = some s')
    (hobj : s.obj e = some (.mailbox i)) :
    ∃ t k value, s.mailOp i e = some (t, k, value) ∧ e.actor = some t ∧
      (s.sched.thread t).stat = .ready ∧ Outside k i (s.pc t) ∧ MailStep k value s t i s' := by
  cases e with
  | call t c =>
    have ht := ready_of_actor hs rfl
    have hout := fun k => outside_of_isReturned k i (returned_of_call hs)
    have hs := perform_of_step hs
    cases c with
    | mbSendWait j v timeout | mbSend j v =>
      cases hobj
      exact ⟨t, .send, v, if_pos rfl, rfl, ht, hout _, .of_rtMbSendWait h ht hs⟩
    | mbRecv j timeout =>
      cases hobj
      exact ⟨t, .recv, 0, if_pos rfl, rfl, ht, hout _, .of_rtMbRecv h ht hs⟩
    | _ => cases hobj
  | resume t =>
    have ht := ready_of_actor hs rfl
    simp only [step] at hs
    rw [if_pos ht] at hs
    change (s.pc t).obj = _ at hobj
    cases hpc : s.pc t with
    | mbSend j v timeout start =>
      rw [hpc] at hobj hs
      cases hobj
      refine ⟨t, .send, v, by simp only [mailOp, hpc, if_pos], rfl, ht, ?_, ?_⟩
      · rw [hpc]
        exact fun _ _ _ => Pc.noConfusion
      change s.mbSendResumed t i v timeout start = some s' at hs
      unfold mbSendResumed at hs
      split at hs
      · rename_i herror
        exact some.inj hs ▸ .of_waitEnd herror
      · exact .of_mbSendLoop h ht hs
    | mbRecv j timeout start =>
      rw [hpc] at hobj hs
      cases hobj
      refine ⟨t, .recv, 0, by simp only [mailOp, hpc, if_pos], rfl, ht, ?_, ?_⟩
      · rw [hpc]
        exact fun _ _ _ => Pc.noConfusion
      change s.mbRecvResumed t i timeout start = some s' at hs
      unfold mbRecvResumed at hs
      split at hs
      · rename_i herror
        exact some.inj hs ▸ .of_waitEnd herror
      · exact .of_mbRecvLoop h ht hs
    | _ =>
      rw [hpc] at hobj
      cases hobj
  | timeout t => cases hobj
  | tick => cases hobj

theorem queued_rtMbInit (h : s.sched.Queued) (pool : ℕ → ℕ) (size : ℕ) (flag : Flag) :
    (s.rtMbInit i pool size flag).sched.Queued :=
  (h.empty (.mbRecv i)).empty (.mbSend i)

end Ipc

end Easyio.Kernel
