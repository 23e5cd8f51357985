import Easyio.Drivers.DataQueue
import Easyio.Runs.Partial

/-!
# The interrupt mask in the calls of the data queue

A call is balanced if `rt_schedule`, `evt_notify` and its caller all find the mask with
which it was entered.  A thread that waits has that mask, so every path can be looked at
by itself (`Returns`).

One path of `rt_data_queue_pop` does not enable interrupts.  It is taken when the low
water mark is reached and `waiting_lwm` is set but nobody waits: after a push that failed
at once, or one whose time ran out.
-/

namespace Easyio.Drivers

open Function Option Kernel Runs.Partial

namespace DataSystem

variable {s s' : DataSystem} {t u : ℕ} {item : DataItem} {timeout : ℤ} {entry : Bool} {act : Act}
  {reply : DataReply} {event : DataEvent} {pc : Pc} {e : Event}

/-- In the last step nothing was called, and nothing returned, with another mask than the
one at the entry. -/
def Balanced (s : DataSystem) : Prop := ∀ n ∈ s.notes, n.masked = n.entry

/-- The mask at the entry of the call in which the thread waits. -/
def Pc.savedMask : Pc → Option Bool
  | .idle => none
  | .push _ _ entry | .pop _ entry => some entry

/-- Threads wait with the mask of their entry. -/
def Unmasked (s : DataSystem) : Prop := ∀ t, ∀ entry ∈ (s.pc t).savedMask, s.masked t = entry

/-! ## Paths -/

theorem Balanced.setDq (h : s.Balanced) (dq : DataQueue) : (s.setDq dq).Balanced := h

theorem Balanced.enable (h : s.Balanced) : (s.enable t entry).Balanced := h

theorem balanced_note : (s.note t entry act).Balanced ↔ s.Balanced ∧ s.masked t = entry := by
  simp [Balanced, note, or_imp, forall_and]

theorem Balanced.note (h : s.Balanced) (hmask : s.masked t = entry) :
    (s.note t entry act).Balanced :=
  balanced_note.mpr ⟨h, hmask⟩

theorem Balanced.notify (h : s.Balanced) (hmask : s.masked t = entry) :
    (s.notify t entry event).Balanced := by
  unfold DataSystem.notify
  split
  · exact h.note hmask
  · exact h

theorem balanced_ret : (s.ret t entry reply).Balanced ↔ s.Balanced ∧ s.masked t = entry :=
  balanced_note

/-- A path of a call of `t` that was entered with the mask `entry`. -/
structure Returns (s s' : DataSystem) (t : ℕ) (entry : Bool) : Prop where
  balanced : s'.Balanced
  masked : s'.masked = update s.masked t entry
  pc : ∃ pc, s'.pc = update s.pc t pc ∧ ∀ b ∈ pc.savedMask, entry = b

namespace Returns

section

variable (hb : s'.Balanced) (hm : s'.masked = update s.masked t entry) (hpc : s'.pc = s.pc)
include hb hm hpc

theorem ret : Returns s (s'.ret t entry reply) t entry := by
  refine ⟨balanced_ret.mpr ⟨hb, ?_⟩, hm, .idle, ?_, by simp [Pc.savedMask]⟩
  · rw [hm, update_self]
  · rw [← hpc]
    rfl

theorem notify_ret : Returns s ((s'.notify t entry event).ret t entry reply) t entry := by
  refine ret (hb.notify ?_) (notify_masked.trans hm) (notify_pc.trans hpc)
  rw [hm, update_self]

end

theorem unmasked (h : Returns s s' t entry)
    (hs : ∀ u ≠ t, ∀ b ∈ (s.pc u).savedMask, s.masked u = b) :
    s'.Unmasked := by
  obtain ⟨-, hmasked, pc, hpc, hentry⟩ := h
  intro u b hb
  rcases eq_or_ne u t with rfl | hu
  · rw [hpc, update_self] at hb
    rw [hmasked, update_self]
    exact hentry b hb
  · rw [hpc, update_of_ne hu] at hb
    rw [hmasked, update_of_ne hu]
    exact hs u hu b hb

end Returns

theorem block_returns (hb : s.Balanced) (hentry : ∀ b ∈ pc.savedMask, entry = b)
    (h : s.block t timeout entry entry pc = some s') : Returns s s' t entry := by
  obtain ⟨thread, -, rfl⟩ := map_eq_some_iff.mp h
  exact ⟨Balanced.note hb (update_self ..), rfl, pc, rfl, hentry⟩

theorem Balanced.wake (hb : s.Balanced) : (s.wake t u entry entry).Balanced :=
  Balanced.note hb (update_self ..)

theorem pushEnd_returns (hb : s.Balanced) : Returns s (s.pushEnd t entry entry) t entry := by
  unfold pushEnd
  split
  · exact .ret hb.wake rfl rfl
  · exact .notify_ret hb.enable rfl rfl

theorem pushLoop_returns (hb : s.Balanced) (h : s.pushLoop t item timeout entry entry = some s') :
    Returns s s' t entry := by
  unfold pushLoop at h
  split_ifs at h
  · rw [← some.inj h]
    exact .ret (hb.setDq _).enable rfl rfl
  · obtain ⟨hbal, hmasked, hpc⟩ := block_returns (hb.setDq _) (by simp [Pc.savedMask]) h
    exact ⟨hbal, hmasked, hpc⟩
  · rw [← some.inj h]
    obtain ⟨hbal, hmasked, hpc⟩ := pushEnd_returns (hb.setDq (s.dq.store item))
    exact ⟨hbal, hmasked, hpc⟩

/-- The state in which `rt_data_queue_pop` takes an item and leaves interrupts as they
are. -/
def Unattended (dq : DataQueue) : Prop := ¬dq.Empty ∧ dq.advance.LowMark ∧ dq.suspendedPushList = []

theorem popLoop_returns (hb : s.Balanced) (hmask : s.masked t = true)
    (hguard : Unattended s.dq → entry = true)
    (h : s.popLoop t timeout entry entry = some s') : Returns s s' t entry := by
  unfold popLoop at h
  split_ifs at h with hempty
  · rw [← some.inj h]
    exact .ret hb.enable rfl rfl
  · obtain ⟨hbal, hmasked, hpc⟩ := block_returns (hb.setDq _) (by simp [Pc.savedMask]) h
    exact ⟨hbal, hmasked, hpc⟩
  · rw [← some.inj h]
    unfold popEnd
    split
    · next hlow =>
        split
        · exact .notify_ret (hb.setDq _).wake rfl rfl
        · next hlist =>
            -- interrupts stay disabled, as they were at the entry
            have hentry : entry = true := hguard ⟨hempty, hlow, hlist⟩
            refine .notify_ret (hb.setDq _) ?_ rfl
            rw [hentry, ← hmask]
            exact (update_eq_self t s.masked).symm
    · exact .notify_ret (hb.setDq _).enable rfl rfl

/-- The path that leaves interrupts disabled. -/
theorem popLoop_unattended (hmask : s.masked t = true) (hun : Unattended s.dq)
    (h : s.popLoop t timeout entry entry = some s') (hbal : s'.Balanced) : entry = true := by
  obtain ⟨hempty, hlow, hlist⟩ := hun
  have hlist' : (s.setDq s.dq.advance).dq.suspendedPushList = [] := hlist
  rw [popLoop, if_neg hempty, popEnd,
    if_pos (show (s.setDq s.dq.advance).dq.LowMark from hlow)] at h
  simp only [hlist', some.injEq] at h
  rw [← h, balanced_ret, notify_masked] at hbal
  exact hbal.2.symm.trans hmask

/-! ## Steps -/

/-- The step does not take an item from an unattended queue, unless interrupts were
disabled before the call. -/
def Enables (s : DataSystem) : Event → Prop
  | .pop t _ => Unattended s.dq → s.masked t = true
  | .run t =>
    match s.pc t with
    | .pop _ _ => (s.thread t).error = .eok → Unattended s.dq → s.masked t = true
    | _ => True
  | _ => True

/-- The state in which a call begins its critical section. -/
def entered (s : DataSystem) (t : ℕ) : DataSystem := { s with notes := [] }.disable t

theorem entered_balanced : (s.entered t).Balanced := by simp [Balanced, entered, disable]

theorem entered_masked : (s.entered t).masked t = true := update_self ..

theorem Returns.keeps (h : Returns (s.entered t) s' t entry) (hs : s.Unmasked) :
    s'.Balanced ∧ s'.Unmasked := by
  refine ⟨h.balanced, h.unmasked fun u hu b hb => ?_⟩
  have hmasked : (s.entered t).masked u = s.masked u := update_of_ne hu ..
  rw [hmasked]
  exact hs u b hb

theorem pushResumed_returns (hmask : s.masked t = entry)
    (h : { s with notes := [] }.pushResumed t item timeout entry = some s') :
    Returns (s.entered t) s' t entry := by
  subst hmask
  unfold pushResumed at h
  split_ifs at h
  · rw [← some.inj h]
    exact .ret (Balanced.enable entered_balanced) rfl rfl
  · exact pushLoop_returns entered_balanced h

theorem popResumed_returns (hmask : s.masked t = entry)
    (hguard : (s.thread t).error = .eok → Unattended s.dq → s.masked t = true)
    (h : { s with notes := [] }.popResumed t timeout entry = some s') :
    Returns (s.entered t) s' t entry := by
  subst hmask
  unfold popResumed at h
  split_ifs at h with herror
  · rw [← some.inj h]
    exact .ret (Balanced.enable entered_balanced) rfl rfl
  · exact popLoop_returns entered_balanced entered_masked (hguard (not_not.mp herror)) h

theorem step_keeps (hs : s.Unmasked) (hguard : s.Enables e) (h : s.step e = some s') :
    s'.Balanced ∧ s'.Unmasked := by
  cases e with
  | push t item timeout =>
    obtain ⟨-, h⟩ := ite_none_right_eq_some.mp h
    exact (pushLoop_returns entered_balanced h).keeps hs
  | pop t timeout =>
    obtain ⟨-, h⟩ := ite_none_right_eq_some.mp h
    exact (popLoop_returns entered_balanced entered_masked hguard h).keeps hs
  | peak t =>
    obtain ⟨-, h⟩ := ite_none_right_eq_some.mp h
    rw [← some.inj h]
    exact (Returns.ret (Balanced.enable entered_balanced) rfl rfl).keeps hs
  | run t =>
    have hmask := hs t
    simp only [step, resumed] at h
    simp only [Enables] at hguard
    cases hpc : s.pc t with
    | idle => simp [hpc] at h
    | push item timeout entry =>
      simp only [hpc, ite_none_left_eq_some] at h
      exact (pushResumed_returns (hmask entry (by rw [hpc]; rfl)) h.2).keeps hs
    | pop timeout entry =>
      simp only [hpc, ite_none_left_eq_some] at h hguard
      exact (popResumed_returns (hmask entry (by rw [hpc]; rfl)) hguard h.2).keeps hs
  | timeout t =>
    obtain ⟨-, h⟩ := ite_none_right_eq_some.mp h
    rw [← some.inj h]
    exact ⟨by simp [Balanced], hs⟩

theorem step_enables (hs : s.Unmasked) (h : s.step e = some s') (hbal : s'.Balanced) :
    s.Enables e := by
  cases e with
  | push t item timeout => trivial
  | pop t timeout =>
    intro hun
    obtain ⟨-, h⟩ := ite_none_right_eq_some.mp h
    exact popLoop_unattended entered_masked hun h hbal
  | peak t => trivial
  | run t =>
    have hmask := hs t
    simp only [step, resumed] at h
    simp only [Enables]
    cases hpc : s.pc t with
    | idle => trivial
    | push item timeout entry => trivial
    | pop timeout entry =>
      intro herror hun
      simp only [hpc, ite_none_left_eq_some] at h
      have hentry : s.masked t = entry := hmask entry (by rw [hpc]; rfl)
      have hloop := h.2
      rw [popResumed, if_neg (not_not.mpr herror), ← hentry] at hloop
      exact popLoop_unattended entered_masked hun hloop hbal
  | timeout t => trivial

end DataSystem

open DataSystem

/-- On a new queue all calls are balanced exactly if none of them takes an item from an
unattended queue. -/
theorem data_queue_balanced_iff (queue : ℕ → DataItem) (size lwm : ℕ) (evtNotify : Bool)
    (thread : ℕ → Waiter) (masked : ℕ → Bool) (events : List Event) :
    Always step Balanced (init (DataQueue.init queue size lwm evtNotify) thread masked)
        events ↔
      Meets step Enables (init (DataQueue.init queue size lwm evtNotify) thread masked)
        events := by
  have hfirst : ∀ s : DataSystem, s.Balanced ∧ s.Unmasked → s.Balanced := fun s hs => hs.1
  apply always_iff_meets hfirst
  · exact fun s e s' hs hguard h => step_keeps hs.2 hguard h
  · exact fun s e s' hs h hbal => step_enables hs.2 h hbal
  · exact ⟨by simp [DataSystem.Balanced, init], fun t entry hentry => by cases hentry⟩

/-- A push that fails on a full queue, and a pop: the callback is called and the pop
returns with interrupts disabled. -/
theorem data_queue_leaves_masked : ¬Always step Balanced
    (init (DataQueue.init (fun _ => ⟨0, 0⟩) 1 0 true) (fun _ => ⟨.eok, false⟩)
      fun _ => false) [.push 0 ⟨4096, 1⟩ 0, .push 0 ⟨8192, 1⟩ 0, .pop 0 0] := by
  intro h
  have hpop := (((h.2 _ rfl).2 _ rfl).2 _ rfl).head
  exact absurd (hpop ⟨.ret (.item ⟨4096, 1⟩), false, true⟩ (by decide)) (by decide)

end Easyio.Drivers
