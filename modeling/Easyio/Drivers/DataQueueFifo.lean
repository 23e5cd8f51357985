import Easyio.Drivers.DataQueue
import Easyio.Lists.Cyclic

/-!
# The data queue as a bounded FIFO

`Holds dq taken items` relates a queue to the items in it and to the number of items that
were ever taken out of it.  The indices are that number and the number of items ever
stored, modulo 2^16; the slot of an item is its number modulo the size, because the size
is a power of two.  Storing and taking keep the relation, wherever the indices are.

The test for a full queue does not.  The difference of the indices is taken in `int`, so
it is negative as soon as the put index has wrapped and the get index has not, and a queue
that is full then accepts one more item over its oldest one (`Holds.full_iff`).
-/

namespace Easyio.Drivers

open DataSystem Function Kernel List Easyio.Lists Nat Option

namespace DataQueue

variable {dq dq' : DataQueue} {taken k n : ℕ} {items rest : List DataItem} {item : DataItem}

/-- A size for which `mask` picks the slots. -/
def Sized (dq : DataQueue) : Prop := ∃ k ≤ 15, dq.size = 2 ^ k

theorem Sized.le (h : dq.Sized) : dq.size ≤ 2 ^ 15 := by
  obtain ⟨k, hk, hsize⟩ := h
  exact hsize ▸ Nat.pow_le_pow_right (by decide) hk

theorem Sized.pos (h : dq.Sized) : 0 < dq.size := by
  obtain ⟨k, -, hsize⟩ := h
  exact hsize ▸ Nat.two_pow_pos k

theorem Sized.slot_eq (h : dq.Sized) : dq.slot (n % 2 ^ 16) = n % dq.size := by
  have hle := h.le
  have hpos := h.pos
  obtain ⟨k, hk, hsize⟩ := h
  have hmask : (dq.size + (2 ^ 16 - 1)) % 2 ^ 16 = 2 ^ k - 1 := by omega
  rw [slot, hmask, Nat.and_two_pow_sub_one_eq_mod, hsize,
    Nat.mod_mod_of_dvd _ (Nat.pow_dvd_pow 2 (by omega))]

/-- The part of the queue that holds the items. -/
def ring (dq : DataQueue) : ℕ × ℕ × ℕ × (ℕ → DataItem) :=
  (dq.size, dq.getIndex, dq.putIndex, dq.queue)

/-- The queue holds `items`, and `taken` items were taken out of it. -/
structure Holds (dq : DataQueue) (taken : ℕ) (items : List DataItem) : Prop where
  sized : dq.Sized
  room : items.length ≤ dq.size
  get : dq.getIndex = taken % 2 ^ 16
  put : dq.putIndex = (taken + items.length) % 2 ^ 16
  items : reading dq.queue dq.size taken items.length = items

namespace Holds

theorem of_ring (h : dq.Holds taken items) (hring : dq'.ring = dq.ring) :
    dq'.Holds taken items := by
  obtain ⟨hsize, hget, hput, hqueue⟩ : dq'.size = dq.size ∧ dq'.getIndex = dq.getIndex ∧
      dq'.putIndex = dq.putIndex ∧ dq'.queue = dq.queue := by simpa [ring] using hring
  obtain ⟨sized, room, get, put, items⟩ := h
  exact ⟨by rwa [Sized, hsize], by rwa [hsize], by rwa [hget], by rwa [hput],
    by rwa [hqueue, hsize]⟩

theorem init (queue : ℕ → DataItem) (lwm : ℕ) (evtNotify : Bool) (hk : k ≤ 15) :
    (init queue (2 ^ k) lwm evtNotify).Holds 0 [] :=
  ⟨⟨k, hk, rfl⟩, zero_le _, rfl, rfl, rfl⟩

section

variable (h : dq.Holds taken items)
include h

theorem empty_iff : dq.Empty ↔ items = [] := by
  have hle := h.sized.le
  have hroom := h.room
  rw [Empty, h.get, h.put, ← length_eq_zero_iff]
  omega

theorem stored : (dq.putIndex + 2 ^ 16 - dq.getIndex) % 2 ^ 16 = items.length := by
  have hle := h.sized.le
  have hroom := h.room
  rw [h.get, h.put]
  omega

theorem not_full (hlen : items.length < dq.size) : ¬dq.Full := by
  have hle := h.sized.le
  rw [Full, h.get, h.put]
  omega

/-- A full queue looks full unless its items lie across the wrap of the indices. -/
theorem full_iff (hlen : items.length = dq.size) : dq.Full ↔ taken % 2 ^ 16 + dq.size < 2 ^ 16 := by
  have hle := h.sized.le
  have hpos := h.sized.pos
  rw [Full, h.get, h.put, hlen]
  omega

theorem store (hlen : items.length < dq.size) (item : DataItem) :
    (dq.store item).Holds taken (items ++ [item]) := by
  refine ⟨h.sized, ?_, h.get, ?_, ?_⟩
  · rw [length_append]
    exact hlen
  · show (dq.putIndex + 1) % 2 ^ 16 = _
    rw [h.put, mod_add_mod, length_append, length_singleton, add_assoc]
  · have hcells : (dq.store item).queue =
        writing dq.queue dq.size (taken + items.length) [item] := by
      show update dq.queue (dq.slot dq.putIndex) item = _
      rw [h.put, h.sized.slot_eq]
      rfl
    show reading (dq.store item).queue dq.size taken _ = _
    rw [hcells, length_append, reading_writing_append hlen, h.items]

end

theorem front (h : dq.Holds taken (item :: rest)) : dq.front = item := by
  have hitems := h.items
  rw [length_cons, add_comm, reading_add, reading_one, singleton_append] at hitems
  rw [DataQueue.front, h.get, h.sized.slot_eq]
  exact (cons.inj hitems).1

theorem advance (h : dq.Holds taken (item :: rest)) : dq.advance.Holds (taken + 1) rest := by
  have hitems := h.items
  rw [length_cons, add_comm, reading_add, reading_one, singleton_append] at hitems
  refine ⟨h.sized, le_of_succ_le h.room, ?_, ?_, (cons.inj hitems).2⟩
  · show (dq.getIndex + 1) % 2 ^ 16 = _
    rw [h.get, mod_add_mod]
  · show dq.putIndex = _
    rw [h.put, length_cons, Nat.add_right_comm, Nat.add_assoc]

end Holds

end DataQueue

/-! ## What a step does to the ring -/

namespace DataSystem

variable {s s' : DataSystem} {t u : ℕ} {item : DataItem} {timeout : ℤ} {entry level : Bool}
  {pc : Pc}

@[simp] theorem wake_ring : (s.wake t u entry level).dq.ring = s.dq.ring := rfl

/-- How a call of `t` ends its step: with the ring of `dq`, with what it returns, and at
`pc`. -/
structure Ends (s s' : DataSystem) (t : ℕ) (dq : DataQueue) (replies : List DataReply) (pc : Pc) :
    Prop where
  ring : s'.dq.ring = dq.ring
  replies : s'.replies = s.replies ++ replies
  pc : s'.pc = Function.update s.pc t pc

theorem block_ends (h : s.block t timeout entry level pc = some s') : Ends s s' t s.dq [] pc := by
  obtain ⟨thread, -, rfl⟩ := map_eq_some_iff.mp h
  exact ⟨rfl, by simp [enable, note, replies], rfl⟩

theorem pushEnd_ends : Ends s (s.pushEnd t entry level) t s.dq [.eok] .idle := by
  unfold pushEnd
  split <;> constructor <;> simp

theorem popEnd_ends : Ends s (s.popEnd t item entry level) t s.dq [.item item] .idle := by
  have hring : DataQueue.ring { s.dq with waitingLwm := false } = s.dq.ring := rfl
  unfold popEnd
  split
  · split <;> constructor <;> simp [hring]
  · constructor <;> simp

/-- `rt_data_queue_push` fails or waits at a queue that looks full, and stores the item
otherwise. -/
theorem pushLoop_ends (h : s.pushLoop t item timeout entry level = some s') :
    s.dq.Full ∧ timeout = 0 ∧ Ends s s' t s.dq [.failed .etimeout] .idle ∨
      s.dq.Full ∧ timeout ≠ 0 ∧ Ends s s' t s.dq [] (.push item timeout entry) ∨
      ¬s.dq.Full ∧ Ends s s' t (s.dq.store item) [.eok] .idle := by
  unfold pushLoop at h
  split_ifs at h with hfull hzero
  · rw [← some.inj h]
    exact .inl ⟨hfull, hzero, rfl, by simp, rfl⟩
  · obtain ⟨hring, hreplies, hpc⟩ := block_ends h
    exact .inr (.inl ⟨hfull, hzero, hring, hreplies, hpc⟩)
  · rw [← some.inj h]
    obtain ⟨hring, hreplies, hpc⟩ := pushEnd_ends
    exact .inr (.inr ⟨hfull, hring, hreplies, hpc⟩)

theorem popLoop_ends (h : s.popLoop t timeout entry level = some s') :
    s.dq.Empty ∧ timeout = 0 ∧ Ends s s' t s.dq [.failed .etimeout] .idle ∨
      s.dq.Empty ∧ timeout ≠ 0 ∧ Ends s s' t s.dq [] (.pop timeout entry) ∨
      ¬s.dq.Empty ∧ Ends s s' t s.dq.advance [.item s.dq.front] .idle := by
  unfold popLoop at h
  split_ifs at h with hempty hzero
  · rw [← some.inj h]
    exact .inl ⟨hempty, hzero, rfl, by simp, rfl⟩
  · obtain ⟨hring, hreplies, hpc⟩ := block_ends h
    exact .inr (.inl ⟨hempty, hzero, hring, hreplies, hpc⟩)
  · rw [← some.inj h]
    obtain ⟨hring, hreplies, hpc⟩ := popEnd_ends
    exact .inr (.inr ⟨hempty, hring, hreplies, hpc⟩)

/-- A step of `t` inside of `rt_data_queue_push`. -/
inductive PushStep (s s' : DataSystem) (t : ℕ) (item : DataItem) : Prop where
  | stored (looks : ¬s.dq.Full)
      (ends : Ends { s with notes := [] } s' t (s.dq.store item) [.eok] .idle)
  | waits (timeout : ℤ) (entry : Bool)
      (ends : Ends { s with notes := [] } s' t s.dq [] (.push item timeout entry))
  | fails (err : Err) (ends : Ends { s with notes := [] } s' t s.dq [.failed err] .idle)

theorem PushStep.of_loop
    (h : ({ s with notes := [] }.disable t).pushLoop t item timeout entry level = some s') :
    PushStep s s' t item := by
  rcases pushLoop_ends h with ⟨-, -, hends⟩ | ⟨-, -, hends⟩ | ⟨hfull, hends⟩
  · exact .fails _ ⟨hends.ring, hends.replies, hends.pc⟩
  · exact .waits _ _ ⟨hends.ring, hends.replies, hends.pc⟩
  · exact .stored hfull ⟨hends.ring, hends.replies, hends.pc⟩

theorem PushStep.of_push (h : s.step (.push t item timeout) = some s') : PushStep s s' t item :=
  .of_loop (ite_none_right_eq_some.mp h).2

theorem PushStep.of_run (hpc : s.pc t = .push item timeout entry) (h : s.step (.run t) = some s') :
    PushStep s s' t item := by
  simp only [step, resumed, hpc, ite_none_left_eq_some] at h
  have h := h.2
  unfold pushResumed at h
  split_ifs at h
  · rw [← some.inj h]
    exact .fails (s.thread t).error ⟨rfl, rfl, rfl⟩
  · exact .of_loop h

theorem pop_ends (h : s.step (.pop t 0) = some s') :
    s.dq.Empty ∧ Ends { s with notes := [] } s' t s.dq [.failed .etimeout] .idle ∨
      ¬s.dq.Empty ∧ Ends { s with notes := [] } s' t s.dq.advance [.item s.dq.front] .idle := by
  rcases popLoop_ends (ite_none_right_eq_some.mp h).2 with
    ⟨hempty, -, hends⟩ | ⟨-, hzero, -⟩ | ⟨hempty, hends⟩
  · exact .inl ⟨hempty, hends.ring, hends.replies, hends.pc⟩
  · exact absurd rfl hzero
  · exact .inr ⟨hempty, hends.ring, hends.replies, hends.pc⟩

theorem peak_ends (h : s.step (.peak t) = some s') : Ends { s with notes := [] } s' t s.dq
    [if s.dq.Empty then .eempty else .item s.dq.front] .idle := by
  rw [← some.inj (ite_none_right_eq_some.mp h).2]
  exact ⟨rfl, rfl, rfl⟩

end DataSystem

/-! ## Calls that do not wait -/

/-- A call with the time limit 0. -/
inductive DataCall where
  | push (t : ℕ) (item : DataItem)
  | pop (t : ℕ)

def DataCall.event : DataCall → DataSystem.Event
  | .push t item => .push t item 0
  | .pop t => .pop t 0

/-- What the calls return, one after the other. -/
def DataSystem.answers : DataSystem → List DataCall → List DataReply
  | _, [] => []
  | s, c :: calls =>
    match s.step c.event with
    | none => []
    | some s' => s'.replies ++ s'.answers calls

namespace BoundedFifo

/-- A call on a queue for at most `size` items. -/
def perform (size : ℕ) (items : List DataItem) : DataCall → DataReply × List DataItem
  | .push _ item =>
    if items.length = size then (.failed .etimeout, items) else (.eok, items ++ [item])
  | .pop _ =>
    match items with
    | [] => (.failed .etimeout, [])
    | item :: rest => (.item item, rest)

def answers (size : ℕ) : List DataItem → List DataCall → List DataReply
  | _, [] => []
  | items, c :: calls => (perform size items c).1 :: answers size (perform size items c).2 calls

/-- Whenever a push finds `size` items, their numbers are the same modulo 2^16 as in a
queue whose indices have not wrapped; `taken` counts the pops that gave an item. -/
def SeesFull (size : ℕ) : ℕ → List DataItem → List DataCall → Prop
  | _, _, [] => True
  | taken, items, .push t item :: calls => (items.length = size → taken % 2 ^ 16 + size < 2 ^ 16) ∧
      SeesFull size taken (perform size items (.push t item)).2 calls
  | taken, [], .pop _ :: calls => SeesFull size taken [] calls
  | taken, _ :: rest, .pop _ :: calls => SeesFull size (taken + 1) rest calls

theorem SeesFull.of_pairs {size taken n t : ℕ} {item : DataItem} {calls : List DataCall}
    (hsize : size ≠ 0)
    (h : SeesFull size taken [] ((replicate n [.push t item, .pop t]).flatten ++ calls)) :
    SeesFull size (taken + n) [] calls := by
  induction n generalizing taken with
  | zero => exact h
  | succ n ih =>
    have hperform : (perform size [] (.push t item)).2 = [item] := by
      simp [perform, Ne.symm hsize]
    have hrest : SeesFull size taken (perform size [] (.push t item)).2
        (.pop t :: ((replicate n [.push t item, .pop t]).flatten ++ calls)) := h.2
    rw [hperform] at hrest
    rw [add_comm n, ← add_assoc]
    exact ih hrest

end BoundedFifo

namespace DataSystem

open BoundedFifo

variable {s s' : DataSystem} {t taken : ℕ} {items : List DataItem} {item : DataItem}
  {calls : List DataCall}

theorem idle_update (hidle : ∀ t, s.pc t = .idle) (u : ℕ) : update s.pc t .idle u = .idle := by
  rcases eq_or_ne u t with rfl | hu
  · rw [update_self]
  · rw [update_of_ne hu, hidle u]

theorem step_push_zero (hidle : ∀ t, s.pc t = .idle) (t : ℕ) (item : DataItem) :
    ∃ s', s.step (DataCall.push t item).event = some s' ∧ (∀ t, s'.pc t = .idle) ∧
    (s.dq.Full ∧ s'.dq.ring = s.dq.ring ∧ s'.replies = [.failed .etimeout] ∨
      ¬s.dq.Full ∧ s'.dq.ring = (s.dq.store item).ring ∧ s'.replies = [.eok]) := by
  have hstep : s.step (.push t item 0) = { s with notes := [] }.rtDataQueuePush t item 0 :=
    if_pos (hidle t)
  obtain ⟨s', hs'⟩ : ∃ s', { s with notes := [] }.rtDataQueuePush t item 0 = some s' := by
    unfold rtDataQueuePush pushLoop
    split_ifs <;> exact ⟨_, rfl⟩
  refine ⟨s', hstep.trans hs', ?_⟩
  rcases pushLoop_ends hs' with ⟨hfull, -, hends⟩ | ⟨-, hzero, -⟩ | ⟨hfull, hends⟩
  · exact ⟨fun u => hends.pc ▸ idle_update hidle u, .inl ⟨hfull, hends.ring, hends.replies⟩⟩
  · exact absurd rfl hzero
  · exact ⟨fun u => hends.pc ▸ idle_update hidle u, .inr ⟨hfull, hends.ring, hends.replies⟩⟩

theorem step_pop_zero (hidle : ∀ t, s.pc t = .idle) (t : ℕ) :
    ∃ s', s.step (DataCall.pop t).event = some s' ∧ (∀ t, s'.pc t = .idle) ∧
    (s.dq.Empty ∧ s'.dq.ring = s.dq.ring ∧ s'.replies = [.failed .etimeout] ∨
      ¬s.dq.Empty ∧ s'.dq.ring = s.dq.advance.ring ∧ s'.replies = [.item s.dq.front]) := by
  obtain ⟨s', hs'⟩ : ∃ s', s.step (.pop t 0) = some s' := by
    rw [step, if_pos (hidle t), rtDataQueuePop, popLoop]
    split_ifs <;> exact ⟨_, rfl⟩
  refine ⟨s', hs', ?_⟩
  rcases pop_ends hs' with ⟨hempty, hends⟩ | ⟨hempty, hends⟩
  · exact ⟨fun u => hends.pc ▸ idle_update hidle u, .inl ⟨hempty, hends.ring, hends.replies⟩⟩
  · exact ⟨fun u => hends.pc ▸ idle_update hidle u, .inr ⟨hempty, hends.ring, hends.replies⟩⟩

theorem answers_cons {reply : DataReply} {c : DataCall} (hstep : s.step c.event = some s')
    (hreply : s'.replies = [reply]) : s.answers (c :: calls) = reply :: s'.answers calls := by
  rw [answers, hstep]
  simp only [hreply, singleton_append]

/-- By induction on the calls: the answers are those of the bounded FIFO as long as every
full queue looks full. -/
theorem answers_eq_iff (hholds : s.dq.Holds taken items) (hidle : ∀ t, s.pc t = .idle) :
    s.answers calls = BoundedFifo.answers s.dq.size items calls ↔
      SeesFull s.dq.size taken items calls := by
  induction calls generalizing s taken items with
  | nil => exact iff_of_true rfl trivial
  | cons c calls ih =>
    cases c with
    | push t item =>
      obtain ⟨s', hstep, hidle', hcases⟩ := step_push_zero hidle t item
      rcases lt_or_eq_of_le hholds.room with hlen | hlen
      · obtain ⟨hring, hreply⟩ := (hcases.resolve_left fun h => hholds.not_full hlen h.1).2
        have hsize : s'.dq.size = s.dq.size := congrArg Prod.fst hring
        have hnext := ih ((hholds.store hlen item).of_ring hring) hidle'
        rw [hsize] at hnext
        simp only [answers_cons hstep hreply, BoundedFifo.answers, SeesFull, perform,
          if_neg (Nat.ne_of_lt hlen), cons.injEq, hnext, true_and]
        exact (and_iff_right fun h => absurd h (Nat.ne_of_lt hlen)).symm
      · rcases hcases with ⟨hfull, hring, hreply⟩ | ⟨hfull, hring, hreply⟩
        · have hsize : s'.dq.size = s.dq.size := congrArg Prod.fst hring
          have hnext := ih (hholds.of_ring hring) hidle'
          rw [hsize] at hnext
          simp only [answers_cons hstep hreply, BoundedFifo.answers, SeesFull, perform,
            if_pos hlen, cons.injEq, hnext, true_and]
          exact (and_iff_right fun _ => (hholds.full_iff hlen).mp hfull).symm
        · -- the push is accepted
          refine iff_of_false ?_ fun h => hfull ((hholds.full_iff hlen).mpr (h.1 hlen))
          simp [answers_cons hstep hreply, BoundedFifo.answers, perform, hlen]
    | pop t =>
      obtain ⟨s', hstep, hidle', hcases⟩ := step_pop_zero hidle t
      cases items with
      | nil =>
        obtain ⟨hring, hreply⟩ := (hcases.resolve_right fun h => h.1 (hholds.empty_iff.mpr rfl)).2
        have hsize : s'.dq.size = s.dq.size := congrArg Prod.fst hring
        have hnext := ih (hholds.of_ring hring) hidle'
        rw [hsize] at hnext
        simp only [answers_cons hstep hreply, BoundedFifo.answers, SeesFull, perform,
          cons.injEq, hnext, true_and]
      | cons item rest =>
        obtain ⟨hring, hreply⟩ :=
          (hcases.resolve_left fun h => cons_ne_nil _ _ (hholds.empty_iff.mp h.1)).2
        have hsize : s'.dq.size = s.dq.size := congrArg Prod.fst hring
        have hnext := ih (hholds.advance.of_ring hring) hidle'
        rw [hsize] at hnext
        rw [hholds.front] at hreply
        simp only [answers_cons hstep hreply, BoundedFifo.answers, SeesFull, perform,
          cons.injEq, hnext, true_and]

end DataSystem

/-! ## The data queue and the FIFO -/

/-- The calls without a time limit on a new queue return what they return on a bounded
FIFO, exactly if no push meets a full queue whose items lie across the wrap of the
indices. -/
theorem data_queue_refines_fifo (k : Fin 16) (queue : ℕ → DataItem) (lwm : ℕ) (evtNotify : Bool)
    (thread : ℕ → Waiter) (masked : ℕ → Bool) (calls : List DataCall) :
    (init (DataQueue.init queue (2 ^ k.val) lwm evtNotify) thread masked).answers calls =
        BoundedFifo.answers (2 ^ k.val) [] calls ↔
      BoundedFifo.SeesFull (2 ^ k.val) 0 [] calls :=
  answers_eq_iff (.init queue lwm evtNotify (by omega)) fun _ => rfl

/-- 65535 items go through a queue for one item.  Of the next two, both are accepted. -/
theorem data_queue_overruns :
    (init (DataQueue.init (fun _ => ⟨0, 0⟩) 1 0 false) (fun _ => ⟨.eok, false⟩)
        fun _ => false).answers
        ((List.replicate 65535 [.push 0 ⟨4096, 1⟩, .pop 0]).flatten ++
          [.push 0 ⟨4096, 1⟩, .push 0 ⟨8192, 1⟩]) ≠
      BoundedFifo.answers 1 []
        ((List.replicate 65535 [.push 0 ⟨4096, 1⟩, .pop 0]).flatten ++
          [.push 0 ⟨4096, 1⟩, .push 0 ⟨8192, 1⟩]) := by
  intro heq
  have hsees := (answers_eq_iff
    (.init (fun _ => ⟨0, 0⟩) 0 false (zero_le _)) fun _ => rfl).mp heq
  have hend := BoundedFifo.SeesFull.of_pairs (by decide) hsees
  exact absurd (hend.2.1 rfl) (by decide)

end Easyio.Drivers
