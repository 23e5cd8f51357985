import Easyio.Drivers.Waiter

/-!
# The data queue

`rt_data_queue_init`, `rt_data_queue_push`, `rt_data_queue_pop` and `rt_data_queue_peak`
of `components/drivers/src/dataqueue.c`, in a system of threads that call them.

What a call does between `rt_hw_interrupt_disable` and the next `rt_hw_interrupt_enable`
is one step, together with what it does after that without touching the queue.  A call
that blocks ends its step with `rt_schedule`; the thread goes on with the step `run`, when
it is no longer in a list.  A thread timer that is running may run out at any time.

The indices are 16 bits wide and run freely.  Their difference is taken in `int`.

`masked t` says whether interrupts are disabled for the thread or handler `t`.  A thread
that is switched to again finds them as it left them.  The notes of a step are its calls
of `rt_schedule` and `evt_notify` and its return, each with the mask at that moment.

A result `none` stands for a step that cannot happen or a failed assertion.
-/

namespace Easyio.Drivers

open Function Kernel

/-! ## The queue -/

/-- `struct rt_data_item` -/
structure DataItem where
  dataPtr : ℕ
  dataSize : ℕ
  deriving DecidableEq

/-- `struct rt_data_queue` -/
structure DataQueue where
  size : ℕ
  lwm : ℕ
  waitingLwm : Bool
  getIndex : ℕ
  putIndex : ℕ
  queue : ℕ → DataItem
  suspendedPushList : List ℕ
  suspendedPopList : List ℕ
  /-- whether `evt_notify` is set -/
  evtNotify : Bool

namespace DataQueue

/-- `rt_data_queue_init`, when there is memory for the items. -/
def init (queue : ℕ → DataItem) (size lwm : ℕ) (evtNotify : Bool) : DataQueue where
  size := size
  lwm := lwm
  waitingLwm := false
  getIndex := 0
  putIndex := 0
  queue := queue
  suspendedPushList := []
  suspendedPopList := []
  evtNotify := evtNotify

variable (dq : DataQueue)

/-- `index & mask` -/
def slot (index : ℕ) : ℕ := index &&& (dq.size + (2 ^ 16 - 1)) % 2 ^ 16

/-- `put_index - get_index == size` -/
def Full : Prop := (dq.putIndex : ℤ) - dq.getIndex = dq.size

instance (dq : DataQueue) : Decidable dq.Full := Int.instDecidableEq _ _

/-- `get_index == put_index` -/
def Empty : Prop := dq.getIndex = dq.putIndex

instance (dq : DataQueue) : Decidable dq.Empty := Nat.decEq _ _

/-- The item stored at the put index. -/
def store (item : DataItem) : DataQueue :=
  { dq with
    queue := update dq.queue (dq.slot dq.putIndex) item
    putIndex := (dq.putIndex + 1) % 2 ^ 16 }

/-- The item at the get index. -/
def front : DataItem := dq.queue (dq.slot dq.getIndex)

/-- `get_index += 1` -/
def advance : DataQueue := { dq with getIndex := (dq.getIndex + 1) % 2 ^ 16 }

/-- The test for the low water mark in `rt_data_queue_pop`, after the step of the index. -/
def LowMark : Prop :=
  dq.waitingLwm = true ∧ (dq.putIndex : ℤ) - dq.getIndex ≤ dq.lwm

instance (dq : DataQueue) : Decidable dq.LowMark :=
  inferInstanceAs (Decidable (dq.waitingLwm = true ∧ (dq.putIndex : ℤ) - dq.getIndex ≤ dq.lwm))

/-- `rt_list_remove(&(thread->tlist))` -/
def unlink (t : ℕ) : DataQueue :=
  { dq with
    suspendedPushList := dq.suspendedPushList.erase t
    suspendedPopList := dq.suspendedPopList.erase t }

end DataQueue

/-! ## The system -/

/-- The events of `evt_notify` -/
inductive DataEvent where
  | pop
  | push
  | lwm
  deriving DecidableEq

/-- What a call returns, with the item it stores for its caller. -/
inductive DataReply where
  | eok
  | item (item : DataItem)
  | failed (err : Err)
  | eempty
  deriving DecidableEq

namespace DataSystem

/-- Where a thread is: outside of the calls, or in `rt_schedule` inside of one.  `entry`
is the mask with which the call was entered. -/
inductive Pc where
  | idle
  | push (item : DataItem) (timeout : ℤ) (entry : Bool)
  | pop (timeout : ℤ) (entry : Bool)
  deriving DecidableEq

inductive Act where
  | schedule
  | notify (event : DataEvent)
  | ret (reply : DataReply)
  deriving DecidableEq

/-- Something that a call does, with the mask with which the call was entered and the
mask at this moment. -/
structure Note where
  act : Act
  entry : Bool
  masked : Bool
  deriving DecidableEq

inductive Event where
  | push (t : ℕ) (item : DataItem) (timeout : ℤ)
  | pop (t : ℕ) (timeout : ℤ)
  | peak (t : ℕ)
  /-- the thread runs again after `rt_schedule` -/
  | run (t : ℕ)
  /-- the timer of the thread runs out -/
  | timeout (t : ℕ)

end DataSystem

/-- The queue and the threads that call it, with the notes of the last step. -/
structure DataSystem where
  dq : DataQueue
  thread : ℕ → Waiter
  pc : ℕ → DataSystem.Pc
  masked : ℕ → Bool
  notes : List DataSystem.Note

namespace DataSystem

/-- A new queue, when no thread is inside of a call. -/
def init (dq : DataQueue) (thread : ℕ → Waiter) (masked : ℕ → Bool) : DataSystem :=
  ⟨dq, thread, fun _ => .idle, masked, []⟩

section

variable (s : DataSystem)

def setDq (dq : DataQueue) : DataSystem := { s with dq }

section

variable (t : ℕ)

/-- `rt_hw_interrupt_disable` -/
def disable : DataSystem :=
  { s with masked := update s.masked t true }

/-- `rt_hw_interrupt_enable(level)` -/
def enable (level : Bool) : DataSystem :=
  { s with masked := update s.masked t level }

def note (entry : Bool) (act : Act) : DataSystem :=
  { s with notes := s.notes ++ [⟨act, entry, s.masked t⟩] }

/-- `evt_notify`, if it is set. -/
def notify (s : DataSystem) (t : ℕ) (entry : Bool) (event : DataEvent) : DataSystem :=
  if s.dq.evtNotify then s.note t entry (.notify event) else s

/-- The call of `t` returns. -/
def ret (s : DataSystem) (t : ℕ) (entry : Bool) (reply : DataReply) : DataSystem :=
  { s.note t entry (.ret reply) with pc := update s.pc t .idle }

/-- The thread `t`, which is in a list already, waits and goes on at `pc`. -/
def block (timeout : ℤ) (entry level : Bool) (pc : Pc) : Option DataSystem :=
  (Waiter.wait s.thread t timeout).map fun thread =>
    ({ s with thread, pc := update s.pc t pc }.enable t level).note t entry .schedule

/-- The thread `u` is resumed, and `t` calls `rt_schedule`. -/
def wake (u : ℕ) (entry level : Bool) : DataSystem :=
  ({ s.setDq (s.dq.unlink u) with thread := Waiter.resume s.thread u }.enable t level).note t entry
    .schedule

/-- The end of `rt_data_queue_push`, after the item was stored. -/
def pushEnd (entry level : Bool) : DataSystem :=
  match s.dq.suspendedPopList with
  | u :: _ => (s.wake t u entry level).ret t entry .eok
  | [] => ((s.enable t level).notify t entry .push).ret t entry .eok

/-- The loop of `rt_data_queue_push`, from its condition to the switch, and what follows
it. -/
def pushLoop (item : DataItem) (timeout : ℤ) (entry level : Bool) : Option DataSystem :=
  if s.dq.Full then
    if timeout = 0 then
      some (((s.setDq { s.dq with waitingLwm := true }).enable t level).ret t entry
        (.failed .etimeout))
    else
      (s.setDq
        { s.dq with
          waitingLwm := true
          suspendedPushList := s.dq.suspendedPushList ++ [t] }).block t timeout entry level
        (.push item timeout entry)
  else some ((s.setDq (s.dq.store item)).pushEnd t entry level)

/-- `rt_data_queue_push`, up to the switch. -/
def rtDataQueuePush (item : DataItem) (timeout : ℤ) : Option DataSystem :=
  (s.disable t).pushLoop t item timeout (s.masked t) (s.masked t)

/-- `rt_data_queue_push` after the switch. -/
def pushResumed (item : DataItem) (timeout : ℤ) (entry : Bool) : Option DataSystem :=
  if (s.thread t).error ≠ .eok then
    some (((s.disable t).enable t (s.masked t)).ret t entry (.failed (s.thread t).error))
  else (s.disable t).pushLoop t item timeout entry (s.masked t)

/-- The end of `rt_data_queue_pop`, after the item was taken. -/
def popEnd (item : DataItem) (entry level : Bool) : DataSystem :=
  if s.dq.LowMark then
    match s.dq.suspendedPushList with
    | u :: _ =>
      (((s.setDq { s.dq with waitingLwm := false }).wake t u entry level).notify t entry .lwm).ret t
        entry (.item item)
    | [] =>
      ((s.setDq { s.dq with waitingLwm := false }).notify t entry .lwm).ret t entry (.item item)
  else ((s.enable t level).notify t entry .pop).ret t entry (.item item)

/-- The loop of `rt_data_queue_pop`, from its condition to the switch, and what follows
it. -/
def popLoop (timeout : ℤ) (entry level : Bool) : Option DataSystem :=
  if s.dq.Empty then
    if timeout = 0 then some ((s.enable t level).ret t entry (.failed .etimeout))
    else
      (s.setDq { s.dq with suspendedPopList := s.dq.suspendedPopList ++ [t] }).block t timeout
        entry level (.pop timeout entry)
  else some ((s.setDq s.dq.advance).popEnd t s.dq.front entry level)

/-- `rt_data_queue_pop`, up to the switch. -/
def rtDataQueuePop (timeout : ℤ) : Option DataSystem :=
  (s.disable t).popLoop t timeout (s.masked t) (s.masked t)

/-- `rt_data_queue_pop` after the switch. -/
def popResumed (timeout : ℤ) (entry : Bool) : Option DataSystem :=
  if (s.thread t).error ≠ .eok then
    some (((s.disable t).enable t (s.masked t)).ret t entry (.failed (s.thread t).error))
  else (s.disable t).popLoop t timeout entry (s.masked t)

/-- `rt_data_queue_peak` -/
def rtDataQueuePeak : DataSystem :=
  ((s.disable t).enable t (s.masked t)).ret t (s.masked t)
    (if s.dq.Empty then .eempty else .item s.dq.front)

/-- The thread `t` runs again, when it is in no list. -/
def resumed : Option DataSystem :=
  match s.pc t with
  | .idle => none
  | .push item timeout entry =>
    if t ∈ s.dq.suspendedPushList then none else s.pushResumed t item timeout entry
  | .pop timeout entry =>
    if t ∈ s.dq.suspendedPopList then none else s.popResumed t timeout entry

end

/-- One step, without the notes of the one before. -/
def step : Event → Option DataSystem
  | .push t item timeout =>
    if s.pc t = .idle then { s with notes := [] }.rtDataQueuePush t item timeout else none
  | .pop t timeout =>
    if s.pc t = .idle then { s with notes := [] }.rtDataQueuePop t timeout else none
  | .peak t => if s.pc t = .idle then some ({ s with notes := [] }.rtDataQueuePeak t) else none
  | .run t => { s with notes := [] }.resumed t
  | .timeout t =>
    if (s.thread t).timerActive then
      some { s with dq := s.dq.unlink t, thread := Waiter.expire s.thread t, notes := [] }
    else none

/-- What the calls that ended in the last step returned. -/
def replies : List DataReply :=
  s.notes.filterMap fun n =>
    match n.act with
    | .ret reply => some reply
    | _ => none

end

/-! ## What the parts of a call change -/

variable {s : DataSystem} {t u : ℕ} {entry level : Bool} {reply : DataReply} {event : DataEvent}
  {dq : DataQueue}

@[simp] theorem setDq_dq : (s.setDq dq).dq = dq := rfl

@[simp] theorem setDq_pc : (s.setDq dq).pc = s.pc := rfl

@[simp] theorem setDq_replies : (s.setDq dq).replies = s.replies := rfl

@[simp] theorem enable_dq : (s.enable t level).dq = s.dq := rfl

@[simp] theorem enable_pc : (s.enable t level).pc = s.pc := rfl

@[simp] theorem enable_replies : (s.enable t level).replies = s.replies := rfl

@[simp] theorem notify_dq : (s.notify t entry event).dq = s.dq := by
  unfold notify
  split <;> rfl

@[simp] theorem notify_pc : (s.notify t entry event).pc = s.pc := by
  unfold notify
  split <;> rfl

@[simp] theorem notify_masked : (s.notify t entry event).masked = s.masked := by
  unfold notify
  split <;> rfl

@[simp] theorem notify_replies : (s.notify t entry event).replies = s.replies := by
  unfold notify
  split <;> simp [note, replies]

@[simp] theorem ret_dq : (s.ret t entry reply).dq = s.dq := rfl

@[simp] theorem ret_pc : (s.ret t entry reply).pc = update s.pc t .idle := rfl

@[simp] theorem ret_replies : (s.ret t entry reply).replies = s.replies ++ [reply] := by
  simp [ret, note, replies]

@[simp] theorem wake_pc : (s.wake t u entry level).pc = s.pc := rfl

@[simp] theorem wake_replies : (s.wake t u entry level).replies = s.replies := by
  simp [wake, note, enable, setDq, replies]

end DataSystem

end Easyio.Drivers
