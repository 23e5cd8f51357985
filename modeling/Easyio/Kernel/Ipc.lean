import Easyio.Kernel.Sched
import Easyio.Kernel.Words
import Mathlib.Data.Int.Basic

/-!
# Communication between threads

`src/ipc.c`: semaphores, mutexes, events, mailboxes and message queues, in a system of
threads that call them.

What a call does between `rt_hw_interrupt_disable` and `rt_hw_interrupt_enable` is one
step.  A call that blocks ends its step with `rt_schedule`; what it does when the thread
runs again is the next step of that thread, and `Pc` says where the thread is.  In `step`
any ready thread may make the next step, in `kernelStep` only the current one.

The counters have the widths of `rtdef.h`.  The functions that reset and remove objects
are left out, and so are the hooks.
-/

namespace Easyio.Kernel

open Function (update)

namespace Ipc

/-- `parent.parent.flag` of an object: `RT_IPC_FLAG_FIFO` or `RT_IPC_FLAG_PRIO` -/
inductive Flag where
  | fifo
  | prio
  deriving DecidableEq

/-- `struct rt_semaphore` -/
structure Semaphore where
  value : ℕ
  flag : Flag

/-- `struct rt_mutex` -/
structure Mutex where
  value : ℕ
  originalPriority : ℕ
  hold : ℕ
  owner : Option ℕ
  flag : Flag

/-- `struct rt_event` -/
structure EventObject where
  set : BitVec 32
  flag : Flag

/-- `struct rt_mailbox` -/
structure Mailbox where
  msgPool : ℕ → ℕ
  size : ℕ
  entry : ℕ
  inOffset : ℕ
  outOffset : ℕ
  flag : Flag

/-- `struct rt_messagequeue`, with the `next` and the bytes of its message nodes. -/
structure MessageQueue where
  msgSize : ℕ
  entry : ℕ
  head : Option ℕ
  tail : Option ℕ
  free : Option ℕ
  next : ℕ → Option ℕ
  data : ℕ → List ℕ
  flag : Flag

/-- What a call stores for its caller. -/
inductive Output where
  | none
  | set (recved : BitVec 32)
  | mail (value : ℕ)
  | message (bytes : List ℕ)
  deriving DecidableEq

/-- Where a thread is: outside of all calls, with the result of the last one, or inside
of one. -/
inductive Pc where
  | returned (err : Err) (out : Output)
  /-- in `rt_schedule` -/
  | sleep
  | semTake (i : ℕ)
  | mutexTake (i : ℕ)
  | eventRecv (i : ℕ)
  | mbSend (i value : ℕ) (timeout : ℤ) (start : ℕ)
  | mbRecv (i : ℕ) (timeout : ℤ) (start : ℕ)
  | mqRecv (i size : ℕ) (timeout : ℤ) (start : ℕ)
  /-- a message node is held -/
  | mqFill (i msg : ℕ) (buffer : List ℕ) (urgent : Bool)
  | mqLink (i msg : ℕ) (urgent : Bool)
  | mqCopy (i msg size : ℕ)
  | mqFree (i msg : ℕ) (bytes : List ℕ)
  deriving DecidableEq

end Ipc

open Ipc

/-! ## Threads in the lists of objects -/

namespace Sched

variable (s : Sched)

def setError (t : ℕ) (err : Err) : Sched := s.modify t ({ · with error := err })

/-- The loop of `rt_ipc_list_suspend` for `RT_IPC_FLAG_PRIO` -/
def insertByPriority (priority : ℕ → ℕ) (t : ℕ) : List ℕ → List ℕ
  | [] => [t]
  | u :: rest =>
    if priority t < priority u then t :: u :: rest else u :: insertByPriority priority t rest

/-- The list with the thread `t` in its place. -/
def place (priority : ℕ → ℕ) (t : ℕ) (list : List ℕ) : Flag → List ℕ
  | .fifo => list ++ [t]
  | .prio => insertByPriority priority t list

/-- The thread `t` put into the list of `w`. -/
def enlist (w : Wait) (t : ℕ) (flag : Flag) : Sched :=
  { s with
    waiting := update s.waiting w
      (place (fun u => (s.thread u).currentPriority) t (s.waiting w) flag) }

/-- `rt_ipc_list_suspend` -/
def rtIpcListSuspend (w : Wait) (t : ℕ) (flag : Flag) : Sched :=
  (s.rtThreadSuspend t).2.enlist w t flag

/-- `rt_ipc_list_resume`, called when the list is not empty. -/
def rtIpcListResume (w : Wait) : Sched :=
  match s.waiting w with
  | [] => s
  | t :: _ => (s.rtThreadResume t).2

/-- The timer of a wait of `time` ticks, where a negative `time` is no limit. -/
def startWait (t : ℕ) (time : ℤ) : Option Sched :=
  if 0 < time then s.startTimer t time.toNat else some s

/-- The thread `t` waits: it is suspended, its timer is started, and `rt_schedule`
switches to another one. -/
def block (w : Wait) (flag : Flag) (t : ℕ) (time : ℤ) : Option Sched :=
  ((s.rtIpcListSuspend w t flag).startWait t time).bind rtSchedule

/-- The first thread that waits is resumed, and `rt_schedule` is called. -/
def wake (w : Wait) : Option Sched := (s.rtIpcListResume w).rtSchedule

/-- `rt_mutex_take` gives the owner `o` the priority of the thread `t` that will wait for
it, if that is higher. -/
def raise (o t : ℕ) : Option Sched :=
  if (s.thread t).currentPriority < (s.thread o).currentPriority then
    s.rtThreadControl o (s.thread t).currentPriority
  else some s

/-- `rt_mutex_release` gives the thread `t` its `original_priority` back. -/
def restore (t priority : ℕ) : Option Sched :=
  if priority ≠ (s.thread t).currentPriority then s.rtThreadControl t priority else some s

end Sched

/-- The threads and the objects. -/
structure Ipc where
  sched : Sched
  pc : ℕ → Pc
  sem : ℕ → Semaphore
  mutex : ℕ → Mutex
  event : ℕ → EventObject
  mailbox : ℕ → Mailbox
  queue : ℕ → MessageQueue

namespace Ipc

section

variable (s : Ipc)

/-- The call of the thread `t` returns. -/
def ret (t : ℕ) (err : Err) (out : Output) : Ipc :=
  { s with pc := update s.pc t (.returned err out) }

/-- The thread `t` goes on at `pc`. -/
def goto (t : ℕ) (pc : Pc) : Ipc := { s with pc := update s.pc t pc }

def setError (s : Ipc) (t : ℕ) (err : Err) : Ipc := { s with sched := s.sched.setError t err }

section

variable (i : ℕ)

def setSem (value : ℕ) : Ipc :=
  { s with sem := update s.sem i { s.sem i with value } }

def setMutex (m : Mutex) : Ipc := { s with mutex := update s.mutex i m }

def setEvent (set : BitVec 32) : Ipc :=
  { s with event := update s.event i { s.event i with set } }

def setMailbox (mb : Mailbox) : Ipc :=
  { s with mailbox := update s.mailbox i mb }

def setQueue (mq : MessageQueue) : Ipc :=
  { s with queue := update s.queue i mq }

/-- The new state of the threads, if there is one. -/
def under (sched : Option Sched) : Option Ipc := sched.map fun sched => { s with sched }

/-- A call that has to wait: the thread `t` is put into the list of `w`, and goes on at
`pc`. -/
def block (s : Ipc) (t : ℕ) (w : Wait) (flag : Flag) (time : ℤ) (pc : Pc) : Option Ipc :=
  ((s.goto t pc).under (s.sched.block w flag t time))

/-- What a wait that is over returns: `thread->error`. -/
def waitEnd (t : ℕ) : Ipc := s.ret t (s.sched.thread t).error .none

/-! ## Semaphores -/

/-- `rt_sem_init`, where `value` is a 32-bit number. -/
def rtSemInit (value : ℕ) (flag : Flag) : Ipc :=
  { s with
    sem := update s.sem i { value := value % 2 ^ 16, flag }
    sched := { s.sched with waiting := update s.sched.waiting (.sem i) [] } }

/-- `rt_sem_take`, up to the switch. -/
def rtSemTake (t i : ℕ) (time : ℤ) : Option Ipc :=
  if 0 < (s.sem i).value then some ((s.setSem i ((s.sem i).value - 1)).ret t .eok .none)
  else if time = 0 then some (s.ret t .etimeout .none)
  else (s.setError t .eok).block t (.sem i) (s.sem i).flag time (.semTake i)

/-- `rt_sem_trytake` -/
def rtSemTrytake (t i : ℕ) : Option Ipc := s.rtSemTake t i 0

/-- `rt_sem_release` -/
def rtSemRelease : Option Ipc :=
  if s.sched.waiting (.sem i) ≠ [] then s.under (s.sched.wake (.sem i))
  else some (s.setSem i (((s.sem i).value + 1) % 2 ^ 16))

/-! ## Mutexes -/

/-- `rt_mutex_init` -/
def rtMutexInit (flag : Flag) : Ipc :=
  { s with
    mutex := update s.mutex i
      { value := 1, originalPriority := 0xff, hold := 0, owner := none, flag }
    sched := { s.sched with waiting := update s.sched.waiting (.mutex i) [] } }

/-- The mutex after a thread of priority `priority` has got it. -/
def Mutex.acquire (m : Mutex) (t priority : ℕ) : Mutex :=
  { m with owner := some t, originalPriority := priority, hold := (m.hold + 1) % 2 ^ 8 }

/-- The mutex, of which `hold` has become 0, when nobody waits for it. -/
def Mutex.giveUp (m : Mutex) : Mutex :=
  { m with value := (m.value + 1) % 2 ^ 16, owner := none, originalPriority := 0xff, hold := 0 }

/-- `rt_mutex_take`, up to the switch, after `thread->error` was set. -/
def mutexTake (s : Ipc) (t i : ℕ) (time : ℤ) : Option Ipc :=
  if (s.mutex i).owner = some t then
    some ((s.setMutex i { s.mutex i with hold := ((s.mutex i).hold + 1) % 2 ^ 8 }).ret t .eok .none)
  else if 0 < (s.mutex i).value then
    some ((s.setMutex i ({ s.mutex i with value := (s.mutex i).value - 1 }.acquire t
      (s.sched.thread t).currentPriority)).ret t .eok .none)
  else if time = 0 then some ((s.setError t .etimeout).ret t .etimeout .none)
  else (s.mutex i).owner.bind fun o => (s.under (s.sched.raise o t)).bind fun s =>
    s.block t (.mutex i) (s.mutex i).flag time (.mutexTake i)

/-- `rt_mutex_take`, up to the switch. -/
def rtMutexTake (t i : ℕ) (time : ℤ) : Option Ipc := (s.setError t .eok).mutexTake t i time

/-- The mutex, of which `hold` has become 0, goes to the first thread that waits, or is
free. -/
def handOver : Option Ipc :=
  match s.sched.waiting (.mutex i) with
  | [] => some (s.setMutex i (s.mutex i).giveUp)
  | u :: _ => (s.setMutex i ({ s.mutex i with hold := 0 }.acquire u
      (s.sched.thread u).currentPriority)).under (s.sched.wake (.mutex i))

end

/-- `rt_mutex_release` -/
def rtMutexRelease (t i : ℕ) : Option Ipc :=
  if (s.mutex i).owner ≠ some t then some ((s.setError t .error).ret t .error .none)
  else if ((s.mutex i).hold + (2 ^ 8 - 1)) % 2 ^ 8 = 0 then
    ((s.under (s.sched.restore t (s.mutex i).originalPriority)).bind (handOver · i)).map
      (ret · t .eok .none)
  else some ((s.setMutex i { s.mutex i with
    hold := ((s.mutex i).hold + (2 ^ 8 - 1)) % 2 ^ 8 }).ret t .eok .none)

end

/-! ## Events -/

/-- `RT_EVENT_FLAG_AND`, `RT_EVENT_FLAG_OR` and `RT_EVENT_FLAG_CLEAR` -/
def isAnd (option : BitVec 8) : Bool := option &&& 1#8 ≠ 0#8

@[inherit_doc isAnd]
def isOr (option : BitVec 8) : Bool := option &&& 2#8 ≠ 0#8

@[inherit_doc isAnd]
def isClear (option : BitVec 8) : Bool := option &&& 4#8 ≠ 0#8

/-- Whether the events in `set` are those that are wanted. -/
def eventMet (option : BitVec 8) (want set : BitVec 32) : Bool :=
  if isAnd option then set &&& want = want else isOr option && decide (set &&& want ≠ 0#32)

/-- The events that a receiver gets. -/
def eventTaken (option : BitVec 8) (want set : BitVec 32) : BitVec 32 :=
  if isAnd option then want else want &&& set

/-- The loop of `rt_event_send` over the threads that wait. -/
def sendLoop : List ℕ → Sched × BitVec 32 × Bool → Sched × BitVec 32 × Bool
  | [], state => state
  | t :: rest, (s, set, needSchedule) =>
    if eventMet (s.thread t).eventInfo (s.thread t).eventSet set then
      sendLoop rest
        (((s.modify t fun thread =>
            { thread with eventSet := eventTaken thread.eventInfo thread.eventSet set }
          ).rtThreadResume t).2,
          if isClear (s.thread t).eventInfo then
            set &&& ~~~eventTaken (s.thread t).eventInfo (s.thread t).eventSet set
          else set,
          true)
    else sendLoop rest (s, set, needSchedule)

section

variable (s : Ipc)

/-- `rt_event_send` after the loop -/
def sendEnd (i : ℕ) (state : Sched × BitVec 32 × Bool) : Option Ipc :=
  (s.setEvent i state.2.1).under (if state.2.2 then state.1.rtSchedule else some state.1)

variable (t i : ℕ)

/-- `rt_event_send` -/
def rtEventSend (set : BitVec 32) : Option Ipc :=
  if set = 0#32 then some (s.ret t .error .none)
  else (s.sendEnd i (sendLoop (s.sched.waiting (.event i))
    (s.sched, (s.event i).set ||| set, false))).map (ret · t .eok .none)

/-- The events for which the thread `t` will wait. -/
def wantEvents (t : ℕ) (set : BitVec 32) (option : BitVec 8) : Ipc :=
  { s with sched := s.sched.modify t ({ · with eventSet := set, eventInfo := option }) }

/-- `rt_event_recv`, up to the switch, after `thread->error` was set. -/
def eventRecv (s : Ipc) (t i : ℕ) (set : BitVec 32) (option : BitVec 8) (timeout : ℤ) :
    Option Ipc :=
  if !isAnd option && !isOr option then none
  else if eventMet option set (s.event i).set then
    some ((s.setEvent i (if isClear option then (s.event i).set &&& ~~~set else (s.event i).set)
      ).ret t .eok (.set ((s.event i).set &&& set)))
  else if timeout = 0 then some ((s.setError t .etimeout).ret t .etimeout .none)
  else (s.wantEvents t set option).block t (.event i) (s.event i).flag timeout (.eventRecv i)

/-- `rt_event_recv`, up to the switch. -/
def rtEventRecv (set : BitVec 32) (option : BitVec 8) (timeout : ℤ) : Option Ipc :=
  if set = 0#32 then some (s.ret t .error .none)
  else (s.setError t .eok).eventRecv t i set option timeout

/-- The rest of `rt_event_recv`. -/
def eventRecvEnd (t : ℕ) : Ipc :=
  if (s.sched.thread t).error ≠ .eok then s.waitEnd t
  else s.ret t .eok (.set (s.sched.thread t).eventSet)

/-! ## Mailboxes -/

/-- The time that is left of a `timeout` after a wait that began at the tick `start`. -/
def timeLeft (timeout : ℤ) (start now : ℕ) : ℤ :=
  if 0 < timeout then
    max 0 (BitVec.ofInt 32 (timeout - ((now + 2 ^ 32 - start) % 2 ^ 32 : ℕ))).toInt
  else timeout

/-- `rt_mb_init`, where `size` is a 32-bit number. -/
def rtMbInit (i : ℕ) (msgPool : ℕ → ℕ) (size : ℕ) (flag : Flag) : Ipc :=
  { s with
    mailbox := update s.mailbox i
      { msgPool, size := size % 2 ^ 16, entry := 0, inOffset := 0, outOffset := 0, flag }
    sched := { s.sched with
      waiting := update (update s.sched.waiting (.mbRecv i) []) (.mbSend i) [] } }

/-- An offset moved on by one. -/
def Mailbox.advance (mb : Mailbox) (offset : ℕ) : ℕ :=
  if mb.size ≤ offset + 1 then 0 else offset + 1

def Mailbox.put (mb : Mailbox) (value : ℕ) : Mailbox :=
  { mb with
    msgPool := update mb.msgPool mb.inOffset value
    inOffset := mb.advance mb.inOffset
    entry := (mb.entry + 1) % 2 ^ 16 }

def Mailbox.take (mb : Mailbox) : Mailbox :=
  { mb with outOffset := mb.advance mb.outOffset, entry := mb.entry - 1 }

/-- `rt_schedule` after the first thread was resumed, if one waits. -/
def wakeIfAny (w : Wait) : Option Ipc :=
  if s.sched.waiting w ≠ [] then s.under (s.sched.wake w) else some s

/-- The loop of `rt_mb_send_wait`, from its condition to the switch, and what follows it. -/
def mbSendLoop (value : ℕ) (timeout : ℤ) : Option Ipc :=
  if (s.mailbox i).entry = (s.mailbox i).size then
    if timeout = 0 then some ((s.setError t .eok).ret t .efull .none)
    else (s.setError t .eok).block t (.mbSend i) (s.mailbox i).flag timeout
      (.mbSend i value timeout s.sched.tick)
  else ((s.setMailbox i ((s.mailbox i).put value)).wakeIfAny (.mbRecv i)).map (ret · t .eok .none)

/-- `rt_mb_send_wait`, up to the switch. -/
def rtMbSendWait (value : ℕ) (timeout : ℤ) : Option Ipc :=
  if (s.mailbox i).entry = (s.mailbox i).size ∧ timeout = 0 then some (s.ret t .efull .none)
  else s.mbSendLoop t i value timeout

/-- `rt_mb_send_wait` after the switch. -/
def mbSendResumed (value : ℕ) (timeout : ℤ) (start : ℕ) : Option Ipc :=
  if (s.sched.thread t).error ≠ .eok then some (s.waitEnd t)
  else s.mbSendLoop t i value (timeLeft timeout start s.sched.tick)

/-- `rt_mb_send` -/
def rtMbSend (value : ℕ) : Option Ipc := s.rtMbSendWait t i value 0

/-- The loop of `rt_mb_recv`, from its condition to the switch, and what follows it. -/
def mbRecvLoop (timeout : ℤ) : Option Ipc :=
  if (s.mailbox i).entry = 0 then
    if timeout = 0 then some ((s.setError t .etimeout).ret t .etimeout .none)
    else (s.setError t .eok).block t (.mbRecv i) (s.mailbox i).flag timeout
      (.mbRecv i timeout s.sched.tick)
  else ((s.setMailbox i (s.mailbox i).take).wakeIfAny (.mbSend i)).map
    (ret · t .eok (.mail ((s.mailbox i).msgPool (s.mailbox i).outOffset)))

/-- `rt_mb_recv`, up to the switch. -/
def rtMbRecv (timeout : ℤ) : Option Ipc :=
  if (s.mailbox i).entry = 0 ∧ timeout = 0 then some (s.ret t .etimeout .none)
  else s.mbRecvLoop t i timeout

/-- `rt_mb_recv` after the switch. -/
def mbRecvResumed (timeout : ℤ) (start : ℕ) : Option Ipc :=
  if (s.sched.thread t).error ≠ .eok then some (s.waitEnd t)
  else s.mbRecvLoop t i (timeLeft timeout start s.sched.tick)

/-! ## Message queues -/

/-- `mq->msg_size`, a 16-bit field. -/
def mqMsgSize (msgSize : ℕ) : ℕ := rtAlign msgSize % 2 ^ 16

/-- `mq->max_msgs`, a 16-bit field.  Each message has a link of 4 bytes in front. -/
def mqMaxMsgs (msgSize poolSize : ℕ) : ℕ := poolSize / (mqMsgSize msgSize + 4) % 2 ^ 16

/-- The node `msg` is put into the free list. -/
def MessageQueue.addFree (mq : MessageQueue) (msg : ℕ) : MessageQueue :=
  { mq with next := update mq.next msg mq.free, free := some msg }

/-- `rt_mq_init`, where the sizes are 32-bit numbers and `msgPool` are the bytes of the
pool. -/
def rtMqInit (i : ℕ) (msgPool : ℕ → ℕ) (msgSize poolSize : ℕ) (flag : Flag) : Ipc :=
  { s with
    queue := update s.queue i
      ((List.range (mqMaxMsgs msgSize poolSize)).foldl MessageQueue.addFree
        { msgSize := mqMsgSize msgSize
          entry := 0
          head := none
          tail := none
          free := none
          next := fun _ => none
          data := fun temp => (List.range (mqMsgSize msgSize)).map fun k =>
            msgPool (temp * (mqMsgSize msgSize + 4) + 4 + k)
          flag })
    sched := { s.sched with waiting := update s.sched.waiting (.mq i) [] } }

/-- `rt_mq_send` and `rt_mq_urgent` up to the copy: a message node is taken from the free
list. -/
def mqSendStart (buffer : List ℕ) (urgent : Bool) : Option Ipc :=
  if buffer = [] then none
  else if (s.queue i).msgSize < buffer.length then some (s.ret t .error .none)
  else match (s.queue i).free with
    | none => some (s.ret t .efull .none)
    | some msg => some ((s.setQueue i { s.queue i with free := (s.queue i).next msg }).goto t
        (.mqFill i msg buffer urgent))

/-- `rt_mq_send` -/
def rtMqSend (buffer : List ℕ) : Option Ipc := s.mqSendStart t i buffer false

/-- `rt_mq_urgent` -/
def rtMqUrgent (buffer : List ℕ) : Option Ipc := s.mqSendStart t i buffer true

/-- The copy into the node, before which `rt_mq_send` clears its `next`. -/
def MessageQueue.fill (mq : MessageQueue) (msg : ℕ) (buffer : List ℕ) (urgent : Bool) :
    MessageQueue :=
  { mq with
    next := if urgent then mq.next else update mq.next msg none
    data := update mq.data msg (buffer ++ (mq.data msg).drop buffer.length) }

/-- `rt_mq_send` links the node at the tail, `rt_mq_urgent` at the head. -/
def MessageQueue.link (mq : MessageQueue) (msg : ℕ) (urgent : Bool) : MessageQueue :=
  if urgent then
    { mq with
      next := update mq.next msg mq.head
      head := some msg
      tail := mq.tail.orElse fun _ => some msg
      entry := (mq.entry + 1) % 2 ^ 16 }
  else
    { mq with
      next := match mq.tail with
        | none => mq.next
        | some last => update mq.next last (some msg)
      tail := some msg
      head := mq.head.orElse fun _ => some msg
      entry := (mq.entry + 1) % 2 ^ 16 }

/-- The end of `rt_mq_send` and `rt_mq_urgent`. -/
def mqSendEnd (msg : ℕ) (urgent : Bool) : Option Ipc :=
  ((s.setQueue i ((s.queue i).link msg urgent)).wakeIfAny (.mq i)).map (ret · t .eok .none)

/-- The first message taken out of the queue. -/
def MessageQueue.unlink (mq : MessageQueue) (msg : ℕ) : MessageQueue :=
  { mq with
    head := mq.next msg
    tail := if mq.tail = some msg then none else mq.tail
    entry := mq.entry - 1 }

/-- The loop of `rt_mq_recv`, from its condition to the switch, and what follows it up to
the copy. -/
def mqRecvLoop (size : ℕ) (timeout : ℤ) : Option Ipc :=
  if (s.queue i).entry = 0 then
    if timeout = 0 then some ((s.setError t .etimeout).ret t .etimeout .none)
    else (s.setError t .eok).block t (.mq i) (s.queue i).flag timeout
      (.mqRecv i size timeout s.sched.tick)
  else (s.queue i).head.map fun msg =>
    (s.setQueue i ((s.queue i).unlink msg)).goto t (.mqCopy i msg size)

/-- `rt_mq_recv`, up to the switch or the copy. -/
def rtMqRecv (size : ℕ) (timeout : ℤ) : Option Ipc :=
  if size = 0 then none
  else if (s.queue i).entry = 0 ∧ timeout = 0 then some (s.ret t .etimeout .none)
  else s.mqRecvLoop t i size timeout

/-- `rt_mq_recv` after the switch. -/
def mqRecvResumed (size : ℕ) (timeout : ℤ) (start : ℕ) : Option Ipc :=
  if (s.sched.thread t).error ≠ .eok then some (s.waitEnd t)
  else s.mqRecvLoop t i size (timeLeft timeout start s.sched.tick)

/-- The copy out of the node. -/
def mqCopyOut (msg size : ℕ) : Ipc :=
  s.goto t (.mqFree i msg (((s.queue i).data msg).take (min size (s.queue i).msgSize)))

/-- The end of `rt_mq_recv`: the node goes back to the free list. -/
def mqRecvEnd (msg : ℕ) (bytes : List ℕ) : Ipc :=
  (s.setQueue i { s.queue i with
    next := update (s.queue i).next msg (s.queue i).free
    free := some msg }).ret t .eok (.message bytes)

end

/-! ## Runs -/

/-- The calls of a thread. -/
inductive Call where
  | semTake (i : ℕ) (time : ℤ)
  | semTrytake (i : ℕ)
  | semRelease (i : ℕ)
  | mutexTake (i : ℕ) (time : ℤ)
  | mutexRelease (i : ℕ)
  | eventSend (i : ℕ) (set : BitVec 32)
  | eventRecv (i : ℕ) (set : BitVec 32) (option : BitVec 8) (timeout : ℤ)
  | mbSendWait (i value : ℕ) (timeout : ℤ)
  | mbSend (i value : ℕ)
  | mbRecv (i : ℕ) (timeout : ℤ)
  | mqSend (i : ℕ) (buffer : List ℕ)
  | mqUrgent (i : ℕ) (buffer : List ℕ)
  | mqRecv (i size : ℕ) (timeout : ℤ)
  | sleep (tick : ℕ)
  | yield

inductive Event where
  | call (t : ℕ) (c : Call)
  /-- the next step of a thread that is inside of a call -/
  | resume (t : ℕ)
  /-- the timer of a thread runs out -/
  | timeout (t : ℕ)
  /-- a clock interrupt -/
  | tick

def perform (s : Ipc) (t : ℕ) : Call → Option Ipc
  | .semTake i time => s.rtSemTake t i time
  | .semTrytake i => s.rtSemTrytake t i
  | .semRelease i => (s.rtSemRelease i).map (ret · t .eok .none)
  | .mutexTake i time => s.rtMutexTake t i time
  | .mutexRelease i => s.rtMutexRelease t i
  | .eventSend i set => s.rtEventSend t i set
  | .eventRecv i set option timeout => s.rtEventRecv t i set option timeout
  | .mbSendWait i value timeout => s.rtMbSendWait t i value timeout
  | .mbSend i value => s.rtMbSend t i value
  | .mbRecv i timeout => s.rtMbRecv t i timeout
  | .mqSend i buffer => s.rtMqSend t i buffer
  | .mqUrgent i buffer => s.rtMqUrgent t i buffer
  | .mqRecv i size timeout => s.rtMqRecv t i size timeout
  | .sleep tick => (s.goto t .sleep).under (s.sched.rtThreadSleep t tick)
  | .yield => (s.ret t .eok .none).under (s.sched.rtThreadYield t)

def proceed (s : Ipc) (t : ℕ) : Pc → Option Ipc
  | .returned _ _ => none
  | .sleep => some ({ s with sched := s.sched.rtThreadSleepEnd t }.ret t .eok .none)
  | .semTake _ => some (s.waitEnd t)
  | .mutexTake _ => some (s.waitEnd t)
  | .eventRecv _ => some (s.eventRecvEnd t)
  | .mbSend i value timeout start => s.mbSendResumed t i value timeout start
  | .mbRecv i timeout start => s.mbRecvResumed t i timeout start
  | .mqRecv i size timeout start => s.mqRecvResumed t i size timeout start
  | .mqFill i msg buffer urgent =>
    some ((s.setQueue i ((s.queue i).fill msg buffer urgent)).goto t (.mqLink i msg urgent))
  | .mqLink i msg urgent => s.mqSendEnd t i msg urgent
  | .mqCopy i msg size => some (s.mqCopyOut t i msg size)
  | .mqFree i msg bytes => some (s.mqRecvEnd t i msg bytes)

/-- The thread is outside of all calls. -/
def Pc.isReturned : Pc → Bool
  | .returned _ _ => true
  | _ => false

/-- The steps.  A thread that is ready may make a step. -/
def step (s : Ipc) : Event → Option Ipc
  | .call t c =>
    if (s.sched.thread t).stat = .ready ∧ (s.pc t).isReturned then s.perform t c else none
  | .resume t => if (s.sched.thread t).stat = .ready then s.proceed t (s.pc t) else none
  | .timeout t =>
    if (s.sched.thread t).timerActive then s.under (s.sched.rtThreadTimeout t) else none
  | .tick => s.under (s.sched.currentThread.bind s.sched.rtTickIncrease)

/-- The thread that makes the step is the current one. -/
def onCurrent (s : Ipc) : Event → Bool
  | .call t _ | .resume t => s.sched.currentThread = some t
  | .timeout _ | .tick => true

/-- The steps that the scheduler lets happen. -/
def kernelStep (s : Ipc) (e : Event) : Option Ipc := if s.onCurrent e then s.step e else none

end Ipc

end Easyio.Kernel
