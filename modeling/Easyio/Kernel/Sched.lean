import Mathlib.Algebra.Group.Nat.Defs
import Mathlib.Data.List.Basic

/-!
# Threads and the scheduler

`src/scheduler.c` and `src/thread.c` for 32 priorities (`RT_THREAD_PRIORITY_MAX`), the
time slice of `src/clock.c`, `rt_thread_idle_excute` of `src/idle.c` and `__rt_ffs` of
`src/kservice.c`.

The node `tlist` of a thread is in at most one list: the ready list of a priority, the
list of threads that wait for an object, or the list of dead threads.  A list is the
list of its threads from `next` on, so `rt_list_remove` takes the thread out of whatever
list it is in and `rt_list_insert_before` at a head puts it at the end.

A thread timer is running or not, and when it runs its function `rt_thread_timeout` may
be called at any time.

A result `none` stands for a failed assertion or an access outside the table.
-/

namespace Easyio.Kernel

open Function

/-- `thread->stat` -/
inductive Stat where
  | init
  | ready
  | suspend
  | close
  deriving DecidableEq

/-- `rt_err_t` -/
inductive Err where
  | eok
  | error
  | etimeout
  | efull
  deriving DecidableEq

/-- The list heads of objects that threads wait for: `suspend_thread` of the objects and
`suspend_sender_thread` of the mailboxes. -/
inductive Wait where
  | sem (i : ℕ)
  | mutex (i : ℕ)
  | event (i : ℕ)
  | mbRecv (i : ℕ)
  | mbSend (i : ℕ)
  | mq (i : ℕ)
  deriving DecidableEq

/-- `struct rt_thread` -/
structure Thread where
  stat : Stat
  initPriority : ℕ
  currentPriority : ℕ
  numberMask : BitVec 32
  error : Err
  initTick : ℕ
  remainingTick : ℕ
  /-- whether `thread_timer` is running -/
  timerActive : Bool
  /-- whether a `cleanup` function is set -/
  cleanup : Bool
  /-- whether the object was set up by `rt_thread_init` -/
  systemObject : Bool
  eventSet : BitVec 32
  eventInfo : BitVec 8

/-- The static variables of the scheduler, all threads, and the lists they are in. -/
structure Sched where
  thread : ℕ → Thread
  /-- `rt_thread_priority_table` -/
  table : ℕ → List ℕ
  waiting : Wait → List ℕ
  defunct : List ℕ
  readyPriorityGroup : BitVec 32
  currentThread : Option ℕ
  schedulerLockNest : ℕ
  tick : ℕ

/-- `RT_THREAD_PRIORITY_MAX` -/
def rtThreadPriorityMax : ℕ := 32

/-- `RT_TICK_MAX / 2`, the bound of the assertion in `rt_timer_start` -/
def timerTickBound : ℕ := 0x7FFFFFFF

/-- `__lowest_bit_bitmap` -/
def lowestBitBitmap : List ℕ :=
  [0, 0, 1, 0, 2, 0, 1, 0, 3, 0, 1, 0, 2, 0, 1, 0, 4, 0, 1, 0, 2, 0, 1, 0, 3, 0, 1, 0, 2, 0, 1, 0,
   5, 0, 1, 0, 2, 0, 1, 0, 3, 0, 1, 0, 2, 0, 1, 0,
   4, 0, 1, 0, 2, 0, 1, 0, 3, 0, 1, 0, 2, 0, 1, 0,
   6, 0, 1, 0, 2, 0, 1, 0, 3, 0, 1, 0, 2, 0, 1, 0,
   4, 0, 1, 0, 2, 0, 1, 0, 3, 0, 1, 0, 2, 0, 1, 0,
   5, 0, 1, 0, 2, 0, 1, 0, 3, 0, 1, 0, 2, 0, 1, 0,
   4, 0, 1, 0, 2, 0, 1, 0, 3, 0, 1, 0, 2, 0, 1, 0,
   7, 0, 1, 0, 2, 0, 1, 0, 3, 0, 1, 0, 2, 0, 1, 0,
   4, 0, 1, 0, 2, 0, 1, 0, 3, 0, 1, 0, 2, 0, 1, 0,
   5, 0, 1, 0, 2, 0, 1, 0, 3, 0, 1, 0, 2, 0, 1, 0,
   4, 0, 1, 0, 2, 0, 1, 0, 3, 0, 1, 0, 2, 0, 1, 0,
   6, 0, 1, 0, 2, 0, 1, 0, 3, 0, 1, 0, 2, 0, 1, 0,
   4, 0, 1, 0, 2, 0, 1, 0, 3, 0, 1, 0, 2, 0, 1, 0,
   5, 0, 1, 0, 2, 0, 1, 0, 3, 0, 1, 0, 2, 0, 1, 0,
   4, 0, 1, 0, 2, 0, 1, 0, 3, 0, 1, 0, 2, 0, 1, 0]

/-- `__rt_ffs`: one more than the number of the lowest bit that is set, 0 if there is
none. -/
def rtFfs (value : BitVec 32) : ℕ :=
  if value = 0#32 then 0
  else if value &&& 0xff#32 ≠ 0#32 then lowestBitBitmap.getD (value &&& 0xff#32).toNat 0 + 1
  else if value &&& 0xff00#32 ≠ 0#32 then
    lowestBitBitmap.getD ((value &&& 0xff00#32) >>> 8).toNat 0 + 9
  else if value &&& 0xff0000#32 ≠ 0#32 then
    lowestBitBitmap.getD ((value &&& 0xff0000#32) >>> 16).toNat 0 + 17
  else lowestBitBitmap.getD ((value &&& 0xff000000#32) >>> 24).toNat 0 + 25

namespace Sched

variable (s : Sched)

/-- Change the fields of the thread `t`. -/
def modify (t : ℕ) (f : Thread → Thread) : Sched :=
  { s with thread := update s.thread t (f (s.thread t)) }

theorem modify_thread_self (t : ℕ) (f : Thread → Thread) :
    (s.modify t f).thread t = f (s.thread t) :=
  update_self ..

theorem modify_thread_of_ne {t u : ℕ} (hu : u ≠ t) (f : Thread → Thread) :
    (s.modify t f).thread u = s.thread u :=
  update_of_ne hu ..

/-- `rt_list_remove(&(thread->tlist))` -/
def unlink (t : ℕ) : Sched :=
  { s with
    table := fun p => (s.table p).erase t
    waiting := fun w => (s.waiting w).erase t
    defunct := s.defunct.erase t }

/-! ## The scheduler -/

/-- `rt_schedule_insert_thread` -/
def rtScheduleInsertThread (t : ℕ) : Sched :=
  { s.modify t ({ · with stat := .ready }) with
    table := update s.table (s.thread t).currentPriority
      (s.table (s.thread t).currentPriority ++ [t])
    readyPriorityGroup := s.readyPriorityGroup ||| (s.thread t).numberMask }

/-- `rt_schedule_remove_thread` -/
def rtScheduleRemoveThread (t : ℕ) : Sched :=
  { s.unlink t with
    readyPriorityGroup :=
      if (s.table (s.thread t).currentPriority).erase t = [] then
        s.readyPriorityGroup &&& ~~~(s.thread t).numberMask
      else s.readyPriorityGroup }

/-- The thread that `rt_schedule` takes: the first of the ready list of the highest
priority. -/
def toThread : Option ℕ :=
  if s.readyPriorityGroup = 0#32 then none else (s.table (rtFfs s.readyPriorityGroup - 1)).head?

/-- `rt_schedule` -/
def rtSchedule : Option Sched :=
  if s.schedulerLockNest = 0 then
    s.toThread.map fun t => { s with currentThread := some t }
  else some s

/-- `rt_system_scheduler_start` -/
def rtSystemSchedulerStart : Option Sched :=
  s.toThread.map fun t => { s with currentThread := some t }

/-- `rt_enter_critical` -/
def rtEnterCritical : Sched := { s with schedulerLockNest := s.schedulerLockNest + 1 }

/-- `rt_exit_critical` -/
def rtExitCritical : Option Sched :=
  if s.schedulerLockNest ≤ 1 then { s with schedulerLockNest := 0 : Sched }.rtSchedule
  else some { s with schedulerLockNest := s.schedulerLockNest - 1 }

/-! ## The life of a thread -/

section

variable (t : ℕ)

/-- `_rt_thread_init`, which does not touch `number_mask`. -/
def initThread (priority tick : ℕ) (systemObject : Bool) : Option Sched :=
  if rtThreadPriorityMax ≤ priority then none
  else some (s.modify t fun thread =>
    { thread with
      initPriority := priority
      currentPriority := priority
      initTick := tick
      remainingTick := tick
      error := .eok
      stat := .init
      cleanup := false
      timerActive := false
      systemObject })

/-- `rt_thread_init` -/
def rtThreadInit (priority tick : ℕ) : Option Sched :=
  s.initThread t priority tick true

/-- `rt_thread_create`.  The memory of the object comes from the heap and holds anything:
`mask` is what is found at `number_mask`. -/
def rtThreadCreate (priority tick : ℕ) (mask : BitVec 32) : Option Sched :=
  (s.modify t ({ · with numberMask := mask })).initThread t priority tick false

/-- `rt_thread_suspend` -/
def rtThreadSuspend : Err × Sched :=
  if (s.thread t).stat = .ready then
    (.eok, (s.modify t ({ · with stat := .suspend })).rtScheduleRemoveThread t)
  else (.error, s)

/-- `rt_thread_resume` -/
def rtThreadResume : Err × Sched :=
  if (s.thread t).stat = .suspend then
    (.eok, ((s.unlink t).modify t ({ · with timerActive := false })).rtScheduleInsertThread t)
  else (.error, s)

/-- The fields that `rt_thread_startup` sets. -/
def setStarted : Sched :=
  s.modify t fun thread =>
    { thread with
      currentPriority := thread.initPriority
      numberMask := 1#32 <<< thread.initPriority
      stat := .suspend }

/-- `if (rt_thread_self() != RT_NULL) rt_schedule()` -/
def scheduleIfRunning : Option Sched :=
  if s.currentThread = none then some s else s.rtSchedule

/-- `rt_thread_startup` -/
def rtThreadStartup : Option Sched :=
  if (s.thread t).stat = .init then ((s.setStarted t).rtThreadResume t).2.scheduleIfRunning
  else none

/-- The dead thread `t` put into the list of which the idle thread disposes. -/
def bury : Sched := { s with defunct := t :: s.defunct }

/-- `rt_schedule_remove_thread`, `rt_timer_detach` and the new state, as the functions
that end a thread begin. -/
def shut : Sched :=
  (s.rtScheduleRemoveThread t).modify t ({ · with timerActive := false, stat := .close })

/-- `rt_thread_detach` -/
def rtThreadDetach : Sched :=
  if (s.thread t).cleanup then (s.shut t).bury t else s.shut t

/-- `rt_thread_delete` -/
def rtThreadDelete : Sched := (s.shut t).bury t

/-- `rt_thread_exit` of the current thread `t` -/
def rtThreadExit : Option Sched :=
  if (s.thread t).systemObject && !(s.thread t).cleanup then (s.shut t).rtSchedule
  else ((s.shut t).bury t).rtSchedule

end

/-- One turn of the loop of `rt_thread_idle_excute`: the first dead thread is taken off
the list. -/
def rtThreadIdleExcute : Sched :=
  match s.defunct with
  | [] => s
  | t :: _ => s.unlink t

/-! ## Running threads -/

variable (t : ℕ)

/-- The thread `t` taken out of its list and put at the end of the ready list of its
priority. -/
def moveToEnd : Sched :=
  { s.unlink t with
    table := update (s.unlink t).table (s.thread t).currentPriority
      ((s.table (s.thread t).currentPriority).erase t ++ [t]) }

/-- `rt_thread_yield` of the current thread `t`.  The `next` and `prev` of its node
differ if its list has another thread. -/
def rtThreadYield : Option Sched :=
  if (s.thread t).stat = .ready ∧ (s.table (s.thread t).currentPriority).any (· ≠ t) then
    (s.moveToEnd t).rtSchedule
  else some s

/-- `rt_timer_control` and `rt_timer_start` on the timer of a thread: a timer that is
running is refused. -/
def startTimer (time : ℕ) : Option Sched :=
  if (s.thread t).timerActive then some s
  else if timerTickBound ≤ time then none
  else some (s.modify t ({ · with timerActive := true }))

/-- `rt_thread_sleep` of the current thread `t`, up to the switch. -/
def rtThreadSleep (tick : ℕ) : Option Sched :=
  ((s.rtThreadSuspend t).2.startTimer t tick).bind rtSchedule

/-- The rest of `rt_thread_sleep`, when the thread runs again. -/
def rtThreadSleepEnd : Sched :=
  if (s.thread t).error = .etimeout then s.modify t ({ · with error := .eok }) else s

/-- The fields that a change of the priority sets. -/
def setPriority (priority : ℕ) : Sched :=
  s.modify t ({ · with currentPriority := priority, numberMask := 1#32 <<< priority })

/-- `rt_thread_control` with `RT_THREAD_CTRL_CHANGE_PRIORITY` -/
def rtThreadControl (priority : ℕ) : Option Sched :=
  if rtThreadPriorityMax ≤ priority then none
  else if (s.thread t).stat = .ready then
    some (((s.rtScheduleRemoveThread t).setPriority t priority).rtScheduleInsertThread t)
  else some (s.setPriority t priority)

/-- `rt_thread_timeout`, up to the switch.  The timer that calls it has run out. -/
def rtThreadTimeout : Option Sched :=
  if (s.thread t).stat = .suspend then
    (((s.unlink t).modify t ({ · with error := .etimeout, timerActive := false })
      ).rtScheduleInsertThread t).rtSchedule
  else none

/-- `++ rt_tick` -/
def countTick : Sched := { s with tick := (s.tick + 1) % 2 ^ 32 }

/-- The time slice in `rt_tick_increase`, for the current thread `t`. -/
def rtTickIncrease : Option Sched :=
  if ((s.thread t).remainingTick + (2 ^ 32 - 1)) % 2 ^ 32 = 0 then
    (s.countTick.modify t fun thread =>
      { thread with remainingTick := thread.initTick }).rtThreadYield t
  else some (s.countTick.modify t fun thread =>
    { thread with remainingTick := (thread.remainingTick + (2 ^ 32 - 1)) % 2 ^ 32 })

end Sched

end Easyio.Kernel
