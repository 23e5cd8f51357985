import Easyio.Kernel.Sched
import Mathlib.Data.Int.Basic

/-!
# Threads that wait for a driver

The drivers suspend the current thread, put it into a list of their own and start its
timer.  `rt_thread_resume` takes it out of the list and stops the timer;
`rt_thread_timeout` takes it out of the list when the timer has run out, and leaves the
error number by which the thread can tell.  The lists are kept by the drivers; here are
the fields of the threads.
-/

namespace Easyio.Drivers

open Function Kernel

/-- What the drivers use of `struct rt_thread`. -/
structure Waiter where
  error : Err
  /-- whether `thread_timer` is running -/
  timerActive : Bool

namespace Waiter

section

variable (thread : ℕ → Waiter) (t : ℕ)

/-- The thread `t` begins a wait: its error number is reset, and its timer is started if
there is a time limit. -/
def wait (timeout : ℤ) : Option (ℕ → Waiter) :=
  if 0 < timeout then
    if timerTickBound ≤ timeout.toNat then none
    else some (update thread t ⟨.eok, true⟩)
  else some (update thread t { thread t with error := .eok })

/-- `rt_thread_resume` -/
def resume : ℕ → Waiter :=
  update thread t { thread t with timerActive := false }

/-- `rt_thread_timeout` -/
def expire : ℕ → Waiter := update thread t ⟨.etimeout, false⟩

end

variable {thread thread' : ℕ → Waiter} {t u : ℕ} {timeout : ℤ}

theorem wait_error (h : wait thread t timeout = some thread') : (thread' t).error = .eok := by
  unfold wait at h
  split_ifs at h <;> rw [← Option.some.inj h, update_self]

theorem wait_of_ne (h : wait thread t timeout = some thread') (hu : u ≠ t) :
    thread' u = thread u := by
  unfold wait at h
  split_ifs at h <;> rw [← Option.some.inj h, update_of_ne hu]

theorem resume_error : (resume thread t u).error = (thread u).error := by
  rcases eq_or_ne u t with rfl | hu
  · rw [resume, update_self]
  · rw [resume, update_of_ne hu]

theorem resume_timerActive (h : (resume thread t u).timerActive = true) :
    u ≠ t ∧ (thread u).timerActive = true := by
  rcases eq_or_ne u t with rfl | hu
  · rw [resume, update_self] at h
    cases h
  · rw [resume, update_of_ne hu] at h
    exact ⟨hu, h⟩

theorem expire_error_self : (expire thread t t).error = .etimeout := by
  rw [expire, update_self]

theorem expire_of_ne (hu : u ≠ t) : expire thread t u = thread u := update_of_ne hu ..

end Waiter

end Easyio.Drivers
