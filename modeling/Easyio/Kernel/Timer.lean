import Easyio.Kernel.Words
import Easyio.Lists.Ring

/-!
# Timers

`src/timer.c` without the soft timers, which are not configured: `rt_timer_init` and
`rt_timer_create`, `rt_timer_start`, `rt_timer_stop`, `rt_timer_delete`,
`rt_timer_control` and `rt_timer_check`, and the tick counter of `src/clock.c`.

The timers are kept in a skip list of `levels` rows (`RT_TIMER_SKIP_LIST_LEVEL`).
Each row is a circular list through its own head `rt_timer_list[i]` and the nodes
`row[i]` of timers, so `row i` gives the links of row `i` with `none` for the head
and `some t` for the node of the timer `t`.  The pointer arithmetic
`row_head[row_lvl]+1` goes to the node of the same timer, or the head, in the next
row.

A result `none` stands for a failed assertion or a loop that has not ended.  The
fields `starts`, `startNr`, `fired` and `checked` are there for the theorems only;
`starts`, the number of successful starts, also bounds the length of a row.
-/

namespace Easyio.Kernel

open Easyio.Lists Option

/-- `struct rt_timer`; `created` says whether the object exists. -/
structure Timer where
  created : Bool
  activated : Bool
  periodic : Bool
  initTick : ℕ
  timeoutTick : ℕ
  /-- how many starts of any timer there were before its last start -/
  startNr : ℕ

/-- The static variables of `timer.c` and `clock.c`, and all timers. -/
structure Timers where
  tick : ℕ
  row : ℕ → Links (Option ℕ)
  timer : ℕ → Timer
  randomNr : ℕ
  starts : ℕ
  /-- the timeout functions called, with the tick of the call -/
  fired : List (ℕ × ℕ)
  /-- whether a check has ended since the last tick -/
  checked : Bool

/-- `RT_TICK_MAX / 2` -/
def rtTickMaxHalf : ℕ := 0x7FFFFFFF

namespace Timers

/-- Change the fields of the timer `t`. -/
def modify (s : Timers) (t : ℕ) (f : Timer → Timer) : Timers :=
  { s with timer := Function.update s.timer t (f (s.timer t)) }

/-- Change the links of row `i`. -/
def onRow (s : Timers) (i : ℕ) (f : Links (Option ℕ) → Links (Option ℕ)) : Timers :=
  { s with row := Function.update s.row i (f (s.row i)) }

/-- `_rt_timer_init` for an object that does not exist yet. -/
def rtTimerInit (levels : ℕ) (s : Timers) (t time : ℕ) (periodic : Bool) : Timers :=
  let s := s.modify t fun timer =>
    { timer with created := true, activated := false, periodic, timeoutTick := 0, initTick := time }
  (List.range levels).foldl (fun s i => s.onRow i (·.init (some t))) s

/-- `_rt_timer_remove` -/
def rtTimerRemove (levels : ℕ) (s : Timers) (t : ℕ) : Timers :=
  (List.range levels).foldl (fun s i => s.onRow i (·.remove (some t))) s

/-- The search of `rt_timer_start` in one row, from the node `rowHead` on, for the
node behind which a timer with timeout `timeout` goes. -/
def search (s : Timers) (i timeout : ℕ) : ℕ → Option ℕ → Option (Option ℕ)
  | 0, _ => none
  | fuel + 1, rowHead =>
    if rowHead = (s.row i).prev none then some rowHead
    else match (s.row i).next rowHead with
      | none => none
      | some t =>
        if sub32 (s.timer t).timeoutTick timeout = 0 then
          -- of equal timeout: the new timer goes behind
          s.search i timeout fuel (some t)
        else if sub32 (s.timer t).timeoutTick timeout < rtTickMaxHalf then some rowHead
        else s.search i timeout fuel (some t)

/-- The nodes `row_head` of the rows `i`, `i + 1`, …, each search starting where the
one above ended. -/
def rowHeads (s : Timers) (timeout : ℕ) : ℕ → ℕ → Option ℕ → Option (List (Option ℕ))
  | 0, _, _ => some []
  | count + 1, i, rowHead => do
      let found ← s.search i timeout (s.starts + 1) rowHead
      let rest ← s.rowHeads timeout count (i + 1) found
      some (found :: rest)

/-- `rt_list_insert_after(row_head[i], &(timer->row[i]))` -/
def link (s : Timers) (rowHead : List (Option ℕ)) (t i : ℕ) : Timers :=
  s.onRow i (·.insertAfter (rowHead.getD i none) (some t))

/-- The loop that links the timer into the rows above the last one, row `count - 1`
next, as long as two bits of `tstNr` are zero. -/
def promote (rowHead : List (Option ℕ)) (t : ℕ) : ℕ → ℕ → Timers → Timers
  | 0, _, s => s
  | count + 1, tstNr, s =>
    if tstNr % 4 = 0 then promote rowHead t count (tstNr / 4) (s.link rowHead t count) else s

section

variable (levels : ℕ) (s : Timers)

/-- `rt_timer_start`.  A timer that is activated is refused. -/
def rtTimerStart (t : ℕ) : Option Timers :=
  if (s.timer t).activated then some s
  else if rtTickMaxHalf ≤ (s.timer t).initTick then none
  else do
    let timeout := (s.tick + (s.timer t).initTick) % 2 ^ 32
    let s := s.modify t ({ · with timeoutTick := timeout })
    let rowHead ← s.rowHeads timeout levels 0 none
    let s := { s with randomNr := (s.randomNr + 1) % 2 ^ 32 }
    let s := promote rowHead t (levels - 1) s.randomNr (s.link rowHead t (levels - 1))
    let s := s.modify t ({ · with activated := true, startNr := s.starts })
    some { s with starts := s.starts + 1 }

/-- `rt_timer_stop`.  A timer that is not activated is refused. -/
def rtTimerStop (t : ℕ) : Timers :=
  if (s.timer t).activated then
    (s.rtTimerRemove levels t).modify t ({ · with activated := false })
  else s

/-- `rt_timer_delete`: the timer is taken out and its object released. -/
def rtTimerDelete (t : ℕ) : Timers :=
  (s.rtTimerRemove levels t).modify t ({ · with created := false })

/-- The first timer of the last row, if its timeout has been reached. -/
def due : Option ℕ :=
  match (s.row (levels - 1)).next none with
  | none => none
  | some t => if sub32 s.tick (s.timer t).timeoutTick < rtTickMaxHalf then some t else none

end

/-- The body of the loop of `rt_timer_check` for a timer that is due, where
`callback` is what its timeout function does to the timers. -/
def fire (levels : ℕ) (callback : ℕ → Timers → Option Timers) (s : Timers) (t : ℕ) :
    Option Timers := do
  let s := s.rtTimerRemove levels t
  let s ← callback t { s with fired := s.fired ++ [(t, s.tick)] }
  let stopped := s.modify t ({ · with activated := false })
  if (s.timer t).periodic && (s.timer t).activated then stopped.rtTimerStart levels t
  else some stopped

/-- `rt_timer_check` -/
def rtTimerCheck (levels : ℕ) (callback : ℕ → Timers → Option Timers) :
    ℕ → Timers → Option Timers
  | 0, _ => none
  | fuel + 1, s =>
    match s.due levels with
    | none => some { s with checked := true }
    | some t => (s.fire levels callback t).bind (rtTimerCheck levels callback fuel)

/-- The step of the tick counter in `rt_tick_increase`. -/
def rtTickIncrease (s : Timers) : Timers :=
  { s with tick := (s.tick + 1) % 2 ^ 32, checked := false }

inductive Event where
  | create (t time : ℕ) (periodic : Bool)
  | start (t : ℕ)
  | stop (t : ℕ)
  | delete (t : ℕ)
  | setTime (t time : ℕ)
  | setPeriodic (t : ℕ) (periodic : Bool)
  | tick
  /-- a check that calls at most `fuel - 1` timeout functions -/
  | check (fuel : ℕ)
  deriving DecidableEq

/-- The steps, with timeout functions that do not touch any timer. -/
def step (levels : ℕ) (s : Timers) : Event → Option Timers
  | .create t time periodic => some (s.rtTimerInit levels t time periodic)
  | .start t => s.rtTimerStart levels t
  | .stop t => some (s.rtTimerStop levels t)
  | .delete t => some (s.rtTimerDelete levels t)
  | .setTime t time => some (s.modify t ({ · with initTick := time }))
  | .setPeriodic t periodic => some (s.modify t ({ · with periodic }))
  | .tick => some s.rtTickIncrease
  | .check fuel => rtTimerCheck levels (fun _ s => some s) fuel s

/-- The steps that can happen: an object is created once, calls name objects that
exist, and the next tick comes after a check. -/
def Allowed (s : Timers) : Event → Prop
  | .create t _ _ => (s.timer t).created = false
  | .start t => (s.timer t).created = true
  | .stop t => (s.timer t).created = true
  | .delete t => (s.timer t).created = true
  | .setTime t _ => (s.timer t).created = true
  | .setPeriodic t _ => (s.timer t).created = true
  | .tick => s.checked = true
  | .check _ => True

/-- `rt_system_timer_init`: no timer exists, every row is empty. -/
def boot (tick randomNr : ℕ) : Timers where
  tick := tick
  row _ := ⟨id, id⟩
  timer _ := ⟨false, false, false, 0, 0, 0⟩
  randomNr := randomNr
  starts := 0
  fired := []
  checked := true

/-- The states reached from the start by steps that can happen. -/
inductive Reachable (levels : ℕ) : Timers → Prop
  | boot (tick randomNr : ℕ) : tick < 2 ^ 32 → Reachable levels (boot tick randomNr)
  | step {s s' : Timers} (e : Event) : Reachable levels s → Allowed s e →
      step levels s e = some s' → Reachable levels s'

instance (s : Timers) : (e : Event) → Decidable (Allowed s e)
  | .create _ _ _ => inferInstanceAs (Decidable (_ = false))
  | .start _ | .stop _ | .delete _ | .setTime _ _ | .setPeriodic _ _ | .tick =>
    inferInstanceAs (Decidable (_ = true))
  | .check _ => inferInstanceAs (Decidable True)

/-- The state after `events`, if all of them can happen and return. -/
def runFrom (levels : ℕ) : Timers → List Event → Option Timers
  | s, [] => some s
  | s, e :: events =>
    if Allowed s e then (step levels s e).bind (runFrom levels · events) else none

variable {levels : ℕ} {s s' : Timers} {events : List Event}

theorem runFrom_cons {e : Event} (hrun : runFrom levels s (e :: events) = some s') :
    Allowed s e ∧ ∃ s₁, step levels s e = some s₁ ∧ runFrom levels s₁ events = some s' := by
  obtain ⟨hallowed, hrun⟩ := ite_none_right_eq_some.mp hrun
  exact ⟨hallowed, bind_eq_some_iff.mp hrun⟩

theorem Reachable.runFrom (h : Reachable levels s) (hrun : runFrom levels s events = some s') :
    Reachable levels s' := by
  induction events generalizing s with
  | nil => exact some.inj hrun ▸ h
  | cons e events ih =>
    obtain ⟨hallowed, s₁, hstep, hrest⟩ := runFrom_cons hrun
    exact ih (h.step e hallowed hstep) hrest

end Timers

end Easyio.Kernel
