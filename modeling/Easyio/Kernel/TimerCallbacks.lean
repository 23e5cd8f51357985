import Mathlib.Data.List.Induction
import Easyio.Kernel.TimerPunctual

/-!
# Timeout functions that start and stop timers

`rt_timer_check` takes a timer out of the list, calls its timeout function and only then
looks at its flags.  Here the timeout functions may call `rt_timer_start` and
`rt_timer_stop` on any timer, also on their own.

While its function runs, a timer is in no row although its flag says that it is active;
with the flag cleared the list is as it should be (`Aside`).  A start of the timer by its
own function is refused then, but a stop clears the flag, and a start after it links the
timer.  The check clears the flag of such a timer, or links it a second time if it is
periodic.  A function whose starts of its own timer behind a stop are followed by
another stop does no harm (`Harmless`).

In the states that such functions leave, a check calls no more functions than there are
active timers, unless a due periodic timer has the `init_tick` 0
(`check_calls_bounded_iff`).
-/

namespace Easyio.Kernel

open Bool Function List Easyio.Lists Option Timers

namespace Timers

/-- A call that a timeout function makes. -/
inductive Call where
  | start (t : ℕ)
  | stop (t : ℕ)
  deriving DecidableEq

/-- The call as a step of the system. -/
def Call.event : Call → Event
  | .start t => .start t
  | .stop t => .stop t

/-- The timeout functions, where `script t s` are the calls that the function of the
timer `t` makes when it is entered in the state `s`. -/
def callback (levels : ℕ) (script : ℕ → Timers → List Call) (t : ℕ) (s : Timers) : Option Timers :=
  runFrom levels s ((script t s).map Call.event)

/-- The states reached from the start by steps that can happen and by checks whose
timeout functions make calls of the kind `allowed`. -/
inductive ReachableBy (levels : ℕ) (allowed : ℕ → List Call → Prop) : Timers → Prop
  | boot (tick randomNr : ℕ) : tick < 2 ^ 32 → ReachableBy levels allowed (boot tick randomNr)
  | step {s s' : Timers} (e : Event) : ReachableBy levels allowed s → Allowed s e →
      step levels s e = some s' → ReachableBy levels allowed s'
  | check {s s' : Timers} (script : ℕ → Timers → List Call) (fuel : ℕ) :
      ReachableBy levels allowed s → (∀ t s, allowed t (script t s)) →
      rtTimerCheck levels (callback levels script) fuel s = some s' →
      ReachableBy levels allowed s'

/-- A start of the timer `t` behind a stop of `t` is followed by another stop of `t`. -/
def Harmless (t : ℕ) (calls : List Call) : Prop :=
  ∀ before after, calls = before ++ .start t :: after → .stop t ∈ before → .stop t ∈ after

/-! ## The timer whose function runs -/

/-- `t.parent.flag &= ~RT_TIMER_FLAG_ACTIVATED` -/
abbrev clear (s : Timers) (t : ℕ) : Timers := s.modify t ({ · with activated := false })

variable {s s' : Timers} {t u levels now : ℕ} {rows : ℕ → List ℕ} {deadline : ℕ → ℕ}

theorem clear_timer_of_ne (h : u ≠ t) : (s.clear t).timer u = s.timer u := update_of_ne h ..

theorem clear_eq_self (h : (s.timer t).activated = false) : s.clear t = s := by
  have hsame : ({ s.timer t with activated := false } : Timer) = s.timer t := by rw [← h]
  unfold clear modify
  simp only [hsame, update_eq_self]

section

variable (hrow : s'.row = s.row) (htime : ∀ u, (s'.timer u).timeoutTick = (s.timer u).timeoutTick)
include hrow htime

theorem search_congr (i timeout fuel : ℕ)
    (rowHead : Option ℕ) : s'.search i timeout fuel rowHead = s.search i timeout fuel rowHead := by
  induction fuel generalizing rowHead with
  | zero => rfl
  | succ fuel ih => simp only [search, hrow, htime, ih]

theorem rowHeads_congr (hstarts : s'.starts = s.starts) (timeout count i : ℕ) (rowHead : Option ℕ) :
    s'.rowHeads timeout count i rowHead = s.rowHeads timeout count i rowHead := by
  induction count generalizing i rowHead with
  | zero => rfl
  | succ count ih => simp only [rowHeads, hstarts, search_congr hrow htime, ih]

end

theorem modify_comm (h : u ≠ t) (f g : Timer → Timer) :
    (s.modify t f).modify u g = (s.modify u g).modify t f := by
  unfold modify
  simp only [update_of_ne h, update_of_ne (Ne.symm h), update_comm h]

/-- A start of another timer does not look at the flag of `t`. -/
theorem rtTimerStart_clear (hlevels : 0 < levels) (h : u ≠ t) :
    (s.clear t).rtTimerStart levels u = (s.rtTimerStart levels u).map (·.clear t) := by
  have hsame : (s.clear t).timer u = s.timer u := clear_timer_of_ne h
  by_cases hactive : (s.timer u).activated = true
  · rw [rtTimerStart, rtTimerStart, hsame, if_pos hactive, if_pos hactive]
    rfl
  by_cases hinit : rtTickMaxHalf ≤ (s.timer u).initTick
  · rw [rtTimerStart, rtTimerStart, hsame, if_neg hactive, if_neg hactive, if_pos hinit,
      if_pos hinit]
    rfl
  obtain ⟨k, -, hstart⟩ := rtTimerStart_eq hlevels u s.randomNr
  have hidle := eq_false_of_not_eq_true hactive
  have hinit := not_le.mp hinit
  have hheads : ∀ timeout, ((s.clear t).modify u ({ · with timeoutTick := timeout })).rowHeads
      timeout levels 0 none =
        (s.modify u ({ · with timeoutTick := timeout })).rowHeads timeout levels 0 none := by
    intro timeout
    rw [modify_comm h]
    refine rowHeads_congr ?_ (fun v => ?_) ?_ .. <;> try rfl
    by_cases hv : v = t
    · subst hv
      simp [modify]
    · rw [clear_timer_of_ne hv]
  rw [hstart s rfl hidle hinit, hstart (s.clear t) rfl (by rwa [hsame]) (by rwa [hsame]), hsame,
    hheads, Option.map_map]
  refine congrArg (Option.map · _) (funext fun rowHead => ?_)
  simp only [entered, clear, modify, comp_apply, update_of_ne h, update_of_ne (Ne.symm h),
    update_comm h]

theorem rtTimerStop_clear (h : u ≠ t) :
    (s.clear t).rtTimerStop levels u = (s.rtTimerStop levels u).clear t := by
  unfold rtTimerStop
  rw [clear_timer_of_ne h]
  split
  · have hremove : (s.clear t).rtTimerRemove levels u = (s.rtTimerRemove levels u).clear t := by
      rw [rtTimerRemove_eq, rtTimerRemove_eq]
      rfl
    rw [hremove]
    exact modify_comm h ..
  · rfl

theorem rtTimerStop_activated : ((s.rtTimerStop levels t).timer t).activated = false := by
  unfold rtTimerStop
  split
  · simp [modify]
  · rename_i hidle
    exact eq_false_of_not_eq_true hidle

def Call.timer : Call → ℕ
  | .start t => t
  | .stop t => t

theorem step_clear (hlevels : 0 < levels) {c : Call} (h : c.timer ≠ t) :
    step levels (s.clear t) c.event = (step levels s c.event).map (·.clear t) := by
  cases c with
  | start u => exact rtTimerStart_clear hlevels h
  | stop u => exact congrArg some (rtTimerStop_clear h)

theorem step_timer_of_ne (hlevels : 0 < levels) {c : Call} (h : c.timer ≠ t)
    (hstep : step levels s c.event = some s') : s'.timer t = s.timer t := by
  cases c with
  | start u =>
    change s.rtTimerStart levels u = some s' at hstep
    by_cases hactive : (s.timer u).activated = true
    · rw [rtTimerStart, if_pos hactive] at hstep
      rw [← some.inj hstep]
    by_cases hinit : rtTickMaxHalf ≤ (s.timer u).initTick
    · rw [rtTimerStart, if_neg hactive, if_pos hinit] at hstep
      cases hstep
    · obtain ⟨k, -, hstart⟩ := rtTimerStart_eq hlevels u s.randomNr
      rw [hstart s rfl (eq_false_of_not_eq_true hactive) (not_le.mp hinit)] at hstep
      obtain ⟨rowHead, -, rfl⟩ := map_eq_some_iff.mp hstep
      exact update_of_ne (Ne.symm h) ..
  | stop u =>
    obtain rfl := some.inj hstep
    unfold rtTimerStop
    split
    · rw [rtTimerRemove_eq]
      exact update_of_ne (Ne.symm h) ..
    · rfl

/-- The calls of a function keep the list, if they are made outside a check. -/
theorem Listed.calls_listed (h : Listed levels s rows now deadline) (hlevels : 0 < levels)
    {calls : List Call} (hrun : runFrom levels s (calls.map Call.event) = some s') :
    ∃ rows' deadline', Listed levels s' rows' now deadline' := by
  induction calls generalizing s rows deadline with
  | nil => exact ⟨rows, deadline, some.inj hrun ▸ h⟩
  | cons c calls ih =>
    obtain ⟨hallowed, s₁, hs₁, hrest⟩ := runFrom_cons hrun
    have hcheck : ∀ fuel, c.event ≠ .check fuel := by cases c <;> simp [Call.event]
    have htick : c.event ≠ .tick := by cases c <;> simp [Call.event]
    obtain ⟨rows₁, deadline₁, hquiet⟩ := h.quiet hlevels hallowed hs₁ 0 hcheck
    have hlisted := hquiet.listed
    rw [if_neg htick, Nat.add_zero] at hlisted
    exact ih hlisted hrest

theorem runFrom_append {first second : List Event} :
    runFrom levels s (first ++ second) =
      (runFrom levels s first).bind (runFrom levels · second) := by
  induction first generalizing s with
  | nil => rfl
  | cons e first ih =>
    rw [cons_append, runFrom, runFrom]
    split
    · rw [bind_assoc]
      exact congrArg _ (funext fun s₁ => ih)
    · rfl

/-- A timer that was not active and is so after the calls has been started by them,
and not stopped since. -/
theorem started_of_activated (hlevels : 0 < levels) (hidle : (s.timer t).activated = false)
    {calls : List Call} (hrun : runFrom levels s (calls.map Call.event) = some s')
    (hactive : (s'.timer t).activated = true) :
    ∃ before after, calls = before ++ .start t :: after ∧ .stop t ∉ after := by
  induction calls using List.reverseRecOn generalizing s' with
  | nil =>
    rw [← some.inj hrun, hidle] at hactive
    cases hactive
  | append_singleton calls c ih =>
    rw [map_append, runFrom_append] at hrun
    obtain ⟨s₁, hs₁, hlast⟩ := bind_eq_some_iff.mp hrun
    obtain ⟨-, s₂, hs₂, heq⟩ := runFrom_cons hlast
    obtain rfl := some.inj heq
    by_cases hc : c.timer = t
    · cases c with
      | start u => exact ⟨calls, [], by rw [show u = t from hc], not_mem_nil⟩
      | stop u =>
        -- the last call has stopped it
        obtain rfl : u = t := hc
        obtain rfl := some.inj hs₂
        rw [rtTimerStop_activated] at hactive
        cases hactive
    · rw [step_timer_of_ne hlevels hc hs₂] at hactive
      obtain ⟨before, after, rfl, hafter⟩ := ih hs₁ hactive
      refine ⟨before, after ++ [c], by simp, fun hmem => ?_⟩
      rcases mem_append.mp hmem with hmem | hmem
      · exact hafter hmem
      · exact hc (congrArg Call.timer (mem_singleton.mp hmem)).symm

/-- The function of `t` runs: `t` is in no row, but its flag is still set. -/
structure Aside (levels t : ℕ) (s : Timers) (rows : ℕ → List ℕ) (now : ℕ) (deadline : ℕ → ℕ) :
    Prop where
  listed : Listed levels (s.clear t) rows now deadline
  created : (s.timer t).created = true
  activated : (s.timer t).activated = true

namespace Aside

variable (h : Aside levels t s rows now deadline)
include h

/-- A stop of `t` only clears its flag. -/
theorem stop : s.rtTimerStop levels t = s.clear t := by
  have hlast : t ∉ rows (levels - 1) := fun hin => by
    have := ((h.listed.active t).mp hin).2
    simp [modify] at this
  have hrows : (fun i => if i < levels then (s.row i).remove (some t) else s.row i) = s.row := by
    funext i
    split
    · rename_i hi
      have hcreated : ((s.clear t).timer t).created = true := by
        simpa [modify] using h.created
      have hsolo := h.listed.solo t hcreated i hi fun hin =>
        hlast ((h.listed.sub_last hi).subset hin)
      exact Links.remove_of_next_eq _ hsolo.1 hsolo.2
    · rfl
  rw [rtTimerStop, if_pos h.activated, rtTimerRemove_eq, hrows]

/-- Calls other than a stop of `t` leave it aside. -/
theorem call (hlevels : 0 < levels) {c : Call}
    (hc : c ≠ .stop t) (hallowed : Allowed s c.event) (hstep : step levels s c.event = some s') :
    ∃ rows' deadline', Aside levels t s' rows' now deadline' := by
  by_cases hown : c.timer = t
  · cases c with
    | start u =>
      -- refused: the flag is set
      obtain rfl : u = t := hown
      change s.rtTimerStart levels u = some s' at hstep
      rw [rtTimerStart, if_pos h.activated] at hstep
      exact ⟨rows, deadline, some.inj hstep ▸ h⟩
    | stop u => exact absurd (congrArg Call.stop hown) hc
  · have hsame := step_timer_of_ne hlevels hown hstep
    have hstep' : step levels (s.clear t) c.event = some (s'.clear t) := by
      rw [step_clear hlevels hown, hstep, map_some]
    have hallowed' : Allowed (s.clear t) c.event := by
      cases c with
      | start u | stop u =>
        exact (congrArg Timer.created (clear_timer_of_ne hown)).trans hallowed
    have hrun : runFrom levels (s.clear t) ([c].map Call.event) = some (s'.clear t) := by
      rw [map_singleton, runFrom, if_pos hallowed', hstep']
      rfl
    obtain ⟨rows', deadline', hlisted⟩ := h.listed.calls_listed hlevels hrun
    exact ⟨rows', deadline', hlisted, hsame ▸ h.created, hsame ▸ h.activated⟩

/-- A harmless function leaves its timer aside or stopped. -/
theorem calls (hlevels : 0 < levels) {calls : List Call}
    (hharmless : Harmless t calls) (hrun : runFrom levels s (calls.map Call.event) = some s') :
    ∃ rows' deadline', Aside levels t s' rows' now deadline' ∨
      Listed levels s' rows' now deadline' ∧ (s'.timer t).activated = false := by
  induction calls generalizing s rows deadline with
  | nil => exact ⟨rows, deadline, .inl (some.inj hrun ▸ h)⟩
  | cons c calls ih =>
    obtain ⟨hallowed, s₁, hs₁, hrest⟩ := runFrom_cons hrun
    by_cases hc : c = .stop t
    · subst hc
      obtain rfl : s.clear t = s₁ := by
        rw [← h.stop]
        exact some.inj hs₁
      obtain ⟨rows', deadline', hlisted⟩ := h.listed.calls_listed hlevels hrest
      refine ⟨rows', deadline', .inr ⟨hlisted, ?_⟩⟩
      by_contra hactive
      obtain ⟨before, after, rfl, hafter⟩ := started_of_activated hlevels (by simp [modify]) hrest
        (eq_true_of_not_eq_false hactive)
      exact hafter (hharmless (.stop t :: before) after rfl mem_cons_self)
    · obtain ⟨rows₁, deadline₁, h₁⟩ := h.call hlevels hc hallowed hs₁
      refine ih h₁ (fun before after heq hbefore => ?_) hrest
      exact hharmless (c :: before) after (by rw [heq]; rfl) (mem_cons_of_mem _ hbefore)

end Aside

/-! ## Checks with such functions -/

namespace Listed

variable {script : ℕ → Timers → List Call} (hharmless : ∀ t s, Harmless t (script t s))
  (h : Listed levels s rows now deadline) (hlevels : 0 < levels)
include hharmless h hlevels

theorem fire_callback (hdue : s.due levels = some t)
    (hfire : s.fire levels (callback levels script) t = some s') :
    ∃ rows' deadline', Listed levels s' rows' now deadline' := by
  have ht := (h.active t).mp (h.due_some hlevels hdue).1
  have hremove := (h.remove hlevels ht.1 ({ · with activated := false }) (by simp)).log
    (s.fired ++ [(t, s.tick)])
  have haside : Aside levels t { s.rtTimerRemove levels t with
      fired := (s.rtTimerRemove levels t).fired ++ [(t, (s.rtTimerRemove levels t).tick)] }
      (fun i => (rows i).erase t) now deadline := by
    rw [rtTimerRemove_eq] at hremove ⊢
    exact ⟨hremove, ht.1, ht.2⟩
  obtain ⟨s₁, hcall, hrest⟩ := bind_eq_some_iff.mp hfire
  obtain ⟨rows₁, deadline₁, haside₁ | ⟨hlisted₁, hidle⟩⟩ :=
    haside.calls hlevels (hharmless t _) hcall
  · -- the flag is still set: a periodic timer is started again
    split at hrest
    · have hself : (s₁.clear t).timer t = { s₁.timer t with activated := false } := by
        simp [Timers.modify]
      by_cases hinit : ((s₁.clear t).timer t).initTick < rtTickMaxHalf
      · obtain ⟨s₂, rows₂, hstart, -, -, -, -, hlisted₂⟩ := haside₁.listed.start hlevels
          (by rw [hself]; exact haside₁.created) (by rw [hself]) hinit
        obtain rfl : s₂ = s' := some.inj (hstart.symm.trans hrest)
        exact ⟨rows₂, _, hlisted₂⟩
      · rw [rtTimerStart, hself, if_neg Bool.false_ne_true] at hrest
        rw [hself] at hinit
        rw [if_pos (not_lt.mp hinit)] at hrest
        cases hrest
    · exact ⟨rows₁, deadline₁, some.inj hrest ▸ haside₁.listed⟩
  · -- the function has stopped its timer
    simp only [hidle, Bool.and_false, Bool.false_eq_true, if_false] at hrest
    have hsame : s₁.clear t = s' := some.inj hrest
    rw [clear_eq_self hidle] at hsame
    exact ⟨rows₁, deadline₁, hsame ▸ hlisted₁⟩

theorem check_callback {fuel : ℕ}
    (hcheck : rtTimerCheck levels (callback levels script) fuel s = some s') :
    ∃ rows' deadline', Listed levels s' rows' now deadline' := by
  induction fuel generalizing s rows deadline with
  | zero => cases hcheck
  | succ fuel ih =>
    rw [rtTimerCheck] at hcheck
    split at hcheck
    · rename_i hdue
      obtain rfl := some.inj hcheck
      exact ⟨rows, deadline, h.checked hlevels hdue⟩
    · rename_i t hdue
      obtain ⟨s₁, hfire, hrest⟩ := bind_eq_some_iff.mp hcheck
      obtain ⟨rows₁, deadline₁, h₁⟩ := h.fire_callback hharmless hlevels hdue hfire
      exact ih h₁ hrest

end Listed

theorem ReachableBy.runFrom {allowed : ℕ → List Call → Prop} (h : ReachableBy levels allowed s)
    {events : List Event} (hrun : runFrom levels s events = some s') :
    ReachableBy levels allowed s' := by
  induction events generalizing s with
  | nil => exact some.inj hrun ▸ h
  | cons e events ih =>
    obtain ⟨hallowed, s₁, hstep, hrest⟩ := runFrom_cons hrun
    exact ih (h.step e hallowed hstep) hrest

theorem ReachableBy.listed (hlevels : 0 < levels) (h : ReachableBy levels Harmless s) :
    ∃ rows now deadline, Listed levels s rows now deadline := by
  induction h with
  | boot tick randomNr htick => exact ⟨_, _, _, listed_boot levels tick randomNr htick⟩
  | step e _ hallowed hstep ih =>
    obtain ⟨rows, now, deadline, hlisted⟩ := ih
    exact hlisted.step hlevels hallowed hstep
  | check script fuel _ hharmless hcheck ih =>
    obtain ⟨rows, now, deadline, hlisted⟩ := ih
    obtain ⟨rows', deadline', hlisted'⟩ := hlisted.check_callback hharmless hlevels hcheck
    exact ⟨rows', now, deadline', hlisted'⟩

/-- **Flags and links.**  For every number of levels and every run in which the timeout
functions start their own timer behind a stop of it only to stop it again: a timer has
`RT_TIMER_FLAG_ACTIVATED` set if and only if it is in the list, and there it is once. -/
theorem timer_flag_iff_linked (levels : ℕ) (hlevels : 1 ≤ levels) (s : Timers)
    (h : ReachableBy levels Harmless s) :
    ∃ rows, Ordered levels s rows ∧
      ∀ t, (s.timer t).created = true → ∀ i < levels, t ∉ rows i → Solo (s.row i) t := by
  obtain ⟨rows, now, deadline, hlisted⟩ := h.listed hlevels
  exact ⟨rows, hlisted.toOrdered hlevels, hlisted.solo⟩

/-- One tick, timer 1 due. -/
def firstDue : List Event := [.create 1 1 false, .create 2 5 true, .start 1, .tick]

/-- The function of timer 1 stops it and starts timer 2. -/
def handOver : ℕ → Timers → List Call
  | 1, _ => [.stop 1, .start 2]
  | _, _ => []

theorem timer_flag_iff_linked_hand_over :
    ∃ s, ((runFrom 1 (boot 0 0) firstDue).bind (rtTimerCheck 1 (callback 1 handOver) 3)) = some s ∧
      ∃ rows, Ordered 1 s rows ∧
        ∀ t, (s.timer t).created = true → ∀ i < 1, t ∉ rows i → Solo (s.row i) t := by
  have hharmless : ∀ t s, Harmless t (handOver t s) := by
    intro t s before after heq hbefore
    have hstart : Call.start t ∈ handOver t s := heq ▸ mem_append_right _ mem_cons_self
    unfold handOver at hstart
    split at hstart <;> simp at hstart
  refine Runs.Partial.exists_of_any (·.checked = true) (by decide +kernel) fun s hs _ => ?_
  obtain ⟨s₁, hs₁, hcheck⟩ := bind_eq_some_iff.mp hs
  have hreachable : ReachableBy 1 Harmless s₁ := (ReachableBy.boot 0 0 (by decide)).runFrom hs₁
  exact timer_flag_iff_linked 1 (by decide) s (.check handOver 3 hreachable hharmless hcheck)

/-- A function that stops its timer and starts it again. -/
def restart (t : ℕ) (_ : Timers) : List Call := [.stop t, .start t]

/-- A timer that its own function has stopped and started again is linked after the
check, but its flag is cleared. -/
theorem linked_without_flag :
    ∃ s, ReachableBy 1 (fun _ _ => True) s ∧ s.checked = true ∧ (s.timer 1).created = true ∧
      (s.timer 1).activated = false ∧ (s.row 0).next none = some 1 := by
  obtain ⟨s, hs, hvalues⟩ := Runs.Partial.exists_of_any (fun s : Timers => s.checked = true ∧
    (s.timer 1).created = true ∧ (s.timer 1).activated = false ∧ (s.row 0).next none = some 1)
    (show ((runFrom 1 (boot 0 0) firstDue).bind (rtTimerCheck 1 (callback 1 restart) 3)).any _ =
      true by decide +kernel) fun _ _ h => h
  obtain ⟨s₁, hs₁, hcheck⟩ := bind_eq_some_iff.mp hs
  have hreachable : ReachableBy 1 (fun _ _ => True) s₁ :=
    (ReachableBy.boot 0 0 (by decide)).runFrom hs₁
  exact ⟨s, .check restart 3 hreachable (fun _ _ => trivial) hcheck, hvalues⟩

/-! ## How many functions a check calls -/

/-- The comparison of `rt_timer_check`. -/
def Due (s : Timers) (t : ℕ) : Prop := sub32 s.tick (s.timer t).timeoutTick < rtTickMaxHalf

/-- **The end of a check.**  In every state reached with harmless timeout functions, let
`active` be the active timers.  A check whose functions do not touch the timers calls at
most as many functions as there are active timers, if and only if no due timer is
periodic with an `init_tick` of 0, or the assertion of `rt_timer_start` stops the check
at a due periodic timer whose `init_tick` is too large. -/
theorem check_calls_bounded_iff (levels : ℕ) (hlevels : 1 ≤ levels) (s : Timers)
    (h : ReachableBy levels Harmless s) (active : List ℕ) (hnodup : active.Nodup)
    (hactive : ∀ t, t ∈ active ↔ (s.timer t).created = true ∧ (s.timer t).activated = true) :
    (∀ fuel, (calls levels fuel s).length ≤ active.length) ↔
      (∀ t ∈ active, s.Due t → ¬ s.Zero t) ∨ ∃ t ∈ active, s.Due t ∧ s.Large t := by
  obtain ⟨rows, now, deadline, hlisted⟩ := h.listed hlevels
  have hrow : (rows (levels - 1)).Perm active :=
    (perm_ext_iff_of_nodup (row_nodup (hlisted.ring (levels - 1) (by omega))) hnodup).mpr
      fun t => (hlisted.active t).trans (hactive t).symm
  have hdue : ∀ t, t ∈ notLater deadline now (rows (levels - 1)) ↔ t ∈ active ∧ s.Due t := by
    intro t
    rw [mem_notLater, ← hrow.mem_iff]
    refine and_congr_right fun ht => ?_
    have hwindow := hlisted.window t ht
    rw [Due, hlisted.timeout t ht, hlisted.tick, sub32_lt_half_iff (by omega) (by omega)]
  have hcount : (notLater deadline now (rows (levels - 1))).length ≤ active.length :=
    (length_filter_le ..).trans hrow.length_eq.le
  constructor
  · intro hbound
    by_contra hneither
    obtain ⟨hzero, hlarge⟩ := not_or.mp hneither
    push Not at hzero hlarge
    obtain ⟨t, ht, htdue, hzero⟩ := hzero
    have hfew := hbound (active.length + 1)
    rw [(hlisted.served_due hlevels _).1, length_served_eq ((hdue t).mpr ⟨ht, htdue⟩) hzero
      fun u hu => hlarge u ((hdue u).mp (served_subset _ _ hu)).1
        ((hdue u).mp (served_subset _ _ hu)).2] at hfew
    omega
  · rintro (hzero | ⟨t, ht, htdue, hlarge⟩) fuel <;> rw [(hlisted.served_due hlevels fuel).1]
    · exact (length_served_le
        (fun t ht => hzero t ((hdue t).mp ht).1 ((hdue t).mp ht).2) fuel).trans hcount
    · obtain ⟨before, after, hsplit⟩ := append_of_mem ((hdue t).mpr ⟨ht, htdue⟩)
      rw [hsplit] at hcount ⊢
      refine (length_served_le_of_stuck hlarge fuel).trans (le_trans ?_ hcount)
      rw [length_append, length_cons]
      omega

/-- The active timers are those of the only row. -/
theorem ReachableBy.mem_iff {active : List ℕ} (h : ReachableBy 1 Harmless s)
    (hchain : Chain (s.row 0) none (active.map some) none) (t : ℕ) :
    t ∈ active ↔ (s.timer t).created = true ∧ (s.timer t).activated = true := by
  obtain ⟨rows, now, deadline, hlisted⟩ := h.listed Nat.one_pos
  have hrow := (hlisted.ring 0 Nat.one_pos).chain.unique hchain (by simp) (by simp)
  rw [← map_injective_iff.mpr (some_injective ℕ) hrow]
  exact hlisted.active t

/-- The timers 1 and 2 are due, and 2 is periodic. -/
def bothDue : List Event := [.create 1 1 false, .create 2 1 true, .start 1, .start 2, .tick]

theorem check_calls_bounded_two :
    ∃ s, runFrom 1 (boot 0 0) bothDue = some s ∧ s.Due 1 ∧ s.Due 2 ∧ calls 1 3 s = [1, 2] ∧
      ∀ fuel, (calls 1 fuel s).length ≤ 2 := by
  have hreturns : ∃ s, runFrom 1 (boot 0 0) bothDue = some s ∧
      Chain (s.row 0) none [some 1, some 2] none ∧ calls 1 3 s = [1, 2] ∧ ∀ t ∈ [1, 2],
        sub32 s.tick (s.timer t).timeoutTick < rtTickMaxHalf ∧ (s.timer t).initTick ≠ 0 :=
    Runs.Partial.exists_of_any _ (by decide +kernel) fun _ _ h => h
  obtain ⟨s, hs, hchain, hcalls, hdue⟩ := hreturns
  have hreachable : ReachableBy 1 Harmless s := (ReachableBy.boot 0 0 (by decide)).runFrom hs
  refine ⟨s, hs, (hdue 1 (by decide)).1, (hdue 2 (by decide)).1, hcalls, ?_⟩
  exact (check_calls_bounded_iff 1 (by decide) s hreachable [1, 2] (by decide)
    (hreachable.mem_iff hchain)).mpr (.inl fun t ht _ hzero => (hdue t ht).2 hzero.2)

/-- A periodic timer of `init_tick` 0: two calls although only one timer is active. -/
theorem check_calls_zero_period :
    ∃ s, ReachableBy 1 Harmless s ∧
      (∀ t, t ∈ [1] ↔ (s.timer t).created = true ∧ (s.timer t).activated = true) ∧
      (calls 1 2 s).length = 2 := by
  have hreturns : ∃ s, runFrom 1 (boot 0 0) [.create 1 0 true, .start 1] = some s ∧
      Chain (s.row 0) none [some 1] none ∧ (calls 1 2 s).length = 2 :=
    Runs.Partial.exists_of_any _ (by decide +kernel) fun _ _ h => h
  obtain ⟨s, hs, hchain, hcalls⟩ := hreturns
  have hreachable : ReachableBy 1 Harmless s := (ReachableBy.boot 0 0 (by decide)).runFrom hs
  exact ⟨s, hreachable, hreachable.mem_iff hchain, hcalls⟩

end Timers

end Easyio.Kernel
