import Easyio.Kernel.TimerCheck

/-!
# When timers fire

A check that returns has called the timeout functions of exactly the timers that were
due, in the order of the list, and has entered the periodic ones again
(`Listed.swept`).  No other step calls a timeout function or moves the time at which a
timer is due, unless it is a stop or a deletion of that timer (`Listed.quiet`).

So between its start and its first call a timer stands in the list with the due time
it was given, and as a check follows every tick the clock cannot pass that time
without the call (`Listed.first_call`); for a periodic timer the same argument goes
from one call to the next (`Listed.periodic_calls`).
-/

namespace Easyio.Kernel

open List Easyio.Lists Nat Option

namespace Timers

/-- The number of the last tick that has been checked, when `ticks` ticks have passed. -/
def lastChecked (ticks : ℕ) (s : Timers) : ℕ := if s.checked then ticks else ticks - 1

theorem lastChecked_le (ticks : ℕ) (s : Timers) : lastChecked ticks s ≤ ticks := by
  unfold lastChecked
  split <;> omega

/-! ## From the start of a timer to its calls -/

/-- The ticks at which the timeout function of `t` is called. -/
def callTicks (t : ℕ) (log : List (ℕ × ℕ)) : List ℕ := (log.filter (·.1 = t)).map (·.2)

theorem callTicks_append (t : ℕ) (log more : List (ℕ × ℕ)) :
    callTicks t (log ++ more) = callTicks t log ++ callTicks t more := by
  simp [callTicks]

variable {t tick : ℕ} {due : List ℕ}

theorem callTicks_of_not_mem (ht : t ∉ due) : callTicks t (due.map (·, tick)) = [] := by
  have hnone : (due.map (·, tick)).filter (·.1 = t) = [] := by
    refine filter_eq_nil_iff.mpr fun p hp => ?_
    obtain ⟨u, hu, rfl⟩ := mem_map.mp hp
    simpa using fun he : u = t => ht (he ▸ hu)
  rw [callTicks, hnone, map_nil]

theorem callTicks_of_mem (hnodup : due.Nodup) (ht : t ∈ due) :
    callTicks t (due.map (·, tick)) = [tick] := by
  obtain ⟨before, after, rfl⟩ := append_of_mem ht
  have hbefore : t ∉ before := fun hin =>
    (nodup_append.mp hnodup).2.2 t hin t mem_cons_self rfl
  have hafter : t ∉ after := (nodup_cons.mp (nodup_append.mp hnodup).2.1).1
  rw [map_append, callTicks_append, map_cons, ← singleton_append, callTicks_append,
    callTicks_of_not_mem hbefore, callTicks_of_not_mem hafter]
  simp [callTicks]

namespace Listed

variable {levels now t : ℕ} {s s' : Timers} {rows rows' : ℕ → List ℕ} {deadline deadline' : ℕ → ℕ}

theorem Quiet.lastChecked_eq {e : Event}
    (hquiet : Quiet levels e t now s rows deadline s' rows' deadline') (hallowed : Allowed s e)
    (ticks : ℕ) : lastChecked (ticks + if e = .tick then 1 else 0) s' = lastChecked ticks s := by
  by_cases htick : e = .tick
  · subst htick
    have hchecked : s.checked = true := hallowed
    simp [lastChecked, hquiet.checked, hchecked]
  · simp [lastChecked, hquiet.checked, htick]

/-- A timer that is due `d` ticks after `start` is called by the check of that tick and
by no check before. -/
theorem Swept.call {start ticks d : ℕ}
    (hswept : Swept levels (start + ticks) s rows deadline s' rows' deadline')
    (h : Listed levels s rows (start + ticks) deadline) (hlevels : 0 < levels)
    (ht : t ∈ rows (levels - 1)) (hdeadline : deadline t = start + d)
    (hlast : lastChecked ticks s < d) :
    ∃ more, s'.fired = s.fired ++ more ∧
      (ticks < d ∧ callTicks t more = [] ∧ t ∈ rows' (levels - 1) ∧ deadline' t = start + d ∨
        ticks = d ∧ callTicks t more = [(start + d) % 2 ^ 32]) := by
  refine ⟨_, hswept.log, ?_⟩
  by_cases hdue : ticks < d
  · have hout : t ∉ notLater deadline (start + ticks) (rows (levels - 1)) := fun hin => by
      have := (mem_notLater.mp hin).2
      omega
    obtain ⟨hmem, hsame⟩ := hswept.kept t ht (by omega)
    exact .inl ⟨hdue, callTicks_of_not_mem hout, hmem, hsame.trans hdeadline⟩
  · have hticks : ticks = d := by
      unfold lastChecked at hlast
      split at hlast <;> omega
    have hnodup : (notLater deadline (start + ticks) (rows (levels - 1))).Nodup :=
      (row_nodup (h.ring (levels - 1) (by omega))).filter _
    refine .inr ⟨hticks, ?_⟩
    rw [callTicks_of_mem hnodup (mem_notLater.mpr ⟨ht, by omega⟩), h.tick, hticks]

end Listed

section Calls

variable {levels t start d ticks : ℕ} {s s' : Timers} {log : List (ℕ × ℕ)} {e : Event}

/-- `ticks` ticks after the start of `t`, whose `init_tick` was `d`: it is waiting for
its first call, or it has had it. -/
def FirstCall (levels t start d ticks : ℕ) (s : Timers) (log : List (ℕ × ℕ)) : Prop :=
  ∃ rows deadline, Listed levels s rows (start + ticks) deadline ∧
    (t ∈ rows (levels - 1) ∧ deadline t = start + d ∧ callTicks t log = [] ∧
        lastChecked ticks s < d ∨
      (callTicks t log).head? = some ((start + d) % 2 ^ 32) ∧ d ≤ lastChecked ticks s)

/-- The same for a periodic timer and all its calls. -/
def AllCalls (levels t start d ticks : ℕ) (s : Timers) (log : List (ℕ × ℕ)) : Prop :=
  ∃ rows deadline count, Listed levels s rows (start + ticks) deadline ∧
    t ∈ rows (levels - 1) ∧ deadline t = start + (count + 1) * d ∧
    callTicks t log = (List.range count).map (fun j => (start + (j + 1) * d) % 2 ^ 32) ∧
    count * d ≤ lastChecked ticks s ∧ lastChecked ticks s < (count + 1) * d ∧
    (s.timer t).initTick = d ∧ (s.timer t).periodic = true

theorem FirstCall.step (h : FirstCall levels t start d ticks s log) (hlevels : 0 < levels)
    (hkept : ¬ e.Cancels t) (hallowed : Allowed s e) (hstep : step levels s e = some s') :
    ∃ more, s'.fired = s.fired ++ more ∧
      FirstCall levels t start d (ticks + if e = .tick then 1 else 0) s' (log ++ more) := by
  obtain ⟨rows, deadline, hlisted, hphase⟩ := h
  obtain ⟨rows', deadline', ⟨⟨fuel, rfl⟩, hswept⟩ | hquiet⟩ :=
    hlisted.swept_or_quiet hlevels hallowed hstep t
  · have hlast : lastChecked ticks s' = ticks := by simp [lastChecked, hswept.checked]
    simp only [reduceCtorEq, if_false, add_zero]
    rcases hphase with ⟨ht, hdeadline, hnone, hbefore⟩ | ⟨hfirst, hafter⟩
    · obtain ⟨more, hlog, hcall⟩ := hswept.call hlisted hlevels ht hdeadline hbefore
      refine ⟨more, hlog, rows', deadline', hswept.listed, ?_⟩
      rw [callTicks_append, hnone, nil_append, hlast]
      rcases hcall with ⟨hless, hcall, hmem, hsame⟩ | ⟨hnow, hcall⟩
      · exact .inl ⟨hmem, hsame, hcall, hless⟩
      · exact .inr ⟨by rw [hcall, head?_cons], hnow.ge⟩
    · refine ⟨_, hswept.log, rows', deadline', hswept.listed, .inr ⟨?_, ?_⟩⟩
      · rw [callTicks_append, head?_append, hfirst, some_or]
      · rw [hlast]
        exact hafter.trans (lastChecked_le ticks s)
  · have hlisted' := hquiet.listed
    rw [add_assoc] at hlisted'
    refine ⟨[], by rw [hquiet.log, append_nil], rows', deadline', hlisted', ?_⟩
    rw [append_nil, hquiet.lastChecked_eq hallowed]
    rcases hphase with ⟨ht, hdeadline, hnone, hbefore⟩ | hafter
    · obtain ⟨hmem, hsame⟩ := hquiet.kept hkept ht
      exact .inl ⟨hmem, hsame.trans hdeadline, hnone, hbefore⟩
    · exact .inr hafter

theorem AllCalls.step (h : AllCalls levels t start d ticks s log) (hlevels : 0 < levels)
    (hd : 0 < d) (hkept : ¬ e.Cancels t) (hfree : ¬ e.Controls t) (hallowed : Allowed s e)
    (hstep : step levels s e = some s') :
    ∃ more, s'.fired = s.fired ++ more ∧
      AllCalls levels t start d (ticks + if e = .tick then 1 else 0) s' (log ++ more) := by
  obtain ⟨rows, deadline, count, hlisted, ht, hdeadline, hcalls, hlow, hhigh, hinit, hperiodic⟩ := h
  obtain ⟨rows', deadline', ⟨⟨fuel, rfl⟩, hswept⟩ | hquiet⟩ :=
    hlisted.swept_or_quiet hlevels hallowed hstep t
  · have hlast : lastChecked ticks s' = ticks := by simp [lastChecked, hswept.checked]
    have hfields := hswept.fields t
    rw [hinit, hperiodic] at hfields
    obtain ⟨more, hlog, hcall⟩ := hswept.call hlisted hlevels ht hdeadline hhigh
    simp only [reduceCtorEq, if_false, add_zero]
    refine ⟨more, hlog, rows', deadline', ?_⟩
    rw [callTicks_append, hcalls, hlast]
    rcases hcall with ⟨hless, hcall, hmem, hsame⟩ | ⟨hnow, hcall⟩
    · refine ⟨count, hswept.listed, hmem, hsame, by rw [hcall, append_nil], ?_, hless, hfields⟩
      exact hlow.trans (lastChecked_le ticks s)
    · obtain ⟨hmem, hsame⟩ := hswept.again t ht (by omega) hperiodic
      refine ⟨count + 1, hswept.listed, hmem, ?_, ?_, hnow.ge, ?_, hfields⟩
      · rw [hsame, hinit, hnow, succ_mul (count + 1), add_assoc]
      · rw [hcall, range_succ, map_append]
        rfl
      · rw [succ_mul (count + 1)]
        omega
  · obtain ⟨hmem, hsame⟩ := hquiet.kept hkept ht
    obtain ⟨hinit', hperiodic'⟩ := hquiet.fields hfree ht
    have hlisted' := hquiet.listed
    rw [add_assoc] at hlisted'
    refine ⟨[], by rw [hquiet.log, append_nil], rows', deadline', count, hlisted', hmem,
      hsame.trans hdeadline, ?_, ?_, ?_, hinit'.trans hinit, hperiodic'.trans hperiodic⟩
    · rw [append_nil, hcalls]
    · rwa [hquiet.lastChecked_eq hallowed]
    · rwa [hquiet.lastChecked_eq hallowed]

/-- A property of the state and the log that every step keeps holds after a run. -/
theorem runFrom_log {P : ℕ → Timers → List (ℕ × ℕ) → Prop} (ok : Event → Prop)
    (hstep : ∀ {ticks s log e s'}, P ticks s log → ok e → Allowed s e → step levels s e = some s' →
      ∃ more, s'.fired = s.fired ++ more ∧ P (ticks + if e = .tick then 1 else 0) s' (log ++ more))
    {events : List Event} (hok : ∀ e ∈ events, ok e)
    (hrun : runFrom levels s events = some s') (h : P ticks s log) :
    ∃ more, s'.fired = s.fired ++ more ∧ P (ticks + events.count .tick) s' (log ++ more) := by
  induction events generalizing s ticks log with
  | nil =>
    obtain rfl := some.inj hrun
    exact ⟨[], (append_nil _).symm, by simpa using h⟩
  | cons e events ih =>
    obtain ⟨hallowed, s₁, hs₁, hrest⟩ := runFrom_cons hrun
    obtain ⟨first, hfirst, h₁⟩ := hstep h (hok e mem_cons_self) hallowed hs₁
    obtain ⟨more, hmore, h'⟩ := ih (fun e he => hok e (mem_cons_of_mem _ he)) hrest h₁
    refine ⟨first ++ more, by rw [hmore, hfirst, append_assoc], ?_⟩
    have hcount : ticks + (e :: events).count .tick =
        ticks + (if e = .tick then 1 else 0) + events.count .tick := by
      simp only [count_cons, beq_iff_eq]
      omega
    rw [hcount, ← append_assoc]
    exact h'

/-- **Punctuality.**  Let `t` be started at some tick with `init_tick` `d` between 1 and
`RT_TICK_MAX / 2 - 1`, in a state reached by steps with a check after every tick and
timeout functions that do not touch timers.  Then the start returns, and in every run
from there on without a stop or a deletion of `t`, `t` is called for the first time by
the check of the `d`-th tick, not before, and if it is periodic and is not given
another time or mode, exactly by the checks of every `d`-th tick.  This check calls it
also when it does not end, unless a timer set to an `init_tick` that is too large stops
it.  A check that returns has called the timers that were due, each once, those of
equal timeout in the order of their starts. -/
theorem timer_punctual (levels : ℕ) (hlevels : 1 ≤ levels) (s : Timers) (h : Reachable levels s) :
    (∀ t d, (s.timer t).created = true → (s.timer t).activated = false →
      (s.timer t).initTick = d → 0 < d → d < rtTickMaxHalf →
      ∃ s₁, step levels s (.start t) = some s₁ ∧
        ∀ events s', (∀ e ∈ events, ¬ e.Cancels t) → runFrom levels s₁ events = some s' →
          ∃ log, s'.fired = s.fired ++ log ∧
            (callTicks t log).head? =
              (if d ≤ lastChecked (events.count .tick) s' then some ((s.tick + d) % 2 ^ 32)
                else none) ∧
            ((s.timer t).periodic = true → (∀ e ∈ events, ¬ e.Controls t) →
              callTicks t log = (List.range (lastChecked (events.count .tick) s' / d)).map
                fun j => (s.tick + (j + 1) * d) % 2 ^ 32) ∧
            (events.count .tick = d → s'.checked = false →
              (∀ u, (s'.timer u).created = true → (s'.timer u).activated = true →
                (s'.timer u).periodic = true → (s'.timer u).initTick < rtTickMaxHalf) →
              ∃ fuel, t ∈ calls levels fuel s')) ∧
      ∀ fuel s', step levels s (.check fuel) = some s' →
        ∃ due : List ℕ, s'.fired = s.fired ++ due.map (·, s.tick) ∧ due.Nodup ∧
          (∀ t, t ∈ due ↔ (s.timer t).created = true ∧ (s.timer t).activated = true ∧
            sub32 s.tick (s.timer t).timeoutTick < rtTickMaxHalf) ∧
          due.Pairwise fun a b => (s.timer a).timeoutTick = (s.timer b).timeoutTick →
            (s.timer a).startNr < (s.timer b).startNr := by
  obtain ⟨rows, now, deadline, hlisted⟩ := h.listed hlevels
  have htick : ∀ n, (now + n) % 2 ^ 32 = (s.tick + n) % 2 ^ 32 := fun n => by
    rw [hlisted.tick, mod_add_mod]
  refine ⟨?_, ?_⟩
  · intro t d hcreated hidle hd hpos hhalf
    obtain ⟨s₁, rows₁, hstart, hrows₁, hfields, -, ⟨-, -, hlog₁⟩, hlisted₁⟩ :=
      hlisted.start hlevels hcreated hidle (hd ▸ hhalf)
    rw [hd] at hrows₁ hlisted₁
    have hmem₁ : t ∈ rows₁ (levels - 1) := hrows₁ ▸ mem_enqueue.mpr (.inl rfl)
    have hdue₁ : Function.update deadline t (now + d) t = now + d := Function.update_self ..
    have hlast₁ : lastChecked 0 s₁ = 0 := by simp [lastChecked]
    refine ⟨s₁, hstart, fun events s' hkept hrun => ?_⟩
    have hstart₁ : FirstCall levels t now d 0 s₁ [] :=
      ⟨rows₁, _, hlisted₁, .inl ⟨hmem₁, hdue₁, rfl, hlast₁.trans_lt hpos⟩⟩
    obtain ⟨log, hlog, hfirst⟩ := runFrom_log (fun e => ¬ e.Cancels t)
      (fun h hok ha hs => FirstCall.step h hlevels hok ha hs) hkept hrun hstart₁
    rw [nil_append, zero_add] at hfirst
    refine ⟨log, hlog₁ ▸ hlog, ?_, fun hperiodic hfree => ?_, fun hticks hopen hinit => ?_⟩
    · obtain ⟨_, _, _, ⟨-, -, hnone, hless⟩ | ⟨hcall, hafter⟩⟩ := hfirst
      · rw [if_neg (not_le.mpr hless), hnone, head?_nil]
      · rw [if_pos hafter, hcall, htick]
    · obtain ⟨log', hlog', hall⟩ := runFrom_log
        (fun e => ¬ e.Cancels t ∧ ¬ e.Controls t)
        (fun h hok ha hs => AllCalls.step h hlevels hpos hok.1 hok.2 ha hs)
        (fun e he => ⟨hkept e he, hfree e he⟩) hrun
        (⟨rows₁, _, 0, hlisted₁, hmem₁, by rw [hdue₁, zero_add, one_mul], rfl,
          by rw [Nat.zero_mul]; exact Nat.zero_le _, by rw [hlast₁]; omega,
          (hfields t).1.trans hd, (hfields t).2.trans hperiodic⟩ :
          AllCalls levels t now d 0 s₁ [])
      rw [nil_append, zero_add] at hall
      obtain rfl : log = log' := append_cancel_left (hlog.symm.trans hlog')
      obtain ⟨_, _, count, _, -, -, hcalls, hlow, hhigh, -, -⟩ := hall
      have hcount : lastChecked (events.count .tick) s' / d = count :=
        Nat.div_eq_of_lt_le hlow hhigh
      rw [hcount, hcalls]
      exact map_congr_left fun j _ => htick _
    · obtain ⟨rows', deadline', hlisted', ⟨hmem, hdue, -, -⟩ | ⟨-, hafter⟩⟩ := hfirst
      · obtain ⟨before, after, hsplit⟩ := append_of_mem
          (mem_notLater.mpr ⟨hmem, (hdue.trans (hticks ▸ rfl)).le⟩ :
            t ∈ notLater deadline' (now + events.count .tick) (rows' (levels - 1)))
        refine ⟨before.length + 1, ?_⟩
        rw [(hlisted'.served_due hlevels _).1, hsplit]
        refine mem_served fun u hu hlarge => absurd hlarge.2 (not_le.mpr ?_)
        have hu : u ∈ rows' (levels - 1) := (mem_notLater.mp (hsplit ▸
          mem_append_left _ hu)).1
        exact hinit u ((hlisted'.active u).mp hu).1 ((hlisted'.active u).mp hu).2 hlarge.1
      · simp only [lastChecked, hopen, hticks, Bool.false_eq_true, if_false] at hafter
        omega
  · intro fuel s' hcheck
    obtain ⟨rows', deadline', hswept⟩ := hlisted.swept hlevels hcheck
    have hordered := hlisted.toOrdered hlevels
    refine ⟨_, hswept.log, hordered.nodup.filter _, fun t => ?_,
      (hordered.startOrder (levels - 1) (by omega)).filter _⟩
    rw [mem_notLater, ← and_assoc, ← hlisted.active t]
    refine and_congr_right fun ht => ?_
    have hwindow := hlisted.window t ht
    rw [hlisted.timeout t ht, hlisted.tick, sub32_lt_half_iff (by omega) (by omega)]

end Calls

/-- Two ticks before the wrap of the counter, timer 1 with a period of 2 ticks. -/
def beforeTheWrap : Timers := (boot (2 ^ 32 - 3) 0).rtTimerInit 2 1 2 true

def fourTicks : List Event :=
  [.tick, .check 2, .tick, .check 2, .tick, .check 2, .tick, .check 2]

theorem timer_punctual_before_wrap :
    ∃ s₁ s' log, step 2 beforeTheWrap (.start 1) = some s₁ ∧ runFrom 2 s₁ fourTicks = some s' ∧
      s'.fired = beforeTheWrap.fired ++ log ∧ callTicks 1 log = [2 ^ 32 - 1, 1] := by
  have hreachable : Reachable 2 beforeTheWrap :=
    .step (.create 1 2 true) (.boot (2 ^ 32 - 3) 0 (by decide)) rfl rfl
  obtain ⟨s₁, hstart, hruns⟩ := (timer_punctual 2 (by decide) beforeTheWrap hreachable).1 1 2
    rfl rfl rfl (by decide) (by decide)
  have hreturns : (((step 2 beforeTheWrap (.start 1)).bind (runFrom 2 · fourTicks)).map
      Timers.checked) = some true := by decide +kernel
  rw [hstart, bind_some] at hreturns
  obtain ⟨s', hs', hchecked⟩ := map_eq_some_iff.mp hreturns
  have hkept : ∀ e ∈ fourTicks, ¬ e.Cancels 1 := by
    simp [fourTicks, Event.Cancels]
  have hfree : ∀ e ∈ fourTicks, ¬ e.Controls 1 := by
    simp [fourTicks, Event.Controls]
  obtain ⟨log, hlog, -, hcalls, -⟩ := hruns fourTicks s' hkept hs'
  refine ⟨s₁, s', log, hstart, hs', hlog, (hcalls rfl hfree).trans ?_⟩
  rw [show lastChecked (fourTicks.count .tick) s' = 4 by rw [lastChecked, hchecked]; rfl]
  rfl

end Timers

end Easyio.Kernel
