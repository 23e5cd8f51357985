import Easyio.Drivers.Waiter
import Easyio.Runs.Partial

/-!
# Completions

`components/drivers/src/completion.c`: `rt_completion_wait` and `rt_completion_done`, in a
system of threads and interrupt handlers that call them.

What a call does while interrupts are disabled is one step.  `rt_completion_done` tests the
flag before that, in a step of its own.  A thread that waits goes on with the step `run`
when it is no longer in the list; the timer of a thread that waits may run out at any
time.

A completion stores one `done` for which nobody waits.  Two things go wrong with it.
A wait that finds the flag set does not clear it, so the same `done` serves every later
wait.  And a wait that has timed out clears the flag before it returns, also if it was set
by a `done` in the meantime, which is lost.
-/

namespace Easyio.Drivers

open Bool Function Kernel List Option Runs.Partial Waiter

namespace Completion

/-- Where a thread is. -/
inductive Pc where
  | idle
  /-- in `rt_completion_wait`, after the switch -/
  | waiting
  /-- in `rt_completion_done`, after the test -/
  | completing
  deriving DecidableEq

inductive Event where
  | wait (t : ℕ) (timeout : ℤ)
  /-- the thread runs again after `rt_schedule` -/
  | run (t : ℕ)
  | done (t : ℕ)
  /-- the critical section of `rt_completion_done` -/
  | complete (t : ℕ)
  /-- the timer of the thread runs out -/
  | timeout (t : ℕ)

end Completion

/-- `struct rt_completion` with the threads that call it, and what a wait that ended in
the last step returned. -/
structure Completion where
  flag : Bool
  suspendedList : List ℕ
  thread : ℕ → Waiter
  pc : ℕ → Completion.Pc
  returned : Option Err

namespace Completion

/-- `rt_completion_init`, when no thread is inside of a call. -/
def init (error : ℕ → Err) : Completion where
  flag := false
  suspendedList := []
  thread := fun t => ⟨error t, false⟩
  pc := fun _ => .idle
  returned := none

section

variable (s : Completion) (t : ℕ)

def goto (pc : Pc) : Completion := { s with pc := update s.pc t pc }

/-- `rt_completion_wait`, up to the switch. -/
def rtCompletionWait (timeout : ℤ) : Option Completion :=
  if s.flag then some { s with returned := some .eok }
  -- only one thread can suspend on complete
  else if s.suspendedList ≠ [] then none
  else if timeout = 0 then some { s with returned := some .etimeout }
  else (wait s.thread t timeout).map fun thread =>
    { s with thread, suspendedList := s.suspendedList ++ [t] }.goto t .waiting

/-- `rt_completion_wait` after the switch. -/
def waitEnd : Completion :=
  { s with flag := false, returned := some (s.thread t).error }.goto t .idle

/-- `rt_completion_done`, up to the critical section. -/
def rtCompletionDone : Completion :=
  if s.flag then s else s.goto t .completing

/-- The critical section of `rt_completion_done`. -/
def doneEnd : Completion :=
  match s.suspendedList with
  | [] => { s with flag := true }.goto t .idle
  | u :: _ =>
    { s with
      flag := true
      suspendedList := s.suspendedList.erase u
      thread := resume s.thread u }.goto t .idle

end

def step (s : Completion) : Event → Option Completion
  | .wait t timeout =>
    if s.pc t = .idle then { s with returned := none }.rtCompletionWait t timeout else none
  | .run t => if s.pc t = .waiting ∧ t ∉ s.suspendedList then some (s.waitEnd t) else none
  | .done t =>
    if s.pc t = .idle then some ({ s with returned := none }.rtCompletionDone t) else none
  | .complete t =>
    if s.pc t = .completing then some ({ s with returned := none }.doneEnd t) else none
  | .timeout t =>
    if (s.thread t).timerActive then
      some { s with
        suspendedList := s.suspendedList.erase t
        thread := expire s.thread t
        returned := none }
    else none

/-! ## What is counted -/

/-- What an observer knows: the `done`s that have taken effect, the waits that returned
`RT_EOK`, whether there is a `done` that happened while no thread waited and that no wait
has consumed, and how many waits returned `RT_EOK` without a `done` to consume. -/
structure Tally where
  dones : ℕ
  oks : ℕ
  pending : Bool
  unearned : ℕ

/-- A `done` takes effect. -/
def Tally.done (k : Tally) (s : Completion) : Tally :=
  { k with dones := k.dones + 1, pending := k.pending || s.suspendedList.isEmpty }

/-- A wait has returned `RT_EOK`. -/
def Tally.ok (k : Tally) : Tally := { k with oks := k.oks + 1, pending := false }

/-- What the observer makes of a step.  A thread that was resumed has its own `done`; a
wait that returns at once needs one that is pending. -/
def Tally.note (k : Tally) (s : Completion) (e : Event) (s' : Completion) : Tally :=
  match e with
  | .wait _ _ =>
    if s'.returned = some .eok then
      { k.ok with unearned := k.unearned + if k.pending then 0 else 1 }
    else k
  | .run _ => if s'.returned = some .eok then k.ok else k
  | .done _ => if s.flag then k.done s else k
  | .complete _ => k.done s
  | .timeout _ => k

/-- The completion with its observer. -/
abbrev observed : Completion × Tally → Event → Option (Completion × Tally) :=
  observing step Tally.note

/-- No more waits succeed than there are `done`s, and a `done` for which nobody waited is
there for the next wait and for no other. -/
structure Counted (c : Completion × Tally) : Prop where
  oks : c.2.oks ≤ c.2.dones
  kept : c.2.pending = true → c.1.flag = true
  earned : c.2.unearned = 0

/-- A wait that finds the flag set finds a pending `done`, and a wait that has timed out
does not. -/
def Consumes (c : Completion × Tally) : Event → Prop
  | .wait _ _ => c.1.flag = true → c.2.pending = true
  | .run t => (c.1.thread t).error ≠ .eok → c.2.pending = false
  | _ => True

/-! ## Steps -/

variable {s s' : Completion} {k : Tally} {t : ℕ} {c c' : Completion × Tally} {released : List ℕ}
  {e : Event}

/-- The thread in the list waits, and only its timer runs. -/
structure Listed (s : Completion) : Prop where
  single : s.suspendedList.length ≤ 1
  waiting : ∀ t ∈ s.suspendedList, s.pc t = .waiting ∧ (s.thread t).error = .eok
  timers : ∀ t, (s.thread t).timerActive = true → t ∈ s.suspendedList

/-- The threads that were resumed and have not run again are among `released`. -/
def Released (s : Completion) (released : List ℕ) : Prop :=
  ∀ t, s.pc t = .waiting → t ∉ s.suspendedList → (s.thread t).error = .eok → t ∈ released

/-- What holds in all states.  Every thread that was resumed has a `done` of its own, and
so has the pending one. -/
structure Sound (c : Completion × Tally) : Prop where
  listed : c.1.Listed
  clear : c.1.flag = true → c.1.suspendedList = []
  kept : c.2.pending = true → c.1.flag = true
  earned : c.2.unearned = 0
  owed : ∃ released, c.1.Released released ∧
    c.2.oks + released.length + c.2.pending.toNat ≤ c.2.dones

theorem Sound.counted (h : Sound c) : Counted c := by
  obtain ⟨released, -, howed⟩ := h.owed
  exact ⟨by omega, h.kept, h.earned⟩

theorem Listed.congr (h : s.Listed) (hlist : s'.suspendedList = s.suspendedList)
    (hthread : s'.thread = s.thread) (hpc : s'.pc = s.pc) : s'.Listed := by
  obtain ⟨single, waiting, timers⟩ := h
  exact ⟨by rwa [hlist], by rwa [hlist, hthread, hpc], by rwa [hlist, hthread]⟩

theorem Listed.goto (h : s.Listed) (ht : t ∉ s.suspendedList) (pc : Pc) : (s.goto t pc).Listed := by
  refine ⟨h.single, fun u hu => ⟨?_, (h.waiting u hu).2⟩, h.timers⟩
  have hne : u ≠ t := fun heq => ht (heq ▸ hu)
  exact (update_of_ne hne ..).trans (h.waiting u hu).1

theorem Released.goto (h : s.Released released) {pc : Pc} (hpc : pc ≠ .waiting) :
    (s.goto t pc).Released released := by
  intro u hu hlist herror
  rcases eq_or_ne u t with rfl | hne
  · exact absurd ((update_self ..).symm.trans hu) hpc
  · exact h u ((update_of_ne hne ..).symm.trans hu) hlist herror

theorem Listed.nodup (h : s.Listed) : s.suspendedList.Nodup := by
  have hsingle := h.single
  cases hlist : s.suspendedList with
  | nil => exact nodup_nil
  | cons u rest =>
    rw [hlist, length_cons] at hsingle
    rw [length_eq_zero_iff.mp (by omega : rest.length = 0)]
    simp

theorem Listed.not_mem (h : s.Listed) (hpc : s.pc t ≠ .waiting) : t ∉ s.suspendedList :=
  fun ht => hpc (h.waiting t ht).1

theorem Sound.wait {timeout : ℤ} (h : Sound (s, k)) (hguard : s.flag = true → k.pending = true)
    (hs : { s with returned := none }.rtCompletionWait t timeout = some s') :
    Sound (s', k.note s (.wait t timeout) s') := by
  obtain ⟨hlisted, hclear, hkept, hearned, released, hreleased, howed⟩ := h
  unfold rtCompletionWait at hs
  split_ifs at hs with hflag hlist htime
  · -- the wait consumes the pending `done`
    rw [← some.inj hs]
    have hpending := hguard hflag
    simp only [hpending, toNat_true] at howed
    refine ⟨hlisted.congr rfl rfl rfl, hclear, by simp [Tally.note, Tally.ok],
      by simpa [Tally.note, hpending] using hearned, released, hreleased, ?_⟩
    simp only [Tally.note, Tally.ok, if_true, toNat_false]
    omega
  · rw [← some.inj hs]
    exact ⟨hlisted.congr rfl rfl rfl, hclear, hkept, hearned, released, hreleased, howed⟩
  · obtain ⟨thread, hwait, rfl⟩ := map_eq_some_iff.mp hs
    have hnil : s.suspendedList = [] := not_not.mp hlist
    refine ⟨⟨?_, ?_, ?_⟩, fun hset => absurd hset hflag, hkept, hearned, released, ?_, howed⟩
    · simp [goto, hnil]
    · intro u hu
      obtain rfl : u = t := by simpa [goto, hnil] using hu
      exact ⟨update_self .., wait_error hwait⟩
    · intro u hu
      by_contra hne
      have hne : u ≠ t := by simpa [goto, hnil] using hne
      have hu : (thread u).timerActive = true := hu
      rw [wait_of_ne hwait hne] at hu
      exact not_mem_nil (hnil ▸ hlisted.timers u hu)
    · intro u hu hlisted' herror
      have hne : u ≠ t := by simpa [goto, hnil] using hlisted'
      have hu : update s.pc t .waiting u = .waiting := hu
      have herror : (thread u).error = .eok := herror
      rw [update_of_ne hne] at hu
      rw [wait_of_ne hwait hne] at herror
      exact hreleased u hu (by simp [hnil]) herror

theorem Sound.run (h : Sound (s, k)) (hpc : s.pc t = .waiting) (hlist : t ∉ s.suspendedList)
    (hguard : (s.thread t).error ≠ .eok → k.pending = false) :
    Sound (s.waitEnd t, k.note s (.run t) (s.waitEnd t)) := by
  obtain ⟨hlisted, hclear, hkept, hearned, released, hreleased, howed⟩ := h
  have hlisted' : (s.waitEnd t).Listed := (hlisted.goto hlist .idle).congr rfl rfl rfl
  by_cases herror : (s.thread t).error = .eok
  · have hnote : k.note s (.run t) (s.waitEnd t) = k.ok := by
      simp [Tally.note, waitEnd, goto, herror]
    have hmem := hreleased t hpc hlist herror
    rw [hnote]
    refine ⟨hlisted', fun hset => absurd hset false_ne_true, by simp [Tally.ok], hearned,
      released.erase t, fun u hu hu' herror' => ?_, ?_⟩
    · have hne : u ≠ t := by
        rintro rfl
        exact absurd hu (by simp [waitEnd, goto])
      have hu : update s.pc t .idle u = .waiting := hu
      rw [update_of_ne hne] at hu
      exact (mem_erase_of_ne hne).mpr (hreleased u hu hu' herror')
    · have hlength := length_erase_of_mem hmem
      have hpos := length_pos_of_mem hmem
      simp only [Tally.ok, toNat_false]
      simp only at howed
      omega
  · have hnote : k.note s (.run t) (s.waitEnd t) = k := by
      simp [Tally.note, waitEnd, goto, herror]
    rw [hnote]
    refine ⟨hlisted', fun hset => absurd hset false_ne_true, fun hpending => ?_, hearned,
      released, hreleased.goto (by decide), howed⟩
    rw [hguard herror] at hpending
    cases hpending

theorem pending_done_le (hnil : s.suspendedList = [])
    (howed : k.oks + released.length + k.pending.toNat ≤ k.dones) :
    (k.done s).oks + released.length + (k.done s).pending.toNat ≤ (k.done s).dones := by
  simp only [Tally.done, hnil, isEmpty_nil, Bool.or_true, Bool.toNat_true]
  omega

theorem Sound.done (h : Sound (s, k)) (hpc : s.pc t = .idle) :
    Sound ({ s with returned := none }.rtCompletionDone t,
      k.note s (.done t) ({ s with returned := none }.rtCompletionDone t)) := by
  obtain ⟨hlisted, hclear, hkept, hearned, released, hreleased, howed⟩ := h
  unfold rtCompletionDone
  simp only [Tally.note]
  split_ifs with hflag
  · exact ⟨hlisted.congr rfl rfl rfl, hclear, fun _ => hflag, hearned, released, hreleased,
      pending_done_le (hclear hflag) howed⟩
  · have hnot := hlisted.not_mem (by rw [hpc]; decide)
    exact ⟨(hlisted.goto hnot .completing).congr rfl rfl rfl, hclear, hkept, hearned, released,
      hreleased.goto (by decide), howed⟩

theorem Sound.complete (h : Sound (s, k)) (hpc : s.pc t = .completing) :
    Sound ({ s with returned := none }.doneEnd t,
      k.note s (.complete t) ({ s with returned := none }.doneEnd t)) := by
  obtain ⟨hlisted, hclear, hkept, hearned, released, hreleased, howed⟩ := h
  have hnot := hlisted.not_mem (by rw [hpc]; decide)
  unfold doneEnd
  simp only [Tally.note]
  split
  · next hnil =>
      exact ⟨(hlisted.goto hnot .idle).congr rfl rfl rfl, fun _ => hnil, fun _ => rfl, hearned,
        released, hreleased.goto (by decide), pending_done_le hnil howed⟩
  · next u rest hlist =>
      have hlist : s.suspendedList = u :: rest := hlist
      obtain rfl : rest = [] := by
        have hsingle : s.suspendedList.length ≤ 1 := hlisted.single
        rw [hlist, length_cons] at hsingle
        exact length_eq_zero_iff.mp (by omega)
      have herase : s.suspendedList.erase u = [] := by rw [hlist, erase_cons_head]
      refine ⟨⟨?_, ?_, ?_⟩, fun _ => herase, fun _ => rfl, hearned, u :: released, ?_, ?_⟩
      · rw [herase]
        exact Nat.zero_le _
      · intro v hv
        have hv : v ∈ s.suspendedList.erase u := hv
        rw [herase] at hv
        cases hv
      · intro v hv
        obtain ⟨hne, hv⟩ := resume_timerActive hv
        have hv := hlisted.timers v hv
        exact absurd (mem_singleton.mp (hlist ▸ hv)) hne
      · intro v hv _ herror
        have hv : update s.pc t .idle v = .waiting := hv
        have herror : (resume s.thread u v).error = .eok := herror
        rw [resume_error] at herror
        have hne : v ≠ t := by
          rintro rfl
          rw [update_self] at hv
          cases hv
        rw [update_of_ne hne] at hv
        by_cases hmem : v ∈ s.suspendedList
        · rw [hlist] at hmem
          rw [mem_singleton.mp hmem]
          exact mem_cons_self
        · exact mem_cons_of_mem u (hreleased v hv hmem herror)
      · simp only [Tally.done, hlist, isEmpty_cons, Bool.or_false, length_cons]
        simp only at howed
        omega

theorem Sound.timeout (h : Sound (s, k)) (hactive : (s.thread t).timerActive = true) :
    Sound ({ s with
        suspendedList := s.suspendedList.erase t
        thread := expire s.thread t
        returned := none }, k) := by
  obtain ⟨hlisted, hclear, hkept, hearned, released, hreleased, howed⟩ := h
  have hmem := hlisted.timers t hactive
  refine ⟨⟨?_, fun u hu => ?_, fun u hu => ?_⟩, fun hset => ?_, hkept, hearned, released,
    fun u hu hu' herror => ?_, howed⟩
  · exact Nat.le_trans (length_erase_le ..) hlisted.single
  · have hu : u ∈ s.suspendedList.erase t := hu
    obtain ⟨hne, hu⟩ := hlisted.nodup.mem_erase_iff.mp hu
    exact ⟨(hlisted.waiting u hu).1, by
      show (expire s.thread t u).error = _
      rw [expire_of_ne hne]
      exact (hlisted.waiting u hu).2⟩
  · have hu : (expire s.thread t u).timerActive = true := hu
    have hne : u ≠ t := by
      rintro rfl
      rw [expire, update_self] at hu
      cases hu
    rw [expire_of_ne hne] at hu
    exact (mem_erase_of_ne hne).mpr (hlisted.timers u hu)
  · have hnil : s.suspendedList = [] := hclear hset
    rw [hnil, erase_nil]
  · have herror : (expire s.thread t u).error = .eok := herror
    have hne : u ≠ t := by
      rintro rfl
      rw [expire_error_self] at herror
      cases herror
    rw [expire_of_ne hne] at herror
    exact hreleased u hu (fun hu'' => hu' ((mem_erase_of_ne hne).mpr hu'')) herror

theorem Sound.step (hc : Sound c) (hguard : Consumes c e) (h : observed c e = some c') :
    Sound c' := by
  obtain ⟨s, k⟩ := c
  obtain ⟨s', hs, rfl⟩ := map_eq_some_iff.mp h
  cases e with
  | wait t timeout => exact hc.wait hguard (ite_none_right_eq_some.mp hs).2
  | run t =>
    obtain ⟨⟨hpc, hlist⟩, hs⟩ := ite_none_right_eq_some.mp hs
    obtain rfl := some.inj hs
    exact hc.run hpc hlist hguard
  | done t =>
    obtain ⟨hpc, hs⟩ := ite_none_right_eq_some.mp hs
    obtain rfl := some.inj hs
    exact hc.done hpc
  | complete t =>
    obtain ⟨hpc, hs⟩ := ite_none_right_eq_some.mp hs
    obtain rfl := some.inj hs
    exact hc.complete hpc
  | timeout t =>
    obtain ⟨hactive, hs⟩ := ite_none_right_eq_some.mp hs
    obtain rfl := some.inj hs
    exact hc.timeout hactive

theorem Counted.consumes (h : observed c e = some c') (hc : Counted c') : Consumes c e := by
  obtain ⟨s, k⟩ := c
  obtain ⟨s', hs, rfl⟩ := map_eq_some_iff.mp h
  obtain ⟨-, hkept, hearned⟩ := hc
  cases e with
  | wait t timeout =>
    intro hflag
    by_contra hpending
    have hs := (ite_none_right_eq_some.mp hs).2
    rw [rtCompletionWait, if_pos hflag] at hs
    obtain rfl := some.inj hs
    simp [Tally.note, hpending] at hearned
  | run t =>
    intro herror
    by_contra hpending
    have hs := (ite_none_right_eq_some.mp hs).2
    obtain rfl := some.inj hs
    have herror : (s.thread t).error ≠ .eok := herror
    have hpending : k.pending = true := by simpa using hpending
    simp [Tally.note, waitEnd, goto, herror, hpending] at hkept
  | done t => trivial
  | complete t => trivial
  | timeout t => trivial

theorem sound_init (error : ℕ → Err) : Sound (init error, ⟨0, 0, false, 0⟩) := by
  refine ⟨⟨Nat.zero_le _, fun _ ht => absurd ht not_mem_nil, fun _ ht => ?_⟩, fun _ => rfl,
    fun hset => absurd hset false_ne_true, rfl, [], fun _ ht => ?_, Nat.le_refl _⟩
  · cases ht
  · exact absurd ht (by simp [init])

end Completion

open Completion

/-- The waits of a new completion are counted right exactly if each wait that returns at
once finds a `done` that no wait has consumed, and no wait that has timed out meets one. -/
theorem completion_counted_iff (error : ℕ → Err) (events : List Event) :
    Always observed Counted (Completion.init error, ⟨0, 0, false, 0⟩) events ↔
      Meets observed Consumes (Completion.init error, ⟨0, 0, false, 0⟩) events := by
  apply always_iff_meets (P := Counted) fun c (hc : Sound c) => hc.counted
  · exact fun c e c' hc hguard h => hc.step hguard h
  · exact fun c e c' _ h hcounted => hcounted.consumes h
  · exact sound_init error

/-- One `done` and two waits, which both succeed. -/
theorem completion_serves_twice :
    ¬Always observed Counted (Completion.init fun _ => .eok, ⟨0, 0, false, 0⟩)
      [.done 1, .complete 1, .wait 2 0, .wait 2 0] := by
  intro h
  have hoks := ((((h.2 _ rfl).2 _ rfl).2 _ rfl).2 _ rfl).head.oks
  exact absurd hoks (by decide)

/-- A `done` after the time of a wait has run out is lost when the wait returns. -/
example :
    ¬Always observed Counted (Completion.init fun _ => .eok, ⟨0, 0, false, 0⟩)
      [.wait 2 5, .timeout 2, .done 1, .complete 1, .run 2] := by
  intro h
  have hkept := (((((h.2 _ rfl).2 _ rfl).2 _ rfl).2 _ rfl).2 _ rfl).head.kept
  exact absurd (hkept (by decide)) (by decide)

end Easyio.Drivers
