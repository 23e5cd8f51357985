import Easyio.Kernel.TimerRows
import Easyio.Runs.Partial

/-!
# The check of the timers

A check takes the timers that are due off the front of the list and calls their
timeout functions (`Listed.fire`).  A periodic timer is started again: with an
`init_tick` other than 0 it comes to stand among the timers that are not due yet, so
the due timers become fewer with each call (`Fired.due_eq`).

Every step keeps the rows ordered, and so does every run (`timer_list_ordered`).
-/

namespace Easyio.Kernel

open Function List Option Easyio.Lists

namespace Timers

variable {levels now : ℕ} {s s' : Timers} {rows : ℕ → List ℕ} {deadline : ℕ → ℕ}

/-- The timers whose timeout functions a check calls, up to `fuel` of them, where the
functions do not touch any timer. -/
def calls (levels : ℕ) : ℕ → Timers → List ℕ
  | 0, _ => []
  | fuel + 1, s =>
    match s.due levels with
    | none => []
    | some t =>
      t :: match s.fire levels (fun _ s => some s) t with
        | none => []
        | some s' => calls levels fuel s'

/-- A periodic timer that is started again at once. -/
def Zero (s : Timers) (t : ℕ) : Prop := (s.timer t).periodic = true ∧ (s.timer t).initTick = 0

/-- A periodic timer whose next start fails the assertion. -/
def Large (s : Timers) (t : ℕ) : Prop :=
  (s.timer t).periodic = true ∧ rtTickMaxHalf ≤ (s.timer t).initTick

namespace Listed

variable {levels now t u : ℕ} {s s' : Timers} {rows rows' : ℕ → List ℕ} {deadline deadline' : ℕ → ℕ}

/-! ## The check -/

section

variable (h : Listed levels s rows now deadline) (hlevels : 0 < levels)
include h hlevels

/-- The timer taken is the first of those whose time has come. -/
theorem due_eq : s.due levels = (notLater deadline now (rows (levels - 1))).head? := by
  have hring := h.ring (levels - 1) (by omega)
  have hsorted := h.sorted (show levels - 1 < levels by omega)
  unfold due
  cases hrow : rows (levels - 1) with
  | nil =>
    rw [hrow] at hring
    rw [show (s.row (levels - 1)).next none = none from hring.chain.1]
    rfl
  | cons a rest =>
    rw [hrow] at hring hsorted
    have hmem : a ∈ rows (levels - 1) := hrow ▸ mem_cons_self ..
    have hwindow := h.window a hmem
    have hcmp : sub32 s.tick (s.timer a).timeoutTick < rtTickMaxHalf ↔ deadline a ≤ now := by
      rw [h.timeout a hmem, h.tick]
      exact sub32_lt_half_iff (by omega) (by omega)
    rw [show (s.row (levels - 1)).next none = some a from hring.chain.1]
    by_cases htime : deadline a ≤ now
    · simp only [hcmp, htime, if_true, notLater_cons_of_le htime, head?_cons]
    · have hnone : notLater deadline now (a :: rest) = [] := by
        refine filter_eq_nil_iff.mpr fun u hu => ?_
        simp only [decide_eq_true_eq]
        rcases mem_cons.mp hu with rfl | hu
        · exact htime
        · have := (pairwise_cons.mp hsorted).1 u hu
          omega
      simp only [hcmp, htime, if_false, hnone, head?_nil]

theorem due_cons (hdue : s.due levels = some t) :
    ∃ rest, notLater deadline now (rows (levels - 1)) = t :: rest :=
  head?_eq_some_iff.mp (h.due_eq hlevels ▸ hdue)

theorem due_some (hdue : s.due levels = some t) : t ∈ rows (levels - 1) ∧ deadline t ≤ now := by
  rw [h.due_eq hlevels] at hdue
  exact mem_notLater.mp (mem_of_head? hdue)

theorem due_none (hdue : s.due levels = none) : ∀ t ∈ rows (levels - 1), now < deadline t := by
  rw [h.due_eq hlevels, head?_eq_none_iff] at hdue
  intro t ht
  by_contra htime
  have hmem := mem_notLater.mpr ⟨ht, not_lt.mp htime⟩
  rw [hdue] at hmem
  exact not_mem_nil hmem

theorem checked (hdue : s.due levels = none) :
    Listed levels { s with checked := true } rows now deadline :=
  { h with notBefore := fun _ t ht => (h.due_none hlevels hdue t ht).le }

end

/-- What a call of the timeout function of `t`, which is due, leaves behind. -/
structure Fired (levels now : ℕ) (s : Timers) (t : ℕ) (rows : ℕ → List ℕ) (deadline : ℕ → ℕ)
    (s' : Timers) (rows' : ℕ → List ℕ) (deadline' : ℕ → ℕ) : Prop where
  listed : Listed levels s' rows' now deadline'
  log : s'.fired = s.fired ++ [(t, s.tick)]
  tick : s'.tick = s.tick
  checked : s'.checked = s.checked
  fields : ∀ u, (s'.timer u).initTick = (s.timer u).initTick ∧
    (s'.timer u).periodic = (s.timer u).periodic
  others : ∀ u ≠ t, s'.timer u = s.timer u
  once : (s.timer t).periodic = false →
    rows' (levels - 1) = (rows (levels - 1)).erase t ∧ deadline' = deadline
  again : (s.timer t).periodic = true →
    rows' (levels - 1) =
        enqueue deadline (now + (s.timer t).initTick) t ((rows (levels - 1)).erase t) ∧
      deadline' = update deadline t (now + (s.timer t).initTick)

/-- One call of a timeout function and what follows it: a periodic timer is started
again. -/
theorem fire (h : Listed levels s rows now deadline) (hlevels : 0 < levels)
    (hdue : s.due levels = some t)
    (hinit : (s.timer t).periodic = true → (s.timer t).initTick < rtTickMaxHalf) :
    ∃ s' rows' deadline', s.fire levels (fun _ s => some s) t = some s' ∧
      Fired levels now s t rows deadline s' rows' deadline' := by
  have ht := (h.active t).mp (h.due_some hlevels hdue).1
  set stopped : Timers := { (s.rtTimerRemove levels t).modify t ({ · with activated := false }) with
    fired := s.fired ++ [(t, s.tick)] } with hdef
  have hstopped : Listed levels stopped (fun i => (rows i).erase t) now deadline :=
    (h.remove hlevels ht.1 ({ · with activated := false }) (by simp)).log _
  have hself : stopped.timer t = { s.timer t with activated := false } := by
    simp [hdef, rtTimerRemove_eq, Timers.modify]
  have hother : ∀ u ≠ t, stopped.timer u = s.timer u := by
    intro u hu
    simp [hdef, rtTimerRemove_eq, Timers.modify, update_of_ne hu]
  have hframe : stopped.tick = s.tick ∧ stopped.checked = s.checked := by
    simp [hdef, rtTimerRemove_eq, Timers.modify]
  have hsame : ∀ u, (stopped.timer u).initTick = (s.timer u).initTick ∧
      (stopped.timer u).periodic = (s.timer u).periodic := by
    intro u
    by_cases hu : u = t
    · rw [hu, hself]
      exact ⟨rfl, rfl⟩
    · rw [hother u hu]
      exact ⟨rfl, rfl⟩
  have hfire : s.fire levels (fun _ s => some s) t =
      if (s.timer t).periodic then stopped.rtTimerStart levels t else some stopped := by
    unfold Timers.fire
    simp only [hdef, rtTimerRemove_eq, Timers.modify, bind, Option.bind, ht.2, Bool.and_true]
  rw [hfire]
  split
  · rename_i hperiodic
    obtain ⟨s', rows', hstart, hrows', hfields, hothers, ⟨htick, hchecked, hlog⟩, hlisted⟩ :=
      hstopped.start hlevels (by rw [hself]; exact ht.1) (by rw [hself])
        (by rw [hself]; exact hinit hperiodic)
    rw [(hsame t).1] at hrows' hlisted
    exact ⟨s', rows', _, hstart,
      { listed := hlisted
        log := hlog
        tick := htick.trans hframe.1
        checked := hchecked.trans hframe.2
        fields := fun u => ⟨(hfields u).1.trans (hsame u).1, (hfields u).2.trans (hsame u).2⟩
        others := fun u hu => (hothers u hu).trans (hother u hu)
        once := fun honce => absurd (honce.symm.trans hperiodic) Bool.false_ne_true
        again := fun _ => ⟨hrows', rfl⟩ }⟩
  · rename_i honce
    exact ⟨stopped, _, deadline, rfl,
      { listed := hstopped
        log := rfl
        tick := hframe.1
        checked := hframe.2
        fields := hsame
        others := hother
        once := fun _ => ⟨rfl, rfl⟩
        again := fun hperiodic => absurd hperiodic honce }⟩

section

variable (hfired : Fired levels now s t rows deadline s' rows' deadline') (hu : u ≠ t)
include hfired hu

theorem Fired.deadline_of_ne : deadline' u = deadline u := by
  cases hperiodic : (s.timer t).periodic with
  | false => rw [(hfired.once hperiodic).2]
  | true => rw [(hfired.again hperiodic).2, update_of_ne hu]

theorem Fired.mem_of_ne : u ∈ rows' (levels - 1) ↔ u ∈ rows (levels - 1) := by
  cases hperiodic : (s.timer t).periodic with
  | false => rw [(hfired.once hperiodic).1, mem_erase_of_ne hu]
  | true => rw [(hfired.again hperiodic).1, mem_enqueue, mem_erase_of_ne hu, or_iff_right hu]

end

theorem Fired.zero_eq (h : Fired levels now s t rows deadline s' rows' deadline') :
    s'.Zero = s.Zero := by
  funext u
  rw [Zero, Zero, (h.fields u).1, (h.fields u).2]

theorem Fired.large_eq (h : Fired levels now s t rows deadline s' rows' deadline') :
    s'.Large = s.Large := by
  funext u
  rw [Large, Large, (h.fields u).1, (h.fields u).2]

open Classical in
/-- The call takes the first timer off the due ones; it comes back at their end if it
is periodic with an `init_tick` of 0. -/
theorem Fired.due_eq {rest : List ℕ}
    (hfired : Fired levels now s t rows deadline s' rows' deadline')
    (h : Listed levels s rows now deadline) (hlevels : 0 < levels)
    (hdue : notLater deadline now (rows (levels - 1)) = t :: rest) :
    notLater deadline' now (rows' (levels - 1)) =
      rest ++ if s.Zero t then [t] else [] := by
  have hlast : levels - 1 < levels := by omega
  have hnodup := row_nodup (h.ring (levels - 1) hlast)
  have hrow : rows (levels - 1) = t :: (rest ++ later deadline now (rows (levels - 1))) := by
    have hsplit := notLater_append_later (d := now) (h.sorted hlast)
    rw [hdue, cons_append] at hsplit
    exact hsplit.symm
  have hrest : notLater deadline now ((rows (levels - 1)).erase t) = rest := by
    have htime := (mem_notLater.mp (hdue ▸ mem_cons_self .. :
      t ∈ notLater deadline now (rows (levels - 1)))).2
    rw [hrow, notLater_cons_of_le htime] at hdue
    rw [hrow, erase_cons_head]
    exact (cons.inj hdue).2
  cases hperiodic : (s.timer t).periodic with
  | false =>
    obtain ⟨hrows', rfl⟩ := hfired.once hperiodic
    simp [Zero, hperiodic, hrows', hrest]
  | true =>
    obtain ⟨hrows', rfl⟩ := hfired.again hperiodic
    rw [hrows', notLater_enqueue ((h.sorted hlast).sublist erase_sublist)
      hnodup.not_mem_erase (Nat.le_add_right ..), hrest]
    have hzero : now + (s.timer t).initTick ≤ now ↔ (s.timer t).initTick = 0 := by omega
    simp only [Zero, hperiodic, hzero, true_and]

/-- A periodic timer whose `init_tick` is too large stops the system. -/
theorem fire_none (hactive : (s.timer t).activated = true) (hperiodic : (s.timer t).periodic = true)
    (hinit : rtTickMaxHalf ≤ (s.timer t).initTick) :
    s.fire levels (fun _ s => some s) t = none := by
  unfold Timers.fire
  simp only [rtTimerRemove_eq, Timers.modify, bind, Option.bind, hactive, hperiodic, Bool.and_true,
    if_true, rtTimerStart, update_self, hinit, Bool.false_eq_true, if_false]

/-- What a check leaves behind. -/
structure Swept (levels now : ℕ) (s : Timers) (rows : ℕ → List ℕ) (deadline : ℕ → ℕ)
    (s' : Timers) (rows' : ℕ → List ℕ) (deadline' : ℕ → ℕ) : Prop where
  listed : Listed levels s' rows' now deadline'
  log : s'.fired = s.fired ++ (notLater deadline now (rows (levels - 1))).map (·, s.tick)
  checked : s'.checked = true
  fields : ∀ u, (s'.timer u).initTick = (s.timer u).initTick ∧
    (s'.timer u).periodic = (s.timer u).periodic
  kept : ∀ u ∈ rows (levels - 1), now < deadline u →
    u ∈ rows' (levels - 1) ∧ deadline' u = deadline u
  again : ∀ u ∈ rows (levels - 1), deadline u ≤ now → (s.timer u).periodic = true →
    u ∈ rows' (levels - 1) ∧ deadline' u = now + (s.timer u).initTick

section

variable (h : Listed levels s rows now deadline) (hlevels : 0 < levels)
include h hlevels

theorem of_fire
    (hdue : s.due levels = some t) (hfire : s.fire levels (fun _ s => some s) t = some s') :
    ((s.timer t).periodic = true → (s.timer t).initTick < rtTickMaxHalf) ∧
      ∃ rows' deadline', Fired levels now s t rows deadline s' rows' deadline' := by
  have hactive := ((h.active t).mp (h.due_some hlevels hdue).1).2
  have hinit : (s.timer t).periodic = true → (s.timer t).initTick < rtTickMaxHalf := by
    intro hperiodic
    by_contra hlarge
    rw [fire_none hactive hperiodic (not_lt.mp hlarge)] at hfire
    cases hfire
  obtain ⟨s₁, rows₁, deadline₁, hfire₁, hfired⟩ := h.fire hlevels hdue hinit
  obtain rfl : s₁ = s' := some.inj (hfire₁.symm.trans hfire)
  exact ⟨hinit, rows₁, deadline₁, hfired⟩

/-- A check serves the timers that are due.  It returns if it gets to their end. -/
theorem served_due (fuel : ℕ) :
    calls levels fuel s = served s.Zero s.Large fuel (notLater deadline now (rows (levels - 1))) ∧
      ((rtTimerCheck levels (fun _ s => some s) fuel s).isSome ↔
        (calls levels fuel s).length < fuel ∧ ∀ t ∈ calls levels fuel s, ¬ s.Large t) := by
  induction fuel generalizing s rows deadline with
  | zero => exact ⟨rfl, by simp [rtTimerCheck]⟩
  | succ fuel ih =>
    cases hdue : s.due levels with
    | none =>
      have hnil := hdue
      rw [h.due_eq hlevels, head?_eq_none_iff] at hnil
      simp [calls, rtTimerCheck, hdue, hnil, served]
    | some t =>
      obtain ⟨rest, hrest⟩ := h.due_cons hlevels hdue
      by_cases hlarge : s.Large t
      · have hactive := ((h.active t).mp (h.due_some hlevels hdue).1).2
        simp [calls, rtTimerCheck, hdue, hrest, served, hlarge,
          fire_none hactive hlarge.1 hlarge.2]
      · obtain ⟨s₁, rows₁, deadline₁, hfire, hfired⟩ := h.fire hlevels hdue fun hperiodic =>
          not_le.mp fun hle => hlarge ⟨hperiodic, hle⟩
        obtain ⟨hcalls, hends⟩ := ih hfired.listed
        rw [hfired.zero_eq, hfired.large_eq, hfired.due_eq h hlevels hrest] at hcalls
        rw [hfired.large_eq] at hends
        simp [calls, rtTimerCheck, hdue, hrest, hfire, served, hlarge, hcalls, hends]

theorem not_zero_of_check {fuel : ℕ}
    (hcheck : rtTimerCheck levels (fun _ s => some s) fuel s = some s') :
    ∀ t ∈ notLater deadline now (rows (levels - 1)), ¬ s.Zero t := by
  intro t ht hzero
  obtain ⟨hcalls, hends⟩ := h.served_due hlevels fuel
  obtain ⟨hlength, hlarge⟩ := hends.mp (hcheck ▸ rfl)
  rw [hcalls] at hlength hlarge
  exact hlength.ne (length_served_eq ht hzero hlarge)

/-- The check ends when no periodic timer starts again at once. -/
theorem check_returns (hperiodic : ∀ t ∈ rows (levels - 1), (s.timer t).periodic = true →
      0 < (s.timer t).initTick ∧ (s.timer t).initTick < rtTickMaxHalf) :
    ∃ fuel s', rtTimerCheck levels (fun _ s => some s) fuel s = some s' := by
  have hnormal : ∀ t ∈ notLater deadline now (rows (levels - 1)), ¬ s.Zero t ∧ ¬ s.Large t := by
    intro t ht
    have ht := hperiodic t (mem_notLater.mp ht).1
    exact ⟨fun h => (ht h.1).1.ne' h.2, fun h => (ht h.1).2.not_ge h.2⟩
  obtain ⟨hcalls, hends⟩ := h.served_due hlevels _
  rw [served_eq_self hnormal] at hcalls
  rw [hcalls] at hends
  exact ⟨_, isSome_iff_exists.mp
    (hends.mpr ⟨Nat.lt_succ_self _, fun t ht => (hnormal t ht).2⟩)⟩

theorem swept {fuel : ℕ}
    (hcheck : rtTimerCheck levels (fun _ s => some s) fuel s = some s') :
    ∃ rows' deadline', Swept levels now s rows deadline s' rows' deadline' := by
  induction fuel generalizing s rows deadline with
  | zero => cases hcheck
  | succ fuel ih =>
    have hwhole := hcheck
    rw [rtTimerCheck] at hcheck
    split at hcheck
    · rename_i hdue
      obtain rfl := some.inj hcheck
      have hahead := h.due_none hlevels hdue
      rw [h.due_eq hlevels, head?_eq_none_iff] at hdue
      exact ⟨rows, deadline,
        { listed := h.checked hlevels (by rw [h.due_eq hlevels, hdue]; rfl)
          log := by simp [hdue]
          checked := rfl
          fields := fun _ => ⟨rfl, rfl⟩
          kept := fun u hu _ => ⟨hu, rfl⟩
          again := fun u hu htime => absurd htime (Nat.not_le.mpr (hahead u hu)) }⟩
    · rename_i t hdue
      obtain ⟨s₁, hfire, hrest⟩ := bind_eq_some_iff.mp hcheck
      obtain ⟨-, rows₁, deadline₁, hfired⟩ := h.of_fire hlevels hdue hfire
      obtain ⟨rest, hlist⟩ := h.due_cons hlevels hdue
      have hnonzero : ¬ s.Zero t := h.not_zero_of_check hlevels hwhole t (hlist ▸ mem_cons_self ..)
      have hless := hfired.due_eq h hlevels hlist
      rw [if_neg hnonzero] at hless
      obtain ⟨rows', deadline', hswept⟩ := ih hfired.listed hrest
      obtain ⟨hmem, htime⟩ := h.due_some hlevels hdue
      refine ⟨rows', deadline', hswept.listed, ?_, hswept.checked, fun u => ?_, ?_, ?_⟩
      · rw [hswept.log, hless, hfired.log, hfired.tick, hlist]
        simp
      · rw [(hswept.fields u).1, (hswept.fields u).2]
        exact hfired.fields u
      · intro u hu hahead
        have hut : u ≠ t := fun he => absurd (he ▸ htime) (Nat.not_le.mpr hahead)
        rw [← hfired.mem_of_ne hut] at hu
        rw [← hfired.deadline_of_ne hut] at hahead ⊢
        exact hswept.kept u hu hahead
      · intro u hu hdone hperiodic
        by_cases hut : u = t
        · -- called first: entered again with a time that lies ahead
          subst hut
          obtain ⟨hrows₁, hdeadline₁⟩ := hfired.again hperiodic
          have hpos : 0 < (s.timer u).initTick :=
            Nat.pos_of_ne_zero fun hzero => hnonzero ⟨hperiodic, hzero⟩
          have hnext : deadline₁ u = now + (s.timer u).initTick := by
            rw [hdeadline₁, update_self]
          rw [← hnext]
          exact hswept.kept u (hrows₁ ▸ mem_enqueue.mpr (.inl rfl)) (by omega)
        · rw [← hfired.mem_of_ne hut] at hu
          rw [← hfired.deadline_of_ne hut] at hdone
          rw [← (hfired.fields u).1]
          exact hswept.again u hu hdone ((hfired.fields u).2.trans hperiodic)

end

end Listed

/-! ## The other steps -/

/-- The step changes the time or the mode of `t`. -/
def Event.Controls (t : ℕ) : Event → Prop
  | .setTime u _ => u = t
  | .setPeriodic u _ => u = t
  | _ => False

/-- The step takes `t` out of the list. -/
def Event.Cancels (t : ℕ) (e : Event) : Prop := e = .stop t ∨ e = .delete t

namespace Listed

variable {levels now t u : ℕ} {s s' : Timers} {rows : ℕ → List ℕ} {deadline : ℕ → ℕ} {e : Event}

/-- What a step other than a check leaves behind, seen from the timer `t`. -/
structure Quiet (levels : ℕ) (e : Event) (t now : ℕ) (s : Timers) (rows : ℕ → List ℕ)
    (deadline : ℕ → ℕ) (s' : Timers) (rows' : ℕ → List ℕ) (deadline' : ℕ → ℕ) : Prop where
  listed : Listed levels s' rows' (now + if e = .tick then 1 else 0) deadline'
  log : s'.fired = s.fired
  checked : s'.checked = (s.checked && e ≠ .tick)
  kept : ¬ e.Cancels t → t ∈ rows (levels - 1) → t ∈ rows' (levels - 1) ∧ deadline' t = deadline t
  fields : ¬ e.Controls t → t ∈ rows (levels - 1) →
    (s'.timer t).initTick = (s.timer t).initTick ∧ (s'.timer t).periodic = (s.timer t).periodic

namespace Quiet

theorem refl (h : Listed levels s rows now deadline) (he : e ≠ .tick) :
    Quiet levels e t now s rows deadline s rows deadline where
  listed := by rwa [if_neg he]
  log := rfl
  checked := by simp [he]
  kept _ ht := ⟨ht, rfl⟩
  fields _ _ := ⟨rfl, rfl⟩

variable {f : Timer → Timer}

theorem of_modify (h : Listed levels s rows now deadline) (he : e ≠ .tick)
    (hf : ∀ timer, (f timer).created = timer.created ∧ (f timer).activated = timer.activated ∧
      (f timer).timeoutTick = timer.timeoutTick ∧ (f timer).startNr = timer.startNr)
    (hu : u = t → e.Controls t) :
    Quiet levels e t now s rows deadline (s.modify u f) rows deadline :=
  { refl h he with
    listed := by
      rw [if_neg he]
      exact h.modify u hf
    fields := fun hother _ => by
      rw [show (s.modify u f).timer t = s.timer t from
        update_of_ne (fun htu => hother (hu htu.symm)) ..]
      exact ⟨rfl, rfl⟩ }

theorem of_remove (h : Listed levels s rows now deadline) (hlevels : 0 < levels) (he : e ≠ .tick)
    (hcreated : (s.timer u).created = true)
    (hf : ¬ ((f (s.timer u)).created = true ∧ (f (s.timer u)).activated = true))
    (hsame : ∀ timer, (f timer).initTick = timer.initTick ∧ (f timer).periodic = timer.periodic)
    (hu : u = t → e.Cancels t) :
    Quiet levels e t now s rows deadline ((s.rtTimerRemove levels u).modify u f)
      (fun i => (rows i).erase u) deadline where
  listed := by
    rw [if_neg he]
    exact h.remove hlevels hcreated f hf
  log := by rw [rtTimerRemove_eq]; rfl
  checked := by rw [rtTimerRemove_eq]; simp [Timers.modify, he]
  kept hkept ht := ⟨(mem_erase_of_ne fun htu => hkept (hu htu.symm)).mpr ht, rfl⟩
  fields _ _ := by
    rw [rtTimerRemove_eq, Timers.modify]
    by_cases htu : t = u
    · subst htu
      simpa using hsame (s.timer t)
    · simp [update_of_ne htu]

end Quiet

section

variable (h : Listed levels s rows now deadline) (hlevels : 0 < levels) (hallowed : Allowed s e)
  (hstep : Timers.step levels s e = some s') (t : ℕ)
include h hlevels hallowed hstep

theorem quiet (hcheck : ∀ fuel, e ≠ .check fuel) :
    ∃ rows' deadline', Quiet levels e t now s rows deadline s' rows' deadline' := by
  cases e with
  | create u time periodic =>
    obtain rfl := some.inj hstep
    have hframe : (s.rtTimerInit levels u time periodic).fired = s.fired ∧
        (s.rtTimerInit levels u time periodic).checked = s.checked ∧
        ∀ v ≠ u, (s.rtTimerInit levels u time periodic).timer v = s.timer v := by
      unfold rtTimerInit
      rw [foldl_onRow]
      exact ⟨rfl, rfl, fun v hv => update_of_ne hv ..⟩
    refine ⟨rows, deadline, h.create hallowed time periodic, hframe.1, by simp [hframe.2.1],
      fun _ ht => ⟨ht, rfl⟩, fun _ ht => ?_⟩
    have htu : t ≠ u := by
      rintro rfl
      exact Bool.false_ne_true (Eq.trans (Eq.symm hallowed) ((h.active t).mp ht).1)
    rw [hframe.2.2 t htu]
    exact ⟨rfl, rfl⟩
  | start u =>
    rcases h.start_cases hlevels hallowed hstep with rfl | ⟨hidle, rows', hrows', hfields, hframe,
      hlisted⟩
    · exact ⟨rows, deadline, .refl h Event.noConfusion⟩
    · refine ⟨rows', _, hlisted, hframe.2, by simp [hframe.1], fun _ ht => ?_, fun _ _ => hfields t⟩
      have htu : t ≠ u := by
        rintro rfl
        exact Bool.false_ne_true (hidle.symm.trans ((h.active t).mp ht).2)
      rw [hrows', update_of_ne htu]
      exact ⟨mem_enqueue.mpr (.inr ht), rfl⟩
  | stop u =>
    obtain rfl := some.inj hstep
    unfold rtTimerStop
    split
    · exact ⟨_, deadline, .of_remove h hlevels Event.noConfusion hallowed (by simp)
        (fun _ => ⟨rfl, rfl⟩) fun hut => .inl (hut ▸ rfl)⟩
    · exact ⟨rows, deadline, .refl h Event.noConfusion⟩
  | delete u =>
    obtain rfl := some.inj hstep
    exact ⟨_, deadline, .of_remove h hlevels Event.noConfusion hallowed (by simp)
      (fun _ => ⟨rfl, rfl⟩) fun hut => .inr (hut ▸ rfl)⟩
  | setTime u time | setPeriodic u periodic =>
    obtain rfl := some.inj hstep
    exact ⟨rows, deadline, .of_modify h Event.noConfusion (fun _ => ⟨rfl, rfl, rfl, rfl⟩) id⟩
  | tick =>
    obtain rfl := some.inj hstep
    exact ⟨rows, deadline, h.rtTickIncrease hallowed, rfl, by simp [Timers.rtTickIncrease],
      fun _ ht => ⟨ht, rfl⟩, fun _ _ => ⟨rfl, rfl⟩⟩
  | check fuel => exact absurd rfl (hcheck fuel)

theorem swept_or_quiet : ∃ rows' deadline',
    (∃ fuel, e = .check fuel) ∧ Swept levels now s rows deadline s' rows' deadline' ∨
      Quiet levels e t now s rows deadline s' rows' deadline' := by
  by_cases hcheck : ∃ fuel, e = .check fuel
  · obtain ⟨fuel, rfl⟩ := hcheck
    obtain ⟨rows', deadline', hswept⟩ := h.swept hlevels hstep
    exact ⟨rows', deadline', .inl ⟨⟨fuel, rfl⟩, hswept⟩⟩
  · obtain ⟨rows', deadline', hquiet⟩ :=
      h.quiet hlevels hallowed hstep t fun fuel he => hcheck ⟨fuel, he⟩
    exact ⟨rows', deadline', .inr hquiet⟩

end

end Listed

/-! ## Every run -/

theorem listed_boot (levels tick randomNr : ℕ) (htick : tick < 2 ^ 32) :
    Listed levels (boot tick randomNr) (fun _ => []) tick (fun _ => 0) where
  ring _ _ := ⟨⟨rfl, rfl⟩, nodup_singleton _⟩
  solo _ hcreated := Bool.noConfusion hcreated
  sub _ _ := Sublist.refl _
  active t := by simp [boot]
  ordered := List.Pairwise.nil
  startNr _ ht := absurd ht not_mem_nil
  length := Nat.zero_le _
  tick := (Nat.mod_eq_of_lt htick).symm
  timeout _ ht := absurd ht not_mem_nil
  window _ ht := absurd ht not_mem_nil
  notBefore _ _ ht := absurd ht not_mem_nil

theorem Listed.step (h : Listed levels s rows now deadline) (hlevels : 0 < levels) {e : Event}
    (hallowed : Allowed s e) (hstep : step levels s e = some s') :
    ∃ rows' now' deadline', Listed levels s' rows' now' deadline' := by
  obtain ⟨rows', deadline', ⟨-, hswept⟩ | hquiet⟩ := h.swept_or_quiet hlevels hallowed hstep 0
  · exact ⟨_, _, _, hswept.listed⟩
  · exact ⟨_, _, _, hquiet.listed⟩

theorem Reachable.listed (hlevels : 0 < levels) (h : Reachable levels s) :
    ∃ rows now deadline, Listed levels s rows now deadline := by
  induction h with
  | boot tick randomNr htick => exact ⟨_, _, _, listed_boot levels tick randomNr htick⟩
  | step e _ hallowed hstep ih =>
    obtain ⟨rows, now, deadline, hlisted⟩ := ih
    exact hlisted.step hlevels hallowed hstep

/-- The rows of the skip list hold `rows`: sorted by timeout in wrap-around order (no
timeout is more than half the range behind the one before it), each row a sublist of
the next, in the last row every active timer once, and timers of equal timeout in the
order in which they were started. -/
structure Ordered (levels : ℕ) (s : Timers) (rows : ℕ → List ℕ) : Prop where
  linked : ∀ i < levels, Ring (s.row i) none ((rows i).map some)
  sorted : ∀ i < levels, (rows i).Pairwise fun a b =>
    sub32 (s.timer b).timeoutTick (s.timer a).timeoutTick < 2 ^ 31
  sublist : ∀ i, i + 1 < levels → (rows i).Sublist (rows (i + 1))
  nodup : (rows (levels - 1)).Nodup
  active : ∀ t, t ∈ rows (levels - 1) ↔
    (s.timer t).created = true ∧ (s.timer t).activated = true
  startOrder : ∀ i < levels, (rows i).Pairwise fun a b =>
    (s.timer a).timeoutTick = (s.timer b).timeoutTick →
      (s.timer a).startNr < (s.timer b).startNr

theorem Listed.toOrdered (hlevels : 0 < levels) (h : Listed levels s rows now deadline) :
    Ordered levels s rows where
  linked := h.ring
  sorted i hi := by
    refine (h.ordered.imp_of_mem fun {a b} ha hb hbefore => ?_).sublist (h.sub_last hi)
    have ha' := h.window a ha
    have hb' := h.window b hb
    have hle : deadline a ≤ deadline b := hbefore.elim Nat.le_of_lt fun heq => heq.1.le
    rw [h.timeout a ha, h.timeout b hb]
    unfold sub32
    omega
  sublist := h.sub
  nodup := row_nodup (h.ring (levels - 1) (by omega))
  active := h.active
  startOrder i hi := by
    refine (h.ordered.imp_of_mem fun {a b} ha hb hbefore heq => ?_).sublist (h.sub_last hi)
    have ha' := h.window a ha
    have hb' := h.window b hb
    rw [h.timeout a ha, h.timeout b hb] at heq
    -- in the window equal residues are equal times
    have htimes : deadline a = deadline b := by omega
    rcases hbefore with hlt | ⟨-, hnr⟩
    · exact absurd htimes (Nat.ne_of_lt hlt)
    · exact hnr

/-- **The timer list.**  For every number of levels and in every state reached by
starts, stops, deletions, ticks and checks, with a check after each tick and timeout
functions that do not touch timers, the rows are ordered.  The operations return: a
start if `init_tick` passes its assertion, and a check if, besides, no active periodic
timer has `init_tick` 0. -/
theorem timer_list_ordered (levels : ℕ) (hlevels : 1 ≤ levels) (s : Timers)
    (h : Reachable levels s) : (∃ rows, Ordered levels s rows) ∧
      (∀ e, Allowed s e → (∀ t, e = .start t → (s.timer t).initTick < rtTickMaxHalf) →
        (∀ fuel, e ≠ .check fuel) → ∃ s', step levels s e = some s') ∧
      ((∀ t, (s.timer t).created = true → (s.timer t).activated = true →
          (s.timer t).periodic = true →
            0 < (s.timer t).initTick ∧ (s.timer t).initTick < rtTickMaxHalf) →
        ∃ fuel s', step levels s (.check fuel) = some s') := by
  obtain ⟨rows, now, deadline, hlisted⟩ := h.listed hlevels
  refine ⟨⟨rows, hlisted.toOrdered hlevels⟩, ?_, ?_⟩
  · intro e hallowed hinit hcheck
    cases e with
    | start t =>
      change ∃ s', s.rtTimerStart levels t = some s'
      by_cases hactive : (s.timer t).activated = true
      · exact ⟨s, by rw [rtTimerStart, if_pos hactive]⟩
      · obtain ⟨s', rows', hstart, -⟩ := hlisted.start hlevels hallowed
          (Bool.eq_false_of_not_eq_true hactive) (hinit t rfl)
        exact ⟨s', hstart⟩
    | check fuel => exact absurd rfl (hcheck fuel)
    | create t time periodic | stop t | delete t | setTime t time | setPeriodic t periodic
    | tick => exact ⟨_, rfl⟩
  · intro hperiodic
    exact hlisted.check_returns hlevels fun t ht =>
      hperiodic t ((hlisted.active t).mp ht).1 ((hlisted.active t).mp ht).2

/-- Timers 1 and 2, due at the same tick behind the wrap of the counter, and the
periodic timer 3, which fires in between and comes to stand behind them. -/
def acrossTheWrap : List Event :=
  [.create 1 4 false, .create 2 4 false, .create 3 2 true, .start 1, .start 2, .start 3, .tick,
    .check 4, .tick, .check 4]

theorem timer_list_ordered_across_wrap :
    ∃ s, runFrom 2 (boot (2 ^ 32 - 3) 2) acrossTheWrap = some s ∧ s.fired = [(3, 2 ^ 32 - 1)] ∧
      ∃ rows, Ordered 2 s rows := by
  refine Runs.Partial.exists_of_any (·.fired = [(3, 2 ^ 32 - 1)]) (by decide +kernel)
    fun s hs hfired => ?_
  have hreachable := (Reachable.boot (2 ^ 32 - 3) 2 (by decide)).runFrom hs
  exact ⟨hfired, (timer_list_ordered 2 (by decide) s hreachable).1⟩

end Timers

end Easyio.Kernel
