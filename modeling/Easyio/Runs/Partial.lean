import Mathlib.Data.Option.Basic
import Mathlib.Tactic.Common

/-!
# Runs of a system whose steps may fail

A step gives no new state when it cannot happen or when it ends in a failed assertion;
the run stops there.  `Always P` says that `P` holds in every state that the run
reaches, `Meets guard` that every step the run makes meets a condition in the state it
is made in.  If `guard` is what a step has to meet to keep `P`, the two are the same
(`always_iff_meets`).  `observing` is the system together with an observer that keeps
notes of what the steps do.
-/

namespace Easyio.Runs.Partial

open List Option

variable {σ Event : Type*} (step : σ → Event → Option σ)

/-- The state at the end of a run that does not stop. -/
def run : σ → List Event → Option σ
  | s, [] => some s
  | s, e :: rest => (step s e).bind (run · rest)

/-- `P` holds in every state of the run. -/
def Always (P : σ → Prop) : σ → List Event → Prop
  | s, [] => P s
  | s, e :: rest => P s ∧ ∀ s', step s e = some s' → Always P s' rest

/-- Every step of the run meets `guard`. -/
def Meets (guard : σ → Event → Prop) : σ → List Event → Prop
  | _, [] => True
  | s, e :: rest => ∀ s', step s e = some s' → guard s e ∧ Meets guard s' rest

instance {guard : σ → Event → Prop} [∀ s e, Decidable (guard s e)] :
    (s : σ) → (events : List Event) → Decidable (Meets step guard s events)
  | _, [] => inferInstanceAs (Decidable True)
  | s, e :: rest =>
    match h : step s e with
    | none => isTrue fun _ hs => nomatch h.symm.trans hs
    | some s' =>
      have : Decidable (Meets step guard s' rest) := instDecidableMeets s' rest
      decidable_of_iff (guard s e ∧ Meets step guard s' rest)
        ⟨fun hmeets _ hs => some.inj (h.symm.trans hs) ▸ hmeets, fun hmeets => hmeets s' h⟩

variable {step} {guard guard' : σ → Event → Prop} {P Inv : σ → Prop} {s s' : σ} {e : Event}
  {events rest : List Event}

/-- What a run leads to that can be evaluated. -/
theorem exists_of_any {x : Option σ} {Q : σ → Prop} (P : σ → Prop) [DecidablePred P]
    (h : x.any (P ·) = true) (hQ : ∀ s, x = some s → P s → Q s) : ∃ s, x = some s ∧ Q s := by
  obtain ⟨s, hs, hP⟩ := (Option.any_eq_true ..).mp h
  exact ⟨s, hs, hQ s hs (of_decide_eq_true hP)⟩

theorem exists_pair_of_any {τ : Type*} {x : Option (σ × τ)} {Q : σ → τ → Prop} (P : σ → τ → Prop)
    [∀ s t, Decidable (P s t)] (h : x.any (fun c => P c.1 c.2) = true)
    (hQ : ∀ s t, x = some (s, t) → P s t → Q s t) : ∃ s t, x = some (s, t) ∧ Q s t := by
  obtain ⟨c, hc, hP⟩ := exists_of_any (fun c : σ × τ => P c.1 c.2) h fun _ _ hP => hP
  exact ⟨c.1, c.2, hc, hQ c.1 c.2 hc hP⟩

theorem run_cons (hrun : run step s (e :: rest) = some s') :
    ∃ s₁, step s e = some s₁ ∧ run step s₁ rest = some s' :=
  bind_eq_some_iff.mp hrun

theorem Always.head (h : Always step P s events) : P s := by
  cases events with
  | nil => exact h
  | cons e rest => exact h.1

theorem Always.imp {Q : σ → Prop} (hPQ : ∀ s, P s → Q s) (h : Always step P s events) :
    Always step Q s events := by
  induction events generalizing s with
  | nil => exact hPQ s h
  | cons e rest ih => exact ⟨hPQ s h.1, fun s' hs' => ih (h.2 s' hs')⟩

theorem meets_of_forall (h : ∀ s, ∀ e ∈ events, guard s e) : Meets step guard s events := by
  induction events generalizing s with
  | nil => trivial
  | cons e rest ih =>
    exact fun s' _ => ⟨h s e mem_cons_self,
      ih fun s' e' he' => h s' e' (mem_cons_of_mem _ he')⟩

theorem Meets.cons (hs : step s e = some s') (hguard : guard s e)
    (hrest : Meets step guard s' rest) : Meets step guard s (e :: rest) := by
  intro s₁ hs₁
  obtain rfl := some.inj (hs.symm.trans hs₁)
  exact ⟨hguard, hrest⟩

section

variable (hstep : ∀ s e s', Inv s → guard s e → step s e = some s' → Inv s')
  (hmeets : Meets step guard s events)
include hstep hmeets

/-- The invariant rule. -/
theorem Meets.always (hstart : Inv s) : Always step Inv s events := by
  induction events generalizing s with
  | nil => exact hstart
  | cons e rest ih =>
    refine ⟨hstart, fun s' hs' => ?_⟩
    obtain ⟨hguard, hrest⟩ := hmeets s' hs'
    exact ih hrest (hstep s e s' hstart hguard hs')

theorem Meets.invariant (hrun : run step s events = some s') (hstart : Inv s) : Inv s' := by
  induction events generalizing s with
  | nil => exact some.inj hrun ▸ hstart
  | cons e rest ih =>
    obtain ⟨s₁, hs₁, hrun⟩ := run_cons hrun
    obtain ⟨hguard, hrest⟩ := hmeets s₁ hs₁
    exact ih hrest hrun (hstep s e s₁ hstart hguard hs₁)

end

/-- The invariant rule for runs without a condition. -/
theorem run_invariant (hstep : ∀ s e s', Inv s → step s e = some s' → Inv s')
    (hrun : run step s events = some s') (hstart : Inv s) : Inv s' := by
  have hmeets : Meets step (fun _ _ => True) s events := meets_of_forall fun _ _ _ => trivial
  exact hmeets.invariant (fun s e s' hs _ => hstep s e s' hs) hrun hstart

/-- Two runs look the same if their steps do. -/
theorem run_map_congr {τ ε : Type*} {look : σ → τ} {kind : Event → ε}
    (hstep : ∀ s s' e e', look s' = look s → kind e' = kind e →
      (step s' e').map look = (step s e).map look)
    {events' : List Event} (hevents : events'.map kind = events.map kind) (hs : look s' = look s) :
    (run step s' events').map look = (run step s events).map look := by
  induction events generalizing s s' events' with
  | nil =>
    rw [map_eq_nil_iff.mp hevents]
    exact congrArg some hs
  | cons e rest ih =>
    obtain ⟨e', rest', rfl, he, hrest⟩ := map_eq_cons_iff.mp hevents
    have hnext := hstep s s' e e' hs he
    rw [run, run]
    cases h : step s e with
    | none =>
      rw [h] at hnext
      rw [map_eq_none_iff.mp hnext]
      rfl
    | some s₁ =>
      rw [h] at hnext
      obtain ⟨s₁', h', hlook⟩ := map_eq_some_iff.mp hnext
      rw [h']
      exact ih hrest hlook

/-- When the steps that meet `guard` keep the invariant and the others break `P`, the
condition is exact, for all runs with events of some kind. -/
theorem always_iff_meets_of {ok : Event → Prop} (hP : ∀ s, Inv s → P s)
    (hkeep : ∀ s e s', Inv s → ok e → guard s e → step s e = some s' → Inv s')
    (hbreak : ∀ s e s', Inv s → step s e = some s' → P s' → guard s e) (hstart : Inv s)
    (hok : ∀ e ∈ events, ok e) : Always step P s events ↔ Meets step guard s events := by
  induction events generalizing s with
  | nil => exact iff_of_true (hP s hstart) trivial
  | cons e rest ih =>
    obtain ⟨he, hrest⟩ := forall_mem_cons.mp hok
    refine ⟨fun h s' hs' => ?_, fun h => ⟨hP s hstart, fun s' hs' => ?_⟩⟩
    · have hguard := hbreak s e s' hstart hs' (h.2 s' hs').head
      exact ⟨hguard, (ih (hkeep s e s' hstart he hguard hs') hrest).mp (h.2 s' hs')⟩
    · obtain ⟨hguard, hnext⟩ := h s' hs'
      exact (ih (hkeep s e s' hstart he hguard hs') hrest).mpr hnext

theorem always_iff_meets (hP : ∀ s, Inv s → P s)
    (hkeep : ∀ s e s', Inv s → guard s e → step s e = some s' → Inv s')
    (hbreak : ∀ s e s', Inv s → step s e = some s' → P s' → guard s e) (hstart : Inv s) :
    Always step P s events ↔ Meets step guard s events := by
  have hkeep' : ∀ s e s', Inv s → True → guard s e → step s e = some s' → Inv s' :=
    fun s e s' hs _ => hkeep s e s' hs
  exact always_iff_meets_of hP hkeep' hbreak hstart fun _ _ => trivial

/-! ## Runs that another system simulates -/

section Simulation

variable {τ Event' : Type*} {step' : τ → Event' → Option τ} {view : σ → τ} {label : Event → Event'}
  {ok : Event → Prop}

theorem forall_step_view (hstep : (step s e).map view = step' (view s) (label e)) {Q : τ → Prop} :
    (∀ s', step s e = some s' → Q (view s')) ↔
      ∀ t, step' (view s) (label e) = some t → Q t := by
  simp [← hstep]

section

variable (hkeep : ∀ s e s', Inv s → ok e → step s e = some s' → Inv s')
  (hstep : ∀ s e, Inv s → ok e → (step s e).map view = step' (view s) (label e))
  (hstart : Inv s)
  (hok : ∀ e ∈ events, ok e)
include hkeep hstep hstart hok

theorem always_view {Q : τ → Prop} :
    Always step (fun s => Q (view s)) s events ↔ Always step' Q (view s) (events.map label) := by
  induction events generalizing s with
  | nil => exact Iff.rfl
  | cons e rest ih =>
    obtain ⟨he, hrest⟩ := forall_mem_cons.mp hok
    refine and_congr Iff.rfl (Iff.trans ?_ (forall_step_view (hstep s e hstart he)))
    exact forall₂_congr fun s' hs' => ih (hkeep s e s' hstart he hs') hrest

theorem meets_view {guard' : τ → Event' → Prop} :
    Meets step (fun s e => guard' (view s) (label e)) s events ↔
      Meets step' guard' (view s) (events.map label) := by
  induction events generalizing s with
  | nil => exact Iff.rfl
  | cons e rest ih =>
    obtain ⟨he, hrest⟩ := forall_mem_cons.mp hok
    refine Iff.trans ?_ (forall_step_view (hstep s e hstart he))
    exact forall₂_congr fun s' hs' => and_congr Iff.rfl (ih (hkeep s e s' hstart he hs') hrest)

end

end Simulation

theorem meets_and :
    Meets step (fun s e => guard s e ∧ guard' s e) s events ↔
      Meets step guard s events ∧ Meets step guard' s events := by
  induction events generalizing s with
  | nil => exact iff_of_true trivial ⟨trivial, trivial⟩
  | cons e rest ih =>
    refine ⟨fun h => ⟨fun s' hs' => ?_, fun s' hs' => ?_⟩, fun h s' hs' => ?_⟩
    · exact ⟨(h s' hs').1.1, (ih.mp (h s' hs').2).1⟩
    · exact ⟨(h s' hs').1.2, (ih.mp (h s' hs').2).2⟩
    · obtain ⟨hguard, hrest⟩ := h.1 s' hs'
      obtain ⟨hguard', hrest'⟩ := h.2 s' hs'
      exact ⟨⟨hguard, hguard'⟩, ih.mpr ⟨hrest, hrest'⟩⟩

theorem Always.meets_congr (h : Always step P s events)
    (hiff : ∀ s e, P s → (guard s e ↔ guard' s e)) :
    Meets step guard s events ↔ Meets step guard' s events := by
  induction events generalizing s with
  | nil => exact Iff.rfl
  | cons e rest ih =>
    exact forall₂_congr fun s' hs' => and_congr (hiff s e h.1) (ih (h.2 s' hs'))

/-! ## Observers -/

section Observing

variable {κ : Type*} (step) (note : κ → σ → Event → σ → κ)

/-- The system with an observer that notes each step. -/
def observing (c : σ × κ) (e : Event) : Option (σ × κ) :=
  (step c.1 e).map fun s' => (s', note c.2 c.1 e s')

/-- The system with counters that each step raises by its weight. -/
abbrev counting [Add κ] (weight : σ → Event → κ) : σ × κ → Event → Option (σ × κ) :=
  observing step fun k s e _ => k + weight s e

variable {step note} {k : κ} {c c' : σ × κ}

theorem observing_eq (hs : observing step note c e = some c') :
    step c.1 e = some c'.1 ∧ c'.2 = note c.2 c.1 e c'.1 := by
  obtain ⟨s', hs', rfl⟩ := map_eq_some_iff.mp hs
  exact ⟨hs', rfl⟩

theorem counting_eq [Add κ] {weight : σ → Event → κ} (hs : counting step weight c e = some c') :
    step c.1 e = some c'.1 ∧ c'.2 = c.2 + weight c.1 e :=
  observing_eq hs

/-- A condition on the steps does not depend on the observer. -/
theorem meets_observing :
    Meets (observing step note) (fun c e => guard c.1 e) (s, k) events ↔
      Meets step guard s events := by
  have hview : ∀ c e, (observing step note c e).map Prod.fst = step c.1 (id e) := by
    intro c e
    rw [observing, Option.map_map]
    exact Option.map_id' ..
  have hmeets := @meets_view _ _ (observing step note) (fun _ => True) (s, k) events _ _ step
    Prod.fst id (fun _ => True) (fun _ _ _ _ _ _ => trivial) (fun c e _ _ => hview c e) trivial
    (fun _ _ => trivial) guard
  rwa [List.map_id] at hmeets

end Observing

end Easyio.Runs.Partial
