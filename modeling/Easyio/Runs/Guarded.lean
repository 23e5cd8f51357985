import Easyio.Crash.Replay

/-!
# Runs under a condition

A run is a list of events that is replayed from a start state.  `Meets guard`
says that every event of the run meets a condition in the state it happens in.
An invariant that the events meeting the condition preserve holds at the end of
such a run (`Meets.invariant`).
-/

namespace Easyio.Runs

open Crash

variable {σ Event : Type*} {step : σ → Event → σ} {guard : σ → Event → Prop} {start : σ}

/-- Every event meets `guard` in the state it happens in. -/
def Meets (step : σ → Event → σ) (guard : σ → Event → Prop) : σ → List Event → Prop
  | _, [] => True
  | s, e :: rest => guard s e ∧ Meets step guard (step s e) rest

instance [∀ s e, Decidable (guard s e)] :
    (s : σ) → (events : List Event) → Decidable (Meets step guard s events)
  | _, [] => inferInstanceAs (Decidable True)
  | s, e :: rest =>
    have := instDecidableMeets (step s e) rest
    inferInstanceAs (Decidable (guard s e ∧ Meets step guard (step s e) rest))

theorem meets_append {first second : List Event} :
    Meets step guard start (first ++ second) ↔
      Meets step guard start first ∧ Meets step guard (replay step start first) second := by
  induction first generalizing start with
  | nil => exact (true_and _).to_iff.symm
  | cons e rest ih => rw [List.cons_append, Meets, Meets, ih, replay_cons, and_assoc]

/-- The invariant rule. -/
theorem Meets.invariant {Inv : σ → Prop} (hstep : ∀ s e, Inv s → guard s e → Inv (step s e))
    {events : List Event} (hmeets : Meets step guard start events) (hstart : Inv start) :
    Inv (replay step start events) := by
  induction events generalizing start with
  | nil => exact hstart
  | cons e rest ih => exact ih hmeets.2 (hstep start e hstart hmeets.1)

/-- The invariant rule for runs without a condition. -/
theorem replay_invariant {Inv : σ → Prop} (hstep : ∀ s e, Inv s → Inv (step s e))
    (hstart : Inv start) (events : List Event) : Inv (replay step start events) := by
  induction events generalizing start with
  | nil => exact hstart
  | cons e rest ih => exact ih (hstep start e hstart)

end Easyio.Runs
