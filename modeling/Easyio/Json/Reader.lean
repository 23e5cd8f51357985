import Mathlib.Algebra.Group.Nat.Defs
import Mathlib.Data.List.Basic

/-!
# Readers

A reader takes a value from the front of a text and gives back the rest, or fails.
What it has read does not change when more text follows (`Extends`), so a text that
is read up to its end is refused when it was cut off.  A number does not say where it
ends: for it a byte that was not read is asked for (`ExtendsInside`).

Readers are put together with `andThen`, and the two lemmas of that name put together
what is known about them.
-/

namespace Easyio.Json

open List

variable {α β : Type*} {a : α} {text rest : List UInt8}

/-- A reader of values of type `α`. -/
abbrev Reader (α : Type*) := List UInt8 → Option (α × List UInt8)

/-- One reader after the other. -/
def Reader.andThen (first : Reader α) (second : α → Reader β) : Reader β := fun text =>
  (first text).bind fun result => second result.1 result.2

/-- The value `a`, without reading anything. -/
def Reader.give (a : α) : Reader α := fun text => some (a, text)

/-- Exactly the bytes of `lit`. -/
def expect (lit : List UInt8) : Reader Unit := fun text =>
  if lit.isPrefixOf text then some ((), text.drop lit.length) else none

def anyByte : Reader UInt8
  | [] => none
  | b :: rest => some (b, rest)

/-- What `reader` reads, `larger` reads in front of any text. -/
def Reader.Extends (reader larger : Reader α) : Prop :=
  ∀ text a rest, reader text = some (a, rest) → ∀ more,
    larger (text ++ more) = some (a, rest ++ more)

/-- What `reader` reads and does not end the text, `larger` reads in front of any text. -/
def Reader.ExtendsInside (reader larger : Reader α) : Prop :=
  ∀ text a b rest, reader text = some (a, b :: rest) → ∀ more,
    larger (text ++ more) = some (a, b :: rest ++ more)

theorem expect_append (lit rest : List UInt8) : expect lit (lit ++ rest) = some ((), rest) := by
  rw [expect, if_pos (List.isPrefixOf_iff_prefix.mpr (prefix_append lit rest)), drop_left]

theorem extends_expect (lit : List UInt8) : (expect lit).Extends (expect lit) := by
  intro text _ rest h more
  obtain ⟨hlit, hrest⟩ := Option.ite_none_right_eq_some.mp h
  obtain ⟨after, rfl⟩ := List.isPrefixOf_iff_prefix.mp hlit
  rw [drop_left] at hrest
  cases hrest
  rw [append_assoc, expect_append]

theorem extends_anyByte : anyByte.Extends anyByte := by
  intro text b rest h more
  cases text with
  | nil => cases h
  | cons c text =>
    cases h
    rfl

theorem extends_give (a : α) : (Reader.give a).Extends (Reader.give a) := by
  rintro text _ _ ⟨⟩ more
  rfl

theorem map_extends {first larger : Reader α} {f : α → β} {b : β} {more : List UInt8}
    (h : ∀ a, first text = some (a, rest) → larger (text ++ more) = some (a, rest ++ more))
    (hread : (first text).map (fun result => (f result.1, result.2)) = some (b, rest)) :
    (larger (text ++ more)).map (fun result => (f result.1, result.2)) =
      some (b, rest ++ more) := by
  obtain ⟨⟨a, after⟩, hfirst, heq⟩ := Option.map_eq_some_iff.mp hread
  cases heq
  rw [h a hfirst]
  rfl

section

variable {first larger : Reader α} {second larger' : α → Reader β}

theorem andThen_eq (h : first text = some (a, rest)) :
    first.andThen second text = second a rest := by
  rw [Reader.andThen, h]
  rfl

theorem Reader.Extends.andThen (h : first.Extends larger)
    (h' : ∀ a, (second a).Extends (larger' a)) :
    (first.andThen second).Extends (larger.andThen larger') := by
  intro text b rest hread more
  obtain ⟨middle, hfirst, hsecond⟩ := Option.bind_eq_some_iff.mp hread
  rw [andThen_eq (h _ _ _ hfirst more)]
  exact h' _ _ _ _ hsecond more

/-- A reader that needs a byte to go on makes the text say where it ends. -/
theorem Reader.ExtendsInside.andThen (h : first.ExtendsInside larger)
    (h' : ∀ a, (second a).Extends (larger' a)) (hempty : ∀ a, second a [] = none) :
    (first.andThen second).Extends (larger.andThen larger') := by
  intro text b rest hread more
  obtain ⟨⟨a, middle⟩, hfirst, hsecond⟩ := Option.bind_eq_some_iff.mp hread
  cases middle with
  | nil => exact absurd ((hempty a).symm.trans hsecond) nofun
  | cons c middle =>
    rw [andThen_eq (h _ _ _ _ hfirst more)]
    exact h' _ _ _ _ hsecond more

end

end Easyio.Json
