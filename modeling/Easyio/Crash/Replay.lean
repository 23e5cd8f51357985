import Mathlib.Algebra.Group.Nat.Defs
import Mathlib.Data.List.Basic
import Mathlib.Data.Nat.Basic
import Mathlib.Order.Basic

/-!
# Operation logs and crashes

A program that changes persistent storage is seen here through the list of
storage operations it issues.  `replay` gives the storage after such a list.
A crash stops the program between two operations or in the middle of one; what
an operation interrupted in the middle may leave is given by the relation `torn`.

`CrashSafe Inv start ops` says that `Inv` holds after a crash anywhere in `ops`,
before the first operation and after the last included.  The rules are those of
a small crash logic: a list is crash safe when its parts are
(`crashSafe_append`), and a part whose operations each preserve `Inv` is crash
safe as soon as `Inv` holds at its start (`crashSafe_of_step`).  A device that is
started again and again, each time from the storage the last crash left, only
reaches states of an invariant that every run is crash safe for
(`Reach.invariant`).
-/

namespace Easyio.Crash

open List

variable {σ Op : Type*} (sem : σ → Op → σ) (torn : σ → Op → σ → Prop)

/-- Storage after the operations of `ops`, oldest first. -/
def replay (start : σ) (ops : List Op) : σ := ops.foldl sem start

/-- The storage a crash somewhere in `ops` can leave. -/
inductive AfterCrash (start : σ) (ops : List Op) : σ → Prop
  | between (done : List Op) : done <+: ops → AfterCrash start ops (replay sem start done)
  | inside (done : List Op) (op : Op) (s : σ) : done ++ [op] <+: ops →
      torn (replay sem start done) op s → AfterCrash start ops s

/-- `Inv` holds wherever `ops` is stopped. -/
def CrashSafe (Inv : σ → Prop) (start : σ) (ops : List Op) : Prop :=
  ∀ s, AfterCrash sem torn start ops s → Inv s

/-- The storage a device can be in that was started from `init` and crashed any
number of times, where `runs s ops` says that a start from `s` may issue `ops`. -/
inductive Reach (runs : σ → List Op → Prop) (init : σ) : σ → Prop
  | init : Reach runs init init
  | crash {s s' : σ} {ops : List Op} : Reach runs init s → runs s ops →
      AfterCrash sem torn s ops s' → Reach runs init s'

variable {sem torn} {ops rest : List Op} {op : Op} {start s : σ}

@[simp] theorem replay_nil (start : σ) : replay sem start [] = start := rfl

@[simp] theorem replay_cons (start : σ) (op : Op) (rest : List Op) :
    replay sem start (op :: rest) = replay sem (sem start op) rest := rfl

theorem replay_append (start : σ) (first second : List Op) :
    replay sem start (first ++ second) = replay sem (replay sem start first) second :=
  foldl_append

/-- A view of the storage that no operation of `ops` changes is the same after
`ops`. -/
theorem replay_frame {β : Type*} (view : σ → β)
    (hframe : ∀ op ∈ ops, ∀ s, view (sem s op) = view s) :
    view (replay sem start ops) = view start := by
  induction ops generalizing start with
  | nil => rfl
  | cons op rest ih =>
    rw [replay_cons, ih fun other hother => hframe other (mem_cons_of_mem _ hother)]
    exact hframe op mem_cons_self start

/-! ## Rules for crash safety -/

theorem afterCrash_nil : AfterCrash sem torn start [] s ↔ s = start := by
  constructor
  · rintro (⟨done, hdone⟩ | ⟨done, op, s, hdone, -⟩)
    · rw [prefix_nil.mp hdone, replay_nil]
    · simp at hdone
  · rintro rfl
    exact .between [] (prefix_refl [])

theorem afterCrash_cons : AfterCrash sem torn start (op :: rest) s ↔
      s = start ∨ torn start op s ∨ AfterCrash sem torn (sem start op) rest s := by
  constructor
  · rintro (⟨done, hdone⟩ | ⟨done, last, s, hdone, htorn⟩)
    · rcases prefix_cons_iff.mp hdone with rfl | ⟨tail, rfl, htail⟩
      · exact Or.inl rfl
      · exact Or.inr (Or.inr (.between tail htail))
    · cases done with
      | nil =>
        obtain rfl : last = op := by simpa using hdone
        exact Or.inr (Or.inl htorn)
      | cons first tail =>
        rw [cons_append, cons_prefix_cons] at hdone
        obtain ⟨rfl, htail⟩ := hdone
        exact Or.inr (Or.inr (.inside tail last s htail htorn))
  · rintro (rfl | htorn | hrest)
    · exact .between [] nil_prefix
    · exact .inside [] op s (by simp) htorn
    · rcases hrest with ⟨done, hdone⟩ | ⟨done, last, s, hdone, htorn⟩
      · exact .between (op :: done) (cons_prefix_cons.mpr ⟨rfl, hdone⟩)
      · exact .inside (op :: done) last s (cons_prefix_cons.mpr ⟨rfl, hdone⟩) htorn

variable {Inv : σ → Prop}

theorem crashSafe_nil : CrashSafe sem torn Inv start [] ↔ Inv start := by
  simp [CrashSafe, afterCrash_nil]

theorem crashSafe_cons :
    CrashSafe sem torn Inv start (op :: rest) ↔
      Inv start ∧ (∀ s, torn start op s → Inv s) ∧
        CrashSafe sem torn Inv (sem start op) rest := by
  simp only [CrashSafe, afterCrash_cons, or_imp, forall_and, forall_eq]

theorem CrashSafe.initial (h : CrashSafe sem torn Inv start ops) : Inv start :=
  h start (.between [] nil_prefix)

theorem CrashSafe.final (h : CrashSafe sem torn Inv start ops) : Inv (replay sem start ops) :=
  h _ (.between ops (prefix_refl ops))

theorem CrashSafe.mono {Weak : σ → Prop} (h : CrashSafe sem torn Inv start ops)
    (himp : ∀ s, Inv s → Weak s) : CrashSafe sem torn Weak start ops :=
  fun s hs => himp s (h s hs)

theorem crashSafe_append {first second : List Op} :
    CrashSafe sem torn Inv start (first ++ second) ↔
      CrashSafe sem torn Inv start first ∧
        CrashSafe sem torn Inv (replay sem start first) second := by
  induction first generalizing start with
  | nil => exact ⟨fun h => ⟨crashSafe_nil.mpr h.initial, h⟩, fun h => h.2⟩
  | cons op rest ih => rw [cons_append, crashSafe_cons, crashSafe_cons, ih, replay_cons,
      and_assoc, and_assoc]

/-- Operations that each preserve `Inv`, torn or not, are crash safe for it. -/
theorem crashSafe_of_step (hstart : Inv start)
    (hstep : ∀ op ∈ ops, ∀ s, Inv s → Inv (sem s op))
    (htorn : ∀ op ∈ ops, ∀ s s', Inv s → torn s op s' → Inv s') :
    CrashSafe sem torn Inv start ops := by
  induction ops generalizing start with
  | nil => exact crashSafe_nil.mpr hstart
  | cons op rest ih =>
    have hmem : op ∈ op :: rest := mem_cons_self ..
    refine crashSafe_cons.mpr ⟨hstart, fun s => htorn op hmem start s hstart,
      ih (hstep op hmem start hstart) ?_ ?_⟩
    · exact fun other hother => hstep other (mem_cons_of_mem _ hother)
    · exact fun other hother => htorn other (mem_cons_of_mem _ hother)

/-- An invariant that every run from it is crash safe for is never left. -/
theorem Reach.invariant {runs : σ → List Op → Prop} {init : σ}
    (hreach : Reach sem torn runs init s) (hinit : Inv init)
    (hrun : ∀ s ops, Inv s → runs s ops → CrashSafe sem torn Inv s ops) : Inv s := by
  induction hreach with
  | init => exact hinit
  | crash _ hops hcrash ih => exact hrun _ _ ih hops _ hcrash

end Easyio.Crash
