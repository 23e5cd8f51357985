import Mathlib.Algebra.Group.Nat.Defs
import Mathlib.Data.List.Rotate

/-!
# Round robin

A queue of jobs, each with the time that is left to it.  In each unit of time the first
job is served; when its time is used up it goes to the end with a new quantum.  The jobs
are then served in the cyclic order of the queue, each for the time left to it in the
first round and for its quantum in every later one (`served_eq`).
-/

namespace Easyio.Lists

open Function List Nat

variable {α : Type*} (quantum : α → ℕ)

/-- One unit of time. -/
def turn : List (α × ℕ) → List (α × ℕ)
  | [] => []
  | (t, r) :: rest => if r ≤ 1 then rest ++ [(t, quantum t)] else (t, r - 1) :: rest

/-- The queue after `n` units of time. -/
def turns (n : ℕ) (queue : List (α × ℕ)) : List (α × ℕ) := (turn quantum)^[n] queue

/-- The jobs in the order in which one round serves them. -/
def slices (queue : List (α × ℕ)) : List α := queue.flatMap fun job => List.replicate job.2 job.1

/-- All jobs with their full quanta. -/
def refill (queue : List (α × ℕ)) : List (α × ℕ) := queue.map fun job => (job.1, quantum job.1)

variable {quantum} {queue todo done rest : List (α × ℕ)} {t : α} {r n m : ℕ}

theorem turns_add : turns quantum (n + m) queue = turns quantum m (turns quantum n queue) := by
  rw [turns, add_comm, iterate_add_apply, turns, turns]

theorem turns_succ : turns quantum (n + 1) queue = turns quantum n (turn quantum queue) :=
  iterate_succ_apply ..

/-- The first job is served for the time left to it and then goes to the end. -/
theorem turns_slice (hr : 0 < r) :
    (∀ i < r, turns quantum i ((t, r) :: rest) = (t, r - i) :: rest) ∧
      turns quantum r ((t, r) :: rest) = rest ++ [(t, quantum t)] := by
  have hbefore : ∀ i < r, turns quantum i ((t, r) :: rest) = (t, r - i) :: rest := by
    intro i hi
    induction i with
    | zero => rfl
    | succ i ih =>
      rw [turns_add, ih (by omega), turns, iterate_one, turn, if_neg (by omega)]
      rfl
  refine ⟨hbefore, ?_⟩
  obtain ⟨k, rfl⟩ : ∃ k, r = k + 1 := ⟨r - 1, by omega⟩
  rw [turns_add, hbefore k (by omega), turns, iterate_one, turn, if_pos (by omega)]

/-- The jobs of `todo` are served one after the other and go to the end. -/
theorem turns_round (htodo : ∀ job ∈ todo, 0 < job.2) :
    (∀ i < (slices todo).length, ((turns quantum i (todo ++ done)).head?.map Prod.fst) =
        (slices todo)[i]?) ∧
      turns quantum (slices todo).length (todo ++ done) = done ++ refill quantum todo := by
  induction todo generalizing done with
  | nil => exact ⟨fun i hi => absurd hi (not_lt_zero i), (append_nil done).symm⟩
  | cons job todo ih =>
    obtain ⟨t, r⟩ := job
    have hr : 0 < r := htodo (t, r) mem_cons_self
    obtain ⟨hslice, hend⟩ := @turns_slice α quantum (todo ++ done) t r hr
    obtain ⟨hserved, hround⟩ := @ih (done ++ [(t, quantum t)])
      fun job hjob => htodo job (mem_cons_of_mem _ hjob)
    have hsplit : slices ((t, r) :: todo) = replicate r t ++ slices todo := rfl
    have hlength : (slices ((t, r) :: todo)).length = r + (slices todo).length := by
      rw [hsplit, length_append, length_replicate]
    refine ⟨fun i hi => ?_, ?_⟩
    · rw [cons_append, hsplit]
      by_cases hir : i < r
      · rw [hslice i hir, getElem?_append_left (by simpa using hir)]
        simp [hir]
      · obtain ⟨k, rfl⟩ : ∃ k, i = r + k := ⟨i - r, by omega⟩
        rw [turns_add, hend, append_assoc, hserved k (by omega),
          getElem?_append_right (by simp), length_replicate, Nat.add_sub_cancel_left]
    · rw [hlength, cons_append, turns_add, hend, append_assoc, hround, append_assoc]
      rfl

theorem refill_refill : refill quantum (refill quantum queue) = refill quantum queue := by
  simp [refill]

theorem pos_of_mem_refill (hquantum : ∀ job ∈ queue, 0 < quantum job.1) {job : α × ℕ}
    (hjob : job ∈ refill quantum queue) : 0 < job.2 := by
  obtain ⟨old, hold, rfl⟩ := mem_map.mp hjob
  exact hquantum old hold

theorem turns_period (hquantum : ∀ job ∈ queue, 0 < quantum job.1) (rounds i : ℕ) :
    turns quantum (rounds * (slices (refill quantum queue)).length + i) (refill quantum queue) =
      turns quantum i (refill quantum queue) := by
  have hround := (@turns_round α quantum (refill quantum queue) []
    fun job => pos_of_mem_refill hquantum).2
  rw [append_nil, nil_append, refill_refill] at hround
  induction rounds with
  | zero => rw [Nat.zero_mul, Nat.zero_add]
  | succ rounds ih => rw [Nat.succ_mul, Nat.add_right_comm, Nat.add_comm, turns_add, hround, ih]

/-- The job that is served after `n` units of time. -/
theorem served_eq (hleft : ∀ job ∈ queue, 0 < job.2) (hquantum : ∀ job ∈ queue, 0 < quantum job.1)
    (n : ℕ) : (turns quantum n queue).head?.map Prod.fst =
      if n < (slices queue).length then (slices queue)[n]?
      else (slices (refill quantum queue))[(n - (slices queue).length) %
        (slices (refill quantum queue)).length]? := by
  obtain ⟨hfirst, hend⟩ := @turns_round α quantum queue [] hleft
  rw [append_nil] at hend
  split
  · rename_i hlt
    have := hfirst n hlt
    rwa [append_nil] at this
  · set full := refill quantum queue
    set k := n - (slices queue).length
    have hpositive : ∀ job ∈ full, 0 < job.2 := fun job => pos_of_mem_refill hquantum
    rw [show n = (slices queue).length + k by omega, turns_add, hend, nil_append]
    rcases Nat.eq_zero_or_pos (slices full).length with hzero | hpos
    · -- no job at all
      have hnil : full = [] := by
        by_contra hne
        obtain ⟨job, rest, hcons⟩ := exists_cons_of_ne_nil hne
        have hjob := hpositive job (hcons ▸ mem_cons_self ..)
        rw [hcons, slices, flatMap_cons, length_append, length_replicate] at hzero
        omega
      have hstay : ∀ m, turns quantum m ([] : List (α × ℕ)) = [] := by
        intro m
        induction m with
        | zero => rfl
        | succ m ih => rw [turns_succ]; exact ih
      rw [hnil, hstay]
      rfl
    · have hlt : k % (slices full).length < (slices full).length := mod_lt _ hpos
      have hround := (@turns_round α quantum full [] hpositive).1 _ hlt
      rw [append_nil] at hround
      rw [← hround, ← turns_period hquantum (k / (slices full).length) (k % (slices full).length),
        mul_comm, div_add_mod]

theorem turns_rotate (n : ℕ) :
    ∃ k, (turns quantum n queue).map Prod.fst = (queue.map Prod.fst).rotate k := by
  induction n generalizing queue with
  | zero => exact ⟨0, (rotate_zero _).symm⟩
  | succ n ih =>
    obtain ⟨k, hk⟩ := @ih (turn quantum queue)
    rw [turns_succ, hk]
    match queue with
    | [] => exact ⟨k, rfl⟩
    | (t, r) :: rest =>
      rw [turn]
      split
      · refine ⟨k + 1, ?_⟩
        rw [map_cons, rotate_cons_succ, map_append]
        rfl
      · exact ⟨k, rfl⟩

end Easyio.Lists
