import Easyio.Kernel.Timer
import Easyio.Lists.Queue

/-!
# The timer list

Every row of the skip list is a queue ordered by the time at which a timer is due,
timers of the same time in the order of their starts, and row `i` is a sublist of
row `i + 1`.

The tick counter wraps, so a timeout alone does not say when a timer is due.  The
invariant (`Listed`) therefore speaks of an unbounded clock `now` and unbounded due
times, of which the code keeps the residues modulo 2^32.  As long as a check runs
after every tick, all due times lie between `now - 1` and `now + 0x7FFFFFFE`, and in
such a window the comparisons of the residues decide like comparisons of the due
times (`sub32_eq_zero_iff`, `sub32_lt_half_iff`).
-/

namespace Easyio.Kernel

open Function List Easyio.Lists Option Timers

/-! ## Comparing ticks -/

variable {x d : ℕ}

theorem sub32_eq_zero_iff (hx : x ≤ d + 0x7FFFFFFE) (hd : d ≤ x + 0x7FFFFFFF) :
    sub32 (x % 2 ^ 32) (d % 2 ^ 32) = 0 ↔ x = d := by
  unfold sub32
  omega

theorem sub32_lt_half_iff (hx : x ≤ d + 0x7FFFFFFE) (hd : d ≤ x + 0x7FFFFFFF) :
    sub32 (x % 2 ^ 32) (d % 2 ^ 32) < rtTickMaxHalf ↔ d ≤ x := by
  unfold sub32 rtTickMaxHalf
  omega

/-! ## One row

The node behind which the search stops is the last one of an initial part of the row,
or the head if that part is empty: in both cases `getLast?` of the part. -/

section Row

variable {l : Links (Option ℕ)} {xs pre post : List ℕ} {p t u : ℕ}

theorem row_next (h : Ring l none ((pre ++ p :: post).map some)) :
    l.next pre.getLast? = some p := by
  rw [map_append, map_cons] at h
  rcases eq_nil_or_concat pre with rfl | ⟨front, a, rfl⟩
  · exact h.chain.1
  · rw [concat_eq_append, map_append, append_assoc] at h
    rw [concat_eq_append, getLast?_concat]
    exact (chain_append.mp h.chain).2.1

theorem row_prev (h : Ring l none (xs.map some)) : l.prev none = xs.getLast? := by
  rcases eq_nil_or_concat xs with rfl | ⟨front, a, rfl⟩
  · exact h.chain.2
  · rw [concat_eq_append, map_append] at h
    rw [concat_eq_append, getLast?_concat]
    exact (chain_append.mp h.chain).2.2

theorem row_nodup (h : Ring l none (xs.map some)) : xs.Nodup := (nodup_cons.mp h.nodup).2.of_map

theorem row_insert (h : Ring l none ((pre ++ post).map some)) (ht : t ∉ pre ++ post) :
    Ring (l.insertAfter pre.getLast? (some t)) none ((pre ++ t :: post).map some) := by
  have hfresh : some t ∉ none :: (pre ++ post).map some := by simpa using ht
  rcases eq_nil_or_concat pre with rfl | ⟨front, a, rfl⟩
  · exact h.insertAfter_head hfresh
  · simp only [concat_eq_append, append_assoc, map_append, map_cons,
      getLast?_append, getLast?_singleton, cons_append, nil_append,
      some_or] at h hfresh ⊢
    exact h.insertAfter hfresh

theorem row_remove (h : Ring l none (xs.map some)) (ht : t ∈ xs) :
    Ring (l.remove (some t)) none ((xs.erase t).map some) := by
  obtain ⟨pre, post, rfl⟩ := append_of_mem ht
  have hnodup := row_nodup h
  have hpre : t ∉ pre := fun hmem =>
    (nodup_append.mp hnodup).2.2 t hmem t mem_cons_self rfl
  rw [erase_append_right _ hpre, erase_cons_head, map_append]
  rw [map_append, map_cons] at h
  exact h.remove

section

variable (l : Links (Option ℕ)) (t : ℕ)

/-- The node of `t` is in no list. -/
def Solo : Prop :=
  l.next (some t) = some t ∧ l.prev (some t) = some t

theorem solo_init : Solo (l.init (some t)) t := by
  simp [Solo, Links.init, Links.setNext, Links.setPrev]

theorem solo_remove : Solo (l.remove (some t)) t := by
  simp [Solo, Links.remove, Links.setNext, Links.setPrev]

end

theorem Solo.init (h : Solo l u) (t : ℕ) : Solo (l.init (some t)) u := by
  by_cases hut : u = t
  · exact hut ▸ solo_init l u
  · simpa [Solo, Links.init, Links.setNext, Links.setPrev, hut] using h

theorem Solo.remove (h : Solo l u) (t : ℕ) (hring : Ring l none (xs.map some) ∧ u ∉ xs)
    (ht : t ∈ xs ∨ Solo l t) : Solo (l.remove (some t)) u := by
  by_cases hut : u = t
  · exact hut ▸ solo_remove l u
  rcases ht with ht | ht
  · -- the neighbours of `t` are in its row
    have hmem : some t ∈ none :: xs.map some := by simpa using ht
    have hu : some u ∉ none :: xs.map some := by simpa using hring.2
    have hnext : some u ≠ l.next (some t) := fun he => hu (he ▸ hring.1.next_mem hmem)
    have hprev : some u ≠ l.prev (some t) := fun he => hu (he ▸ hring.1.prev_mem hmem)
    have hself : l.next (some t) ≠ some t := hring.1.next_ne_self (by simpa using ht)
    refine ⟨?_, ?_⟩
    · rw [Links.next_remove _ _ _ hself, if_neg (by simpa using hut), if_neg hprev, h.1]
    · rw [Links.prev_remove, if_neg (by simpa using hut), if_neg hnext, h.2]
  · rwa [Links.remove_of_next_eq _ ht.1 ht.2]

theorem Solo.insertAfter (h : Solo l u) {c : Option ℕ} (hring : Ring l none (xs.map some))
    (hu : u ∉ xs) (hc : c ∈ none :: xs.map some) (hut : u ≠ t) :
    Solo (l.insertAfter c (some t)) u := by
  have hmem : some u ∉ none :: xs.map some := by simpa using hu
  have huc : some u ≠ c := fun he => hmem (he ▸ hc)
  have hnext : some u ≠ l.next c := fun he => hmem (he ▸ hring.next_mem hc)
  have hut : some u ≠ some t := by simpa using hut
  refine ⟨?_, ?_⟩
  · rw [Links.next_insertAfter, if_neg huc, if_neg hut, h.1]
  · rw [Links.prev_insertAfter, if_neg hut, if_neg hnext, h.2]

end Row

namespace Timers

/-! ## What the operations do to the rows -/

/-- The same change of the rows `0`, …, `levels - 1`. -/
theorem foldl_onRow (f : Links (Option ℕ) → Links (Option ℕ)) (levels : ℕ) (s : Timers) :
    (range levels).foldl (fun s i => s.onRow i f) s =
      { s with row := fun i => if i < levels then f (s.row i) else s.row i } := by
  induction levels with
  | zero => rfl
  | succ levels ih =>
    rw [range_succ, foldl_append, ih]
    simp only [foldl_cons, foldl_nil, onRow, mk.injEq, and_true, true_and]
    funext i
    by_cases hi : i = levels
    · subst hi
      simp
    · rw [update_of_ne hi]
      have : i < levels + 1 ↔ i < levels := by omega
      simp only [this]

theorem rtTimerRemove_eq (levels : ℕ) (s : Timers) (t : ℕ) :
    s.rtTimerRemove levels t =
      { s with row := fun i => if i < levels then (s.row i).remove (some t) else s.row i } :=
  foldl_onRow _ levels s

/-- The rows into which a timer is promoted are those from some row `k` on. -/
theorem promote_eq (t count tstNr : ℕ) : ∃ k ≤ count, ∀ (rowHead : List (Option ℕ)) (s : Timers),
    promote rowHead t count tstNr s =
      { s with row := fun i => if k ≤ i ∧ i < count then
          (s.row i).insertAfter (rowHead.getD i none) (some t) else s.row i } := by
  induction count generalizing tstNr with
  | zero => exact ⟨0, le_refl 0, by simp [promote]⟩
  | succ count ih =>
    by_cases htst : tstNr % 4 = 0
    · obtain ⟨k, hk, heq⟩ := ih (tstNr / 4)
      refine ⟨k, by omega, fun rowHead s => ?_⟩
      rw [promote, if_pos htst, heq]
      simp only [link, onRow, mk.injEq, and_true, true_and]
      funext i
      by_cases hi : i = count
      · subst hi
        simp [hk]
      · have : k ≤ i ∧ i < count + 1 ↔ k ≤ i ∧ i < count := by omega
        simp only [update_of_ne hi, this]
    · refine ⟨count + 1, le_refl _, fun rowHead s => ?_⟩
      have : ∀ i, ¬ (count + 1 ≤ i ∧ i < count + 1) := by omega
      simp only [promote, if_neg htst, if_neg (this _)]

/-- The timer `t` started and linked into the rows from `k` on, behind the nodes `rowHead`. -/
def entered (levels k t : ℕ) (s : Timers) (rowHead : List (Option ℕ)) : Timers :=
  { s with
    row := fun i => if k ≤ i ∧ i < levels then
      (s.row i).insertAfter (rowHead.getD i none) (some t) else s.row i
    timer := update s.timer t { s.timer t with
      timeoutTick := (s.tick + (s.timer t).initTick) % 2 ^ 32
      activated := true
      startNr := s.starts }
    randomNr := (s.randomNr + 1) % 2 ^ 32
    starts := s.starts + 1 }

/-- What a start does.  The number of rows only depends on `random_nr`. -/
theorem rtTimerStart_eq {levels : ℕ} (hlevels : 0 < levels) (t randomNr : ℕ) :
    ∃ k < levels, ∀ s : Timers, s.randomNr = randomNr → (s.timer t).activated = false →
      (s.timer t).initTick < rtTickMaxHalf → s.rtTimerStart levels t =
        ((s.modify t ({ · with
            timeoutTick := (s.tick + (s.timer t).initTick) % 2 ^ 32 })).rowHeads
          ((s.tick + (s.timer t).initTick) % 2 ^ 32) levels 0 none).map (s.entered levels k t) := by
  obtain ⟨k, hk, heq⟩ := promote_eq t (levels - 1) ((randomNr + 1) % 2 ^ 32)
  refine ⟨k, by omega, fun s hrandom hidle hinit => ?_⟩
  unfold rtTimerStart
  rw [if_neg (by simp [hidle]), if_neg (by omega), map_eq_bind]
  refine congrArg (bind _) (funext fun rowHead => ?_)
  simp only [modify, hrandom, heq, link, onRow, entered, comp_apply, some.injEq,
    mk.injEq, and_true, true_and]
  refine ⟨?_, ?_⟩
  · funext i
    by_cases hi : i = levels - 1
    · subst hi
      have hlast : k ≤ levels - 1 ∧ levels - 1 < levels := by omega
      simp [hlast]
    · have : k ≤ i ∧ i < levels ↔ k ≤ i ∧ i < levels - 1 := by omega
      simp only [update_of_ne hi, this]
  · simp

/-! ## The search -/

variable {s : Timers}

/-- The search goes on behind the timer `a`: it is not due later than `timeout`. -/
def Passes (s : Timers) (timeout a : ℕ) : Prop :=
  sub32 (s.timer a).timeoutTick timeout = 0 ∨
    rtTickMaxHalf ≤ sub32 (s.timer a).timeoutTick timeout

/-- From the end of `pre` the search passes `mid` and stops before `post`. -/
theorem search_eq {i timeout : ℕ} {pre mid post : List ℕ}
    (hring : Ring (s.row i) none ((pre ++ mid ++ post).map some))
    (hmid : ∀ a ∈ mid, s.Passes timeout a) (hpost : ∀ a ∈ post.head?, ¬ s.Passes timeout a)
    {fuel : ℕ} (hfuel : mid.length < fuel) :
    s.search i timeout fuel pre.getLast? = some (pre ++ mid).getLast? := by
  induction mid generalizing pre fuel with
  | nil =>
    obtain ⟨fuel, rfl⟩ : ∃ n, fuel = n + 1 := ⟨fuel - 1, by simp at hfuel; omega⟩
    rw [append_nil] at hring ⊢
    rw [search, row_prev hring]
    cases post with
    | nil => rw [append_nil, if_pos rfl]
    | cons a post =>
      split
      · rfl
      · have hstop : ¬ s.Passes timeout a := hpost a (by simp)
        rw [Passes, not_or, not_le] at hstop
        rw [row_next hring]
        simp only [hstop.1, hstop.2, if_true, if_false]
  | cons a mid ih =>
    obtain ⟨fuel, rfl⟩ : ∃ n, fuel = n + 1 := ⟨fuel - 1, by simp at hfuel; omega⟩
    rw [append_assoc, cons_append] at hring
    have hnotLast : pre.getLast? ≠ (s.row i).prev none := by
      rw [row_prev hring]
      intro he
      have hnodup := row_nodup hring
      have hlast : (a :: (mid ++ post)).getLast? = pre.getLast? := by
        rw [he, getLast?_append, getLast?_cons]
        rfl
      rw [getLast?_cons] at hlast
      have hmem := mem_of_getLast? hlast.symm
      refine (nodup_append.mp hnodup).2.2 _ hmem _ (mem_of_getLast? ?_) rfl
      rw [getLast?_cons]
    have hrest : s.search i timeout fuel (some a) = some (pre ++ a :: mid).getLast? := by
      have hmoved : Ring (s.row i) none ((pre ++ [a] ++ mid ++ post).map some) := by
        simpa only [append_assoc, cons_append, nil_append] using hring
      have hless : mid.length < fuel := by simpa using hfuel
      have := ih hmoved (fun b hb => hmid b (mem_cons_of_mem _ hb)) hless
      simpa only [getLast?_concat, append_assoc, cons_append, nil_append] using this
    rw [search, if_neg hnotLast, row_next hring]
    rcases hmid a mem_cons_self with hzero | hhalf
    · simp only [hzero, if_true, hrest]
    · simp only [not_lt.mpr hhalf, if_false, hrest, ite_self]

section RowHeads

variable {levels timeout d : ℕ} {s : Timers} {rows : ℕ → List ℕ} {deadline : ℕ → ℕ}

/-- The search finds, in every row, the last timer that is not due later. -/
theorem rowHeads_eq (hring : ∀ i < levels, Ring (s.row i) none ((rows i).map some))
    (hsub : ∀ i, i + 1 < levels → (rows i).Sublist (rows (i + 1)))
    (hsorted : ∀ i < levels, (rows i).Pairwise (deadline · ≤ deadline ·))
    (hpasses : ∀ i < levels, ∀ a ∈ rows i, s.Passes timeout a ↔ deadline a ≤ d)
    (hlength : ∀ i < levels, (rows i).length ≤ s.starts) (count i : ℕ) (pre mid : List ℕ)
    (hcount : i + count = levels) (hstart : 0 < count → notLater deadline d (rows i) = pre ++ mid) :
    s.rowHeads timeout count i pre.getLast? =
      some ((range' i count).map fun j => (notLater deadline d (rows j)).getLast?) := by
  induction count generalizing i pre mid with
  | zero => rfl
  | succ count ih =>
    have hi : i < levels := by omega
    have hlow := hstart (by omega)
    have hsplit := notLater_append_later (d := d) (hsorted i hi)
    have hmem : ∀ a ∈ mid, a ∈ rows i ∧ deadline a ≤ d := fun a ha =>
      mem_notLater.mp (hlow ▸ mem_append_right pre ha)
    have hfuel : mid.length < s.starts + 1 := by
      have h₁ := hlength i hi
      have h₂ := congrArg length hsplit
      rw [hlow, length_append, length_append] at h₂
      omega
    have hfound : s.search i timeout (s.starts + 1) pre.getLast? = some (pre ++ mid).getLast? := by
      have hrow : Ring (s.row i) none ((pre ++ mid ++ later deadline d (rows i)).map some) := by
        rw [← hlow, hsplit]
        exact hring i hi
      refine search_eq hrow ?_ ?_ hfuel
      · exact fun a ha => (hpasses i hi a (hmem a ha).1).mpr (hmem a ha).2
      · intro a ha
        obtain ⟨hrow, hlt⟩ := mem_later.mp (mem_of_mem_head? ha)
        rw [hpasses i hi a hrow]
        omega
    have hnext : s.rowHeads timeout count (i + 1) (pre ++ mid).getLast? =
        some ((range' (i + 1) count).map fun j =>
          (notLater deadline d (rows j)).getLast?) := by
      rw [← hlow]
      rcases eq_nil_or_concat (notLater deadline d (rows i)) with hnil | ⟨front, a, hconcat⟩
      · rw [hnil]
        exact ih (i + 1) [] _ (by omega) fun _ => rfl
      · -- the last timer found in this row is also in the next one
        rw [hconcat, concat_eq_append, getLast?_concat]
        by_cases hpos : 0 < count
        · have ha : a ∈ notLater deadline d (rows (i + 1)) := by
            have hrow : a ∈ notLater deadline d (rows i) := by simp [hconcat]
            obtain ⟨hrow, hle⟩ := mem_notLater.mp hrow
            exact mem_notLater.mpr ⟨(hsub i (by omega)).subset hrow, hle⟩
          obtain ⟨before, after, hsplit⟩ := append_of_mem ha
          have := ih (i + 1) (before ++ [a]) after (by omega) fun _ => by simp [hsplit]
          rwa [getLast?_concat] at this
        · obtain rfl : count = 0 := by omega
          rfl
    rw [rowHeads, hfound]
    simp only [bind, Option.bind]
    rw [hnext, ← hlow]
    rfl

end RowHeads

/-! ## The invariant -/

/-- `a` stands before `b`: it is due earlier, or at the same time and was started
earlier. -/
def Before (s : Timers) (deadline : ℕ → ℕ) (a b : ℕ) : Prop :=
  deadline a < deadline b ∨
    deadline a = deadline b ∧ (s.timer a).startNr < (s.timer b).startNr

/-- The rows of the list hold the timers of `rows`, and at the time `now` the timer
`t` is due at `deadline t`. -/
structure Listed (levels : ℕ) (s : Timers) (rows : ℕ → List ℕ) (now : ℕ) (deadline : ℕ → ℕ) :
    Prop where
  ring : ∀ i < levels, Ring (s.row i) none ((rows i).map some)
  solo : ∀ t, (s.timer t).created = true → ∀ i < levels, t ∉ rows i → Solo (s.row i) t
  sub : ∀ i, i + 1 < levels → (rows i).Sublist (rows (i + 1))
  active : ∀ t, t ∈ rows (levels - 1) ↔
    (s.timer t).created = true ∧ (s.timer t).activated = true
  ordered : (rows (levels - 1)).Pairwise (s.Before deadline)
  startNr : ∀ t ∈ rows (levels - 1), (s.timer t).startNr < s.starts
  length : (rows (levels - 1)).length ≤ s.starts
  tick : s.tick = now % 2 ^ 32
  timeout : ∀ t ∈ rows (levels - 1), (s.timer t).timeoutTick = deadline t % 2 ^ 32
  window : ∀ t ∈ rows (levels - 1), now ≤ deadline t + 1 ∧ deadline t ≤ now + 0x7FFFFFFE
  notBefore : s.checked = true → ∀ t ∈ rows (levels - 1), now ≤ deadline t

namespace Listed

variable {levels now i t time : ℕ} {s s' : Timers} {rows : ℕ → List ℕ} {deadline : ℕ → ℕ}

section

variable (h : Listed levels s rows now deadline)
include h

theorem sub_last (hi : i < levels) : (rows i).Sublist (rows (levels - 1)) := by
  obtain ⟨n, hn⟩ : ∃ n, levels = i + n + 1 := ⟨levels - i - 1, by omega⟩
  induction n generalizing i with
  | zero =>
    rw [show levels - 1 = i by omega]
  | succ n ih => exact (h.sub i (by omega)).trans (ih (by omega) (by omega))

theorem sorted (hi : i < levels) : (rows i).Pairwise (deadline · ≤ deadline ·) := by
  refine (h.ordered.imp fun hbefore => ?_).sublist (h.sub_last hi)
  rcases hbefore with hlt | ⟨heq, -⟩
  · exact hlt.le
  · exact heq.le

theorem passes_iff (ht : t ∈ rows (levels - 1)) (htime : time < rtTickMaxHalf) :
    s.Passes ((s.tick + time) % 2 ^ 32) t ↔ deadline t ≤ now + time := by
  obtain ⟨hlow, hhigh⟩ := h.window t ht
  have hsum : (s.tick + time) % 2 ^ 32 = (now + time) % 2 ^ 32 := by
    rw [h.tick, Nat.mod_add_mod]
  unfold rtTickMaxHalf at htime
  rw [Passes, h.timeout t ht, hsum, ← not_lt, sub32_eq_zero_iff (by omega) (by omega),
    sub32_lt_half_iff (by omega) (by omega)]
  omega

/-! ## The operations keep the invariant -/

theorem shrink {rows' : ℕ → List ℕ} (hlast : (rows' (levels - 1)).Sublist (rows (levels - 1)))
    (hsame : ∀ u ∈ rows' (levels - 1), (s'.timer u).timeoutTick = (s.timer u).timeoutTick ∧
      (s'.timer u).startNr = (s.timer u).startNr)
    (hfields : s'.starts = s.starts ∧ s'.tick = s.tick ∧ s'.checked = s.checked)
    (hring : ∀ i < levels, Ring (s'.row i) none ((rows' i).map some))
    (hsolo : ∀ t, (s'.timer t).created = true → ∀ i < levels, t ∉ rows' i → Solo (s'.row i) t)
    (hsub : ∀ i, i + 1 < levels → (rows' i).Sublist (rows' (i + 1)))
    (hactive : ∀ t, t ∈ rows' (levels - 1) ↔
      (s'.timer t).created = true ∧ (s'.timer t).activated = true) :
    Listed levels s' rows' now deadline where
  ring := hring
  solo := hsolo
  sub := hsub
  active := hactive
  ordered := by
    refine (h.ordered.sublist hlast).imp_of_mem fun {a b} ha hb hbefore => ?_
    rwa [Before, (hsame a ha).2, (hsame b hb).2]
  startNr u hu := by
    rw [(hsame u hu).2, hfields.1]
    exact h.startNr u (hlast.subset hu)
  length := hfields.1 ▸ hlast.length_le.trans h.length
  tick := hfields.2.1.trans h.tick
  timeout u hu := (hsame u hu).1.trans (h.timeout u (hlast.subset hu))
  window u hu := h.window u (hlast.subset hu)
  notBefore hchecked u hu := h.notBefore (hfields.2.2 ▸ hchecked) u (hlast.subset hu)

theorem modify (t : ℕ) {f : Timer → Timer}
    (hf : ∀ timer, (f timer).created = timer.created ∧ (f timer).activated = timer.activated ∧
      (f timer).timeoutTick = timer.timeoutTick ∧ (f timer).startNr = timer.startNr) :
    Listed levels (s.modify t f) rows now deadline := by
  have hsame : ∀ u, ((s.modify t f).timer u).created = (s.timer u).created ∧
      ((s.modify t f).timer u).activated = (s.timer u).activated ∧
      ((s.modify t f).timer u).timeoutTick = (s.timer u).timeoutTick ∧
      ((s.modify t f).timer u).startNr = (s.timer u).startNr := by
    intro u
    unfold Timers.modify
    by_cases hu : u = t
    · subst hu
      simpa using hf (s.timer u)
    · simp [update_of_ne hu]
  refine h.shrink (Sublist.refl _) (fun u _ => (hsame u).2.2) ⟨rfl, rfl, rfl⟩ h.ring
    (fun u hu => h.solo u ((hsame u).1 ▸ hu)) h.sub fun u => ?_
  rw [h.active, (hsame u).1, (hsame u).2.1]

theorem create (ht : (s.timer t).created = false) (time : ℕ)
    (periodic : Bool) : Listed levels (s.rtTimerInit levels t time periodic) rows now deadline := by
  have hlast : t ∉ rows (levels - 1) := fun hmem => by
    have := ((h.active t).mp hmem).1
    rw [ht] at this
    exact Bool.noConfusion this
  unfold rtTimerInit
  rw [foldl_onRow]
  unfold Timers.modify
  refine h.shrink (Sublist.refl _) ?_ ⟨rfl, rfl, rfl⟩ ?_ ?_ h.sub ?_
  · intro u hu
    have hut : u ≠ t := fun he => hlast (he ▸ hu)
    simp [update_of_ne hut]
  · intro i hi
    simp only [hi, if_true]
    refine (h.ring i hi).congr fun m hm => ?_
    have hm : m ≠ some t := by
      rintro rfl
      exact hlast ((h.sub_last hi).subset (by simpa using hm))
    simp [Links.init, Links.setNext, Links.setPrev, update_of_ne hm]
  · intro u hu i hi hmem
    simp only [hi, if_true]
    by_cases hut : u = t
    · exact hut ▸ solo_init _ u
    · simp only [update_of_ne hut] at hu
      exact (h.solo u hu i hi hmem).init t
  · intro u
    by_cases hut : u = t
    · subst hut
      simp [hlast]
    · simp only [update_of_ne hut]
      exact h.active u

theorem remove (hlevels : 0 < levels) (ht : (s.timer t).created = true) (f : Timer → Timer)
    (hf : ¬ ((f (s.timer t)).created = true ∧ (f (s.timer t)).activated = true)) :
    Listed levels ((s.rtTimerRemove levels t).modify t f) (fun i => (rows i).erase t)
      now deadline := by
  rw [rtTimerRemove_eq]
  unfold Timers.modify
  have hnodup : ∀ i < levels, (rows i).Nodup := fun i hi => row_nodup (h.ring i hi)
  have hmem : ∀ u i, i < levels → (u ∈ (rows i).erase t ↔ u ≠ t ∧ u ∈ rows i) :=
    fun u i hi => (hnodup i hi).mem_erase_iff
  -- in each row the node of `t` is linked or in no list
  have hnode : ∀ i < levels, t ∈ rows i ∨ Solo (s.row i) t := fun i hi =>
    (em (t ∈ rows i)).imp_right (h.solo t ht i hi)
  refine h.shrink erase_sublist ?_ ⟨rfl, rfl, rfl⟩ ?_ ?_ (fun i hi => (h.sub i hi).erase t) ?_
  · intro u hu
    have hut := ((hmem u _ (by omega)).mp hu).1
    simp [update_of_ne hut]
  · intro i hi
    simp only [hi, if_true]
    by_cases hrow : t ∈ rows i
    · exact row_remove (h.ring i hi) hrow
    · have hsolo := h.solo t ht i hi hrow
      rw [Links.remove_of_next_eq _ hsolo.1 hsolo.2, erase_of_not_mem hrow]
      exact h.ring i hi
  · intro u hu i hi hrow
    simp only [hi, if_true]
    by_cases hut : u = t
    · exact hut ▸ solo_remove _ u
    · simp only [update_of_ne hut] at hu
      have hrow : u ∉ rows i := fun hin => hrow ((hmem u i hi).mpr ⟨hut, hin⟩)
      exact (h.solo u hu i hi hrow).remove t ⟨h.ring i hi, hrow⟩ (hnode i hi)
  · intro u
    rw [hmem u _ (by omega)]
    by_cases hut : u = t
    · subst hut
      simpa using hf
    · simp only [update_of_ne hut]
      rw [h.active u]
      exact and_iff_right hut

theorem log (fired : List (ℕ × ℕ)) : Listed levels { s with fired } rows now deadline :=
  h.shrink (Sublist.refl _) (fun _ _ => ⟨rfl, rfl⟩) ⟨rfl, rfl, rfl⟩ h.ring h.solo h.sub h.active

/-- The clock advances; a check has removed what was due. -/
theorem rtTickIncrease (hchecked : s.checked = true) :
    Listed levels s.rtTickIncrease rows (now + 1) deadline := by
  have htick : (s.tick + 1) % 2 ^ 32 = (now + 1) % 2 ^ 32 := by rw [h.tick, Nat.mod_add_mod]
  have hwindow : ∀ t ∈ rows (levels - 1),
      now + 1 ≤ deadline t + 1 ∧ deadline t ≤ now + 1 + 0x7FFFFFFE := by
    intro t ht
    have := h.notBefore hchecked t ht
    have := h.window t ht
    omega
  exact { h with
    tick := htick
    window := hwindow
    notBefore := fun hfalse => Bool.noConfusion hfalse }

theorem rowHeads_start (ht : t ∉ rows (levels - 1)) (htime : time < rtTickMaxHalf) :
    (s.modify t ({ · with timeoutTick := (s.tick + time) % 2 ^ 32 })).rowHeads
        ((s.tick + time) % 2 ^ 32) levels 0 none =
      some ((range' 0 levels).map fun j =>
        (notLater deadline (now + time) (rows j)).getLast?) := by
  refine @rowHeads_eq levels _ (now + time) (s.modify t _) rows deadline h.ring h.sub
    (fun i hi => h.sorted hi) ?_ ?_ levels 0 [] _ (by omega) fun _ => rfl
  · intro i hi a ha
    have hlast := (h.sub_last hi).subset ha
    have hat : a ≠ t := fun he => ht (he ▸ hlast)
    rw [← h.passes_iff hlast htime]
    simp [Passes, Timers.modify, update_of_ne hat]
  · exact fun i hi => (h.sub_last hi).length_le.trans h.length

theorem start (hlevels : 0 < levels)
    (ht : (s.timer t).created = true) (hidle : (s.timer t).activated = false)
    (hinit : (s.timer t).initTick < rtTickMaxHalf) :
    ∃ s' rows', s.rtTimerStart levels t = some s' ∧
      rows' (levels - 1) =
        enqueue deadline (now + (s.timer t).initTick) t (rows (levels - 1)) ∧
      (∀ u, (s'.timer u).initTick = (s.timer u).initTick ∧
        (s'.timer u).periodic = (s.timer u).periodic) ∧
      (∀ u ≠ t, s'.timer u = s.timer u) ∧
      (s'.tick = s.tick ∧ s'.checked = s.checked ∧ s'.fired = s.fired) ∧
      Listed levels s' rows' now
        (update deadline t (now + (s.timer t).initTick)) := by
  have hlast : t ∉ rows (levels - 1) := fun hmem => by
    have := ((h.active t).mp hmem).2
    rw [hidle] at this
    exact Bool.noConfusion this
  have hrow : ∀ i < levels, t ∉ rows i := fun i hi hmem => hlast ((h.sub_last hi).subset hmem)
  obtain ⟨k, hk, hstart⟩ := rtTimerStart_eq hlevels t s.randomNr
  have heq := hstart s rfl hidle hinit
  rw [h.rowHeads_start hlast hinit, map_some, entered] at heq
  set d := now + (s.timer t).initTick with hd
  have hhead : ∀ i < levels, ((range' 0 levels).map fun j =>
      (notLater deadline d (rows j)).getLast?).getD i none =
        (notLater deadline d (rows i)).getLast? := by
    intro i hi
    simp [hi]
  have hne : ∀ u ∈ rows (levels - 1), u ≠ t := fun u hu he => hlast (he ▸ hu)
  refine ⟨_, fun i => if k ≤ i then enqueue deadline d t (rows i) else rows i, heq,
    if_pos (by omega), ?_, fun u hut => update_of_ne hut .., ⟨rfl, rfl, rfl⟩, ?_⟩
  · intro u
    by_cases hut : u = t
    · subst hut
      simp
    · simp [update_of_ne hut]
  have hkept : ∀ i, i < levels → k ≤ i →
      notLater deadline d (rows i) ++ later deadline d (rows i) = rows i := fun i hi _ =>
    notLater_append_later (h.sorted hi)
  have hlastRow : k ≤ levels - 1 := by omega
  constructor
  case ring =>
    intro i hi
    by_cases hki : k ≤ i
    · simp only [hki, hi, and_self, if_true]
      rw [hhead i hi]
      refine row_insert ?_ ?_
      · rw [hkept i hi hki]
        exact h.ring i hi
      · rw [hkept i hi hki]
        exact hrow i hi
    · simp only [hki, false_and, if_false]
      exact h.ring i hi
  case solo =>
    intro u hu i hi hmem
    by_cases hki : k ≤ i
    · simp only [hki, hi, and_self, if_true, mem_enqueue, not_or] at hmem ⊢
      rw [hhead i hi]
      simp only [update_of_ne hmem.1] at hu
      refine (h.solo u hu i hi hmem.2).insertAfter (h.ring i hi) hmem.2 ?_ hmem.1
      cases hfound : (notLater deadline d (rows i)).getLast? with
      | none => exact mem_cons_self ..
      | some a =>
        have ha := (mem_notLater.mp (mem_of_getLast? hfound)).1
        simpa using ha
    · simp only [hki] at hmem ⊢
      by_cases hut : u = t
      · exact hut ▸ h.solo t ht i hi (hrow i hi)
      · simp only [update_of_ne hut] at hu
        exact h.solo u hu i hi hmem
  case sub =>
    intro i hi
    by_cases hki : k ≤ i
    · simp only [hki, show k ≤ i + 1 by omega, if_true]
      exact enqueue_sublist (h.sub i hi)
    · simp only [hki, if_false]
      split
      · exact (h.sub i hi).trans (sublist_enqueue (h.sorted hi))
      · exact h.sub i hi
  case active =>
    intro u
    simp only [hlastRow, if_true, mem_enqueue]
    by_cases hut : u = t
    · subst hut
      simp [ht]
    · simp only [hut, false_or, update_of_ne hut]
      exact h.active u
  case ordered =>
    simp only [hlastRow, if_true]
    have hother : ∀ u ∈ rows (levels - 1), update deadline t d u = deadline u ∧
        update s.timer t { s.timer t with
          timeoutTick := (s.tick + (s.timer t).initTick) % 2 ^ 32
          activated := true
          startNr := s.starts } u = s.timer u := fun u hu =>
      ⟨update_of_ne (hne u hu) .., update_of_ne (hne u hu) ..⟩
    refine pairwise_enqueue (h.ordered.imp_of_mem fun {a b} ha hb hbefore => ?_)
      (h.sorted (by omega)) ?_ ?_
    · simp only [Before, hother a ha, hother b hb]
      exact hbefore
    · intro a ha hle
      simp only [Before, hother a ha, update_self]
      rcases hle.lt_or_eq with hlt | heq
      · exact .inl hlt
      · exact .inr ⟨heq, h.startNr a ha⟩
    · intro a ha hlt
      simp only [Before, hother a ha, update_self]
      exact .inl hlt
  case startNr =>
    intro u hu
    simp only [hlastRow, if_true, mem_enqueue] at hu
    rcases hu with rfl | hu
    · simp
    · simp only [update_of_ne (hne u hu)]
      exact (h.startNr u hu).trans (Nat.lt_succ_self _)
  case length =>
    simp only [hlastRow, if_true, length_enqueue (h.sorted (show levels - 1 < levels by omega))]
    exact Nat.succ_le_succ h.length
  case tick => exact h.tick
  case timeout =>
    intro u hu
    simp only [hlastRow, if_true, mem_enqueue] at hu
    rcases hu with rfl | hu
    · simp [h.tick, hd]
    · simp only [update_of_ne (hne u hu)]
      exact h.timeout u hu
  case window =>
    intro u hu
    simp only [hlastRow, if_true, mem_enqueue] at hu
    rcases hu with rfl | hu
    · unfold rtTickMaxHalf at hinit
      simp only [update_self]
      omega
    · simp only [update_of_ne (hne u hu)]
      exact h.window u hu
  case notBefore =>
    intro hchecked u hu
    simp only [hlastRow, if_true, mem_enqueue] at hu
    rcases hu with rfl | hu
    · simp only [update_self]
      omega
    · simp only [update_of_ne (hne u hu)]
      exact h.notBefore hchecked u hu

theorem start_cases (hlevels : 0 < levels)
    (ht : (s.timer t).created = true) (hs : s.rtTimerStart levels t = some s') :
    s' = s ∨ (s.timer t).activated = false ∧ ∃ rows', rows' (levels - 1) =
        enqueue deadline (now + (s.timer t).initTick) t (rows (levels - 1)) ∧
      (∀ u, (s'.timer u).initTick = (s.timer u).initTick ∧
        (s'.timer u).periodic = (s.timer u).periodic) ∧
      (s'.checked = s.checked ∧ s'.fired = s.fired) ∧
      Listed levels s' rows' now
        (update deadline t (now + (s.timer t).initTick)) := by
  by_cases hactive : (s.timer t).activated = true
  · rw [rtTimerStart, if_pos hactive] at hs
    exact .inl (some.inj hs).symm
  by_cases hinit : (s.timer t).initTick < rtTickMaxHalf
  · have hidle := Bool.eq_false_of_not_eq_true hactive
    obtain ⟨s₁, rows', hstart, hrows', hfields, -, hframe, hlisted⟩ :=
      h.start hlevels ht hidle hinit
    obtain rfl : s₁ = s' := some.inj (hstart.symm.trans hs)
    exact .inr ⟨hidle, rows', hrows', hfields, hframe.2, hlisted⟩
  · rw [rtTimerStart, if_neg hactive, if_pos (not_lt.mp hinit)] at hs
    cases hs

end

end Listed

end Timers

end Easyio.Kernel
