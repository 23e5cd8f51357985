import Mathlib.Data.List.Chain

/-!
# The automatic update checks

`ota_http_tcp_routing` runs in the main loop.  It is meant to check for an update half an
hour after the start and every twelve hours from then on.  The second of the last check
is kept in an `unsigned char`.
-/

namespace Easyio.Ota.Polling

open List Nat UInt32

/-- A call of the routine: the second at which it starts, and the one at which a check it
makes has returned. -/
structure Call where
  start : ℕ
  finish : ℕ

/-- The part of `ota_http_tcp_routing` that issues `checkota`: whether it does, and the
new `ota_timer`. -/
def otaHttpTcpRouting (otaTimer : UInt8) (call : Call) : Bool × UInt8 :=
  let second := UInt32.ofNat call.start
  if otaTimer ≤ 0 then
    if 60 * 30 < second then (true, UInt8.ofNat call.finish)
    else if 60 * 60 * 12 ≤ second - otaTimer.toUInt32 then (true, UInt8.ofNat call.finish)
    else (false, otaTimer)
  else (false, otaTimer)

/-- The seconds at which a run issues `checkota`. -/
def checks (otaTimer : UInt8) : List Call → List ℕ
  | [] => []
  | call :: calls =>
    let (issued, otaTimer) := otaHttpTcpRouting otaTimer call
    if issued then call.start :: checks otaTimer calls else checks otaTimer calls

/-- The next call follows in the same second or in the next one. -/
def Call.Follows (call next : Call) : Prop :=
  call.finish ≤ next.start ∧ call.start ≤ call.finish ∧ next.start ≤ call.start + 1

/-- The routine is called in every second from some second up to 1801 on. -/
def IsRun (calls : List Call) : Prop :=
  List.IsChain Call.Follows calls ∧ ∀ call ∈ calls.head?, call.start ≤ 1801

/-- The schedule of the checks. -/
structure Polls (calls : List Call) : Prop where
  first : (checks 0 calls).head? = (calls.map (·.start)).find? (1800 < ·)
  apart : List.IsChain (fun check next => check + 43200 ≤ next) (checks 0 calls)
  again : ∀ first ∈ (checks 0 calls).head?, ∀ opens, first ≤ opens →
    (∃ call ∈ calls, opens + 43202 ≤ call.start) →
      ∃ check ∈ checks 0 calls, opens < check ∧ check ≤ opens + 43202

variable {calls : List Call} {call : Call}

/-- A timer that is not zero is never looked at again. -/
theorem checks_of_ne_zero {otaTimer : UInt8} (h : ¬otaTimer ≤ 0) : checks otaTimer calls = [] := by
  induction calls with
  | nil => rfl
  | cons call calls ih => simp [checks, otaHttpTcpRouting, h, ih]

theorem otaHttpTcpRouting_early (h : call.start ≤ 1800) :
    otaHttpTcpRouting 0 call = (false, 0) := by
  have hsecond : (ofNat call.start).toNat = call.start :=
    toNat_ofNat_of_lt' (lt_of_le_of_lt h (by decide))
  have hnotYet : ¬60 * 30 < ofNat call.start := by
    rw [lt_iff_toNat_lt, hsecond]
    exact not_lt.mpr h
  have hnotLate : ¬60 * 60 * 12 ≤ ofNat call.start - UInt8.toUInt32 0 := by
    have hzero : UInt8.toUInt32 0 = 0 := rfl
    rw [UInt32.le_iff_toNat_le, hzero, UInt32.sub_zero, hsecond]
    exact not_le.mpr (lt_of_le_of_lt h (by decide))
  simp only [otaHttpTcpRouting, hnotYet, hnotLate, if_false, ite_self]

theorem otaHttpTcpRouting_due (h : call.start = 1801) :
    otaHttpTcpRouting 0 call = (true, UInt8.ofNat call.finish) := by
  simp [otaHttpTcpRouting, h]

/-- There is one check, as soon as the counter has passed 1800. -/
theorem checks_eq (hrun : IsRun calls) :
    checks 0 calls = ((calls.map (·.start)).find? (1800 < ·)).toList ∧
      ∀ check ∈ checks 0 calls, check = 1801 := by
  obtain ⟨hchain, hhead⟩ := hrun
  induction calls with
  | nil => simp [checks]
  | cons call calls ih =>
    have hstart := hhead call rfl
    obtain ⟨hnext, htail⟩ := List.isChain_cons.mp hchain
    rcases lt_or_ge 1800 call.start with hdue | hearly
    · have hnow : call.start = 1801 := by omega
      have hrest : checks (UInt8.ofNat call.finish) calls = [] := by
        cases calls with
        | nil => rfl
        | cons next calls =>
          -- the check was made in second 1801 or 1802, which is 9 or 10 in eight bits
          obtain ⟨hle, hge, hsoon⟩ := hnext next rfl
          apply checks_of_ne_zero
          obtain h | h : call.finish = 1801 ∨ call.finish = 1802 := by omega
          all_goals
            rw [h]
            decide
      simp [checks, otaHttpTcpRouting_due hnow, hrest, hnow]
    · have hnotDue : ¬1800 < call.start := not_lt.mpr hearly
      have hsoon : ∀ next ∈ calls.head?, next.start ≤ 1801 := by
        intro next hmem
        have hfollows := (hnext next hmem).2.2
        omega
      simpa [checks, otaHttpTcpRouting_early hearly, hnotDue] using ih htail hsoon

theorem not_polls (hrun : IsRun calls) (hcall : call ∈ calls) (hlate : 45003 ≤ call.start) :
    ¬Polls calls := by
  intro h
  obtain ⟨hchecks, hall⟩ := checks_eq hrun
  have hdue : ((calls.map (·.start)).find? (1800 < ·)).isSome := by
    rw [find?_isSome]
    exact ⟨call.start, mem_map_of_mem hcall, decide_eq_true (by omega)⟩
  obtain ⟨first, hfirst⟩ := Option.isSome_iff_exists.mp hdue
  have hhead : first ∈ (checks 0 calls).head? := h.first.trans hfirst
  have hvalue := hall first (mem_of_mem_head? hhead)
  obtain ⟨check, hmem, hafter, -⟩ := h.again first hhead first (le_refl _) ⟨call, hcall, by omega⟩
  have hcheck := hall check hmem
  omega

theorem polls_iff (hrun : IsRun calls) : Polls calls ↔ ∀ call ∈ calls, call.start < 45003 := by
  obtain ⟨hchecks, hall⟩ := checks_eq hrun
  constructor
  · intro h call hcall
    by_contra hlate
    exact not_polls hrun hcall (not_lt.mp hlate) h
  · intro hearly
    refine ⟨?_, ?_, ?_⟩
    · rw [hchecks]
      exact Option.head?_toList
    · rw [hchecks]
      cases (calls.map (·.start)).find? (1800 < ·) with
      | none => exact .nil
      | some first => exact .singleton first
    · -- no run is long enough for a window after the check
      rintro first hfirst opens hle ⟨call, hcall, hlate⟩
      have hvalue := hall first (mem_of_mem_head? hfirst)
      have hend := hearly call hcall
      omega

theorem polls_iff_short : Polls [⟨1800, 1801⟩, ⟨1801, 1802⟩] := by
  refine (polls_iff ⟨?_, by decide⟩).mpr (by decide)
  rw [List.isChain_pair]
  exact ⟨by decide, by decide, by decide⟩

/-- A run over the seconds up to 45003 makes only the first check. -/
theorem never_polls_again :
    IsRun ((range' 1801 43203).map fun second => ⟨second, second⟩) ∧
      ¬Polls ((range' 1801 43203).map fun second => ⟨second, second⟩) := by
  have hrun : IsRun ((range' 1801 43203).map fun second => ⟨second, second⟩) := by
    refine ⟨(List.isChain_map _).mpr ((List.isChain_range' 1801 43203 1).imp ?_), ?_⟩
    · rintro second _ rfl
      exact ⟨le_succ _, le_refl _, le_refl _⟩
    · rintro call ⟨⟩
      exact le_refl _
  refine ⟨hrun, @not_polls _ ⟨45003, 45003⟩ hrun ?_ (by decide)⟩
  exact mem_map_of_mem (mem_range'_1.mpr (by decide))

end Easyio.Ota.Polling
