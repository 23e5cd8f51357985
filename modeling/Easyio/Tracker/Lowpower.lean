import Easyio.Runs.Guarded
import Mathlib.Data.List.Count

/-!
# Switching the GPS off

`lowpower_routing` of `applications/lowpower.c`.  While the GPS has no position, in
`GPS_NOPOS`, it is switched off when the counters say that two readings found no
satellites or that four found fewer than three.  A reading of one or two satellites does
not clear `zero_cnt`, so the readings that found none need not be consecutive
(`switchesOff_iff`).

The counters are those of the readings in `GPS_NOPOS` (`countsReadings_run`): the other
states keep them, and `GPS_INIT`, which clears them, is left for good before the first
reading.
-/

namespace Easyio.Tracker

open Crash List Runs

/-- The counters of the readings, each of eight bits. -/
structure Counters where
  zeroCnt : ℕ := 0
  lessThan3 : ℕ := 0
  greatThanOrEqual3 : ℕ := 0

/-- What is done after a reading. -/
inductive GpsAction where
  | disableGpsTim | enableGpsTim1 | routSleepTim

namespace Counters

/-- `lowpower_sta_counter` -/
def lowpowerStaCounter (s : Counters) (satCount : ℕ) : Counters :=
  let s := if satCount = 0 then
    { s with zeroCnt := (s.zeroCnt + 1) % 256, greatThanOrEqual3 := 0 } else s
  let s := if satCount < 3 then
    { s with lessThan3 := (s.lessThan3 + 1) % 256, greatThanOrEqual3 := 0 } else s
  if 3 ≤ satCount then ⟨0, 0, (s.greatThanOrEqual3 + 1) % 256⟩ else s

/-- The case `GPS_NOPOS` of `lowpower_routing`, when its time is over -/
def nopos (s : Counters) (satCount : ℕ) : GpsAction × Counters :=
  let s := s.lowpowerStaCounter satCount
  if s.zeroCnt = 2 ∨ s.lessThan3 = 4 ∨ s.greatThanOrEqual3 = 20 then (.disableGpsTim, {})
  else if 0 < s.greatThanOrEqual3 then (.enableGpsTim1, s)
  else (.routSleepTim, s)

end Counters

/-- `GPS_LOWPOWER_STATUS` -/
inductive GpsLowpowerStatus where
  | init | nopos | on | off
  deriving DecidableEq

/-- The variables, with the readings that were taken in `GPS_NOPOS`, the last one first. -/
structure Lowpower where
  status : GpsLowpowerStatus := .init
  gpsTim : UInt32 := 0
  sleepTim : UInt32 := 0
  counters : Counters := {}
  readings : List ℕ := []

/-- What `lowpower_routing` reads; `bindsucc` and `located` say that `xmpp_status` is
`XMPP_BINDSUCC` and the status of the position `A`. -/
structure Surroundings where
  gpsWorkType : ℕ
  second : UInt32
  bindsucc : Bool
  located : Bool
  presenceTime : ℕ
  moving : Bool
  availableSatCount : ℕ

namespace Lowpower

/-- The macros of these names. -/
def act (s : Lowpower) (second : UInt32) : GpsAction → Lowpower
  | .disableGpsTim => { s with status := .off, gpsTim := second, sleepTim := 60 }
  | .enableGpsTim1 => { s with status := .on, gpsTim := second, sleepTim := 60 }
  | .routSleepTim => { s with gpsTim := second, sleepTim := 3 }

/-- `lowpower_routing` -/
def lowpowerRouting (s : Lowpower) (r : Surroundings) : Lowpower :=
  if r.gpsWorkType = 0 then { s with status := .off }
  else if r.gpsWorkType = 1 then { s with status := .on }
  else
    match s.status with
    | .init => act { s with counters := {} } r.second
        (if r.bindsucc then .enableGpsTim1 else .disableGpsTim)
    | .nopos =>
      if r.second - s.gpsTim < s.sleepTim then s
      else
        let (action, counters) := s.counters.nopos r.availableSatCount
        act { s with counters, readings := r.availableSatCount :: s.readings } r.second action
    | .on =>
      if r.second - s.gpsTim < s.sleepTim then s
      else if r.located then
        s.act r.second (if r.presenceTime < 60 ∧ (r.moving ∨ 3 ≤ r.availableSatCount) then
          .enableGpsTim1 else .disableGpsTim)
      else act { s with status := .nopos } r.second .routSleepTim
    | .off =>
      if r.second - s.gpsTim < s.sleepTim then s
      else s.act r.second (if r.moving ∧ r.bindsucc then .enableGpsTim1 else .disableGpsTim)

/-- `open_gps_2min` and `open_gps_5min`, which differ in the time. -/
def openGps (s : Lowpower) (second time : UInt32) : Lowpower :=
  { s with status := .on, gpsTim := second, sleepTim := time }

inductive Event where
  | routing (r : Surroundings)
  | openGps2min (second : UInt32)
  | openGps5min (second : UInt32)

def step (s : Lowpower) : Event → Lowpower
  | .routing r => s.lowpowerRouting r
  | .openGps2min second => s.openGps second 120
  | .openGps5min second => s.openGps second 300

end Lowpower

/-- The counters after readings of `available_sat_count`, the last one first. -/
def counters : List ℕ → Counters
  | [] => {}
  | satCount :: earlier => ((counters earlier).nopos satCount).2

/-- A reading switches the GPS off because no satellites were found. -/
def Counters.zeroRule (c : Counters) (satCount : ℕ) : Bool :=
  (c.lowpowerStaCounter satCount).zeroCnt = 2

/-- A reading switches the GPS off because few satellites were found. -/
def Counters.fewRule (c : Counters) (satCount : ℕ) : Bool :=
  (c.lowpowerStaCounter satCount).lessThan3 = 4

/-- The last readings of fewer than three satellites, which begin anew when two of them have found
none or when there are four. -/
def lows : List ℕ → List ℕ
  | [] => []
  | satCount :: earlier =>
    let few := satCount :: lows earlier
    if satCount < 3 ∧ few.count 0 < 2 ∧ few.length < 4 then few else []

/-- The rules switch the GPS off only after consecutive bad readings. -/
structure SwitchesOff (s : Lowpower) (satCount : ℕ) : Prop where
  zero : s.counters.zeroRule satCount → satCount = 0 ∧ s.readings.head? = some 0
  few : s.counters.fewRule satCount →
    3 ≤ s.readings.length ∧ ∀ n ∈ satCount :: s.readings.take 3, n < 3

/-- What the counters count. -/
structure Counted (c : Counters) (few : List ℕ) : Prop where
  zero : c.zeroCnt = few.count 0
  less : c.lessThan3 = few.length
  zero_le : c.zeroCnt ≤ 1
  less_le : c.lessThan3 ≤ 3

variable {satCount : ℕ} {earlier : List ℕ}

theorem zeroRule_iff (h : Counted (counters earlier) (lows earlier)) :
    (counters earlier).zeroRule satCount ↔ satCount = 0 ∧ (lows earlier).count 0 = 1 := by
  obtain ⟨hzero, -, hle, -⟩ := h
  grind [Counters.zeroRule, Counters.lowpowerStaCounter]

theorem fewRule_iff (h : Counted (counters earlier) (lows earlier)) :
    (counters earlier).fewRule satCount ↔ satCount < 3 ∧ (lows earlier).length = 3 := by
  obtain ⟨-, hless, -, hle⟩ := h
  grind [Counters.fewRule, Counters.lowpowerStaCounter]

theorem counted (readings : List ℕ) : Counted (counters readings) (lows readings) := by
  induction readings with
  | nil => exact ⟨rfl, rfl, by decide, by decide⟩
  | cons satCount earlier ih =>
    obtain ⟨hcount, hlength, hcount_le, hlength_le⟩ := ih
    constructor <;> grind [counters, lows, Counters.nopos, Counters.lowpowerStaCounter]

theorem lows_spec (readings : List ℕ) :
    lows readings <+: readings ∧ ∀ n ∈ lows readings, n < 3 := by
  induction readings with
  | nil => simp [lows]
  | cons satCount earlier ih =>
    rw [lows]
    split
    · next h => exact ⟨cons_prefix_cons.mpr ⟨rfl, ih.1⟩, forall_mem_cons.mpr ⟨h.1, ih.2⟩⟩
    · simp

/-- The counters are those of the readings, and in `GPS_INIT` there has been none. -/
structure CountsReadings (s : Lowpower) : Prop where
  counters_eq : s.counters = counters s.readings
  readings_eq : s.status = .init → s.readings = []

theorem CountsReadings.act {s : Lowpower} (h : CountsReadings s) (second : UInt32)
    (action : GpsAction) : CountsReadings (s.act second action) := by
  cases action with
  | disableGpsTim | enableGpsTim1 => exact ⟨h.counters_eq, nofun⟩
  | routSleepTim => exact ⟨h.counters_eq, h.readings_eq⟩

theorem CountsReadings.lowpowerRouting {s : Lowpower} (h : CountsReadings s) (r : Surroundings) :
    CountsReadings (s.lowpowerRouting r) := by
  unfold Lowpower.lowpowerRouting
  split
  · exact ⟨h.counters_eq, nofun⟩
  split
  · exact ⟨h.counters_eq, nofun⟩
  split
  · next hstatus =>
    -- there are no readings yet, so that clearing the counters changes nothing
    refine .act (s := { s with counters := {} }) ⟨?_, h.readings_eq⟩ _ _
    rw [h.readings_eq hstatus, counters]
  · next hstatus =>
    split
    · exact h
    have hnopos : CountsReadings { s with
        counters := (s.counters.nopos r.availableSatCount).2
        readings := r.availableSatCount :: s.readings } :=
      ⟨by rw [h.counters_eq, counters], hstatus ▸ nofun⟩
    exact hnopos.act _ _
  · split
    · exact h
    split
    · exact h.act _ _
    · exact .act (s := { s with status := .nopos }) ⟨h.counters_eq, nofun⟩ _ _
  · split
    · exact h
    · exact h.act _ _

theorem countsReadings_run (events : List Lowpower.Event) :
    CountsReadings (replay Lowpower.step {} events) := by
  refine replay_invariant (fun s e h => ?_) ⟨rfl, fun _ => rfl⟩ events
  cases e with
  | routing r => exact h.lowpowerRouting r
  | openGps2min | openGps5min => exact ⟨h.counters_eq, nofun⟩

/-- In every run, a reading in `GPS_NOPOS` switches the GPS off as it should if and only if, in case
it finds no satellites, none of the readings counted before the last one did so either. -/
theorem switchesOff_iff (events : List Lowpower.Event) (satCount : ℕ) :
    let s := replay Lowpower.step {} events
    SwitchesOff s satCount ↔ (satCount = 0 → 0 ∉ (lows s.readings).tail) := by
  intro s
  have hcounted := counted s.readings
  have hsame : s.counters = counters s.readings := (countsReadings_run events).counters_eq
  have hle : (lows s.readings).count 0 ≤ 1 := hcounted.zero ▸ hcounted.zero_le
  obtain ⟨hpre, hlow⟩ := lows_spec s.readings
  have hfew : s.counters.fewRule satCount →
      3 ≤ s.readings.length ∧ ∀ n ∈ satCount :: s.readings.take 3, n < 3 := by
    intro h
    rw [hsame] at h
    obtain ⟨hsat, hlength⟩ := (fewRule_iff hcounted).mp h
    have htake := prefix_iff_eq_take.mp hpre
    rw [hlength] at htake
    exact ⟨hlength ▸ hpre.length_le, forall_mem_cons.mpr ⟨hsat, htake ▸ hlow⟩⟩
  have hrule := @zeroRule_iff satCount _ hcounted
  rw [← hsame] at hrule
  cases hlows : lows s.readings with
  | nil =>
    rw [hlows, count_nil] at hrule
    exact iff_of_true ⟨fun h => absurd (hrule.mp h).2 Nat.zero_ne_one, hfew⟩ fun _ => not_mem_nil
  | cons n rest =>
    obtain ⟨after, hafter⟩ := hlows ▸ hpre
    have hhead : s.readings.head? = some n := hafter ▸ rfl
    rw [hlows, count_cons] at hle hrule
    rw [tail_cons, ← count_eq_zero]
    constructor
    · intro h hsat
      have hzero := h.zero
      grind
    · intro h
      refine ⟨fun hzero => ?_, hfew⟩
      obtain ⟨hsat, hone⟩ := hrule.mp hzero
      exact ⟨hsat, by grind⟩

/-- A call of `lowpower_routing` at the time `second`, without a position and with `satCount`
satellites. -/
def searching (second : UInt32) (satCount : ℕ) : Lowpower.Event :=
  .routing ⟨2, second, true, false, 30, false, satCount⟩

/-- The GPS is switched on and finds no position, and is switched off when 0, 1 and 0 satellites
have been read. -/
theorem switchedOff_not_consecutive :
    let s := replay Lowpower.step {} [searching 0 0, searching 60 0, searching 63 0, searching 66 1]
    s.status = .nopos ∧ (s.step (searching 69 0)).status = .off ∧ ¬SwitchesOff s 0 := by
  refine ⟨by decide, by decide, fun h => ?_⟩
  have hlast := (h.zero (by decide)).2
  exact absurd hlast (by decide)

end Easyio.Tracker
