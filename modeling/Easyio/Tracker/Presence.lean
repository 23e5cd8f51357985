import Easyio.Lists.Cyclic
import Easyio.Runs.Guarded

/-!
# Position reports

The queue of `applications/xmpp_msg_queue.c`, with `generate_send_presence(0)` and
`setting_presence_routring` of `applications/xmpp_tcp.c`.  A sample may come while a report is on
its way.  What has been sent and what is queued are the samples that were stored, in order
(`reports_in_order`).

A sample like the one before it is skipped.  It is compared with the last one that was given to
`EnQueue`, also if the queue was full, and with its `idle_status`, which is never set
(`skips_exactly_iff`).
-/

namespace Easyio.Tracker

open Crash Function List Easyio.Lists Nat Runs

/-- `struct TRACKER_BUFFER_DATA`; the fields in `rest` are not compared. -/
structure Item (F R : Type) where
  lat : F
  lon : F
  speed : F
  idleStatus : UInt8
  rest : R
  deriving DecidableEq

/-- `CirQueue` -/
structure CirQueue (α : Type) where
  count : ℕ
  index : ℕ
  index2 : ℕ
  data : ℕ → α

namespace CirQueue

variable {α : Type} (q : CirQueue α)

/-- `EnQueue` -/
def enQueue (x : α) : CirQueue α :=
  if 64 ≤ q.count then q
  else ⟨q.count + 1, (q.index + 1) % 64, q.index2, update q.data q.index x⟩

/-- `getDeQueue` -/
def getDeQueue : CirQueue α :=
  if q.count = 0 then q else { q with index2 := (q.index2 + 1) % 64, count := q.count - 1 }

/-- `getDeQueue2` -/
def getDeQueue2 : Option α := if q.count = 0 then none else some (q.data q.index2)

/-- What is in the queue, the oldest first. -/
def contents : List α := reading q.data 64 q.index2 q.count

/-- The indices belong together. -/
structure Fits : Prop where
  count_le : q.count ≤ 64
  index : q.index = (q.index2 + q.count) % 64
  index2_lt : q.index2 < 64

variable {q} (h : q.Fits)
include h

theorem Fits.enQueue (x : α) (hroom : q.count < 64) :
    (q.enQueue x).Fits ∧ (q.enQueue x).contents = q.contents ++ [x] := by
  rw [CirQueue.enQueue, if_neg (Nat.not_le_of_lt hroom)]
  refine ⟨⟨hroom, ?_, h.index2_lt⟩, ?_⟩
  · simp only [h.index, Nat.mod_add_mod, Nat.add_assoc]
  · have happend := @reading_writing_append _ q.data 64 q.index2 q.count [x] hroom
    rwa [writing, ← h.index] at happend

theorem contents_eq_nil_or : q.getDeQueue2 = none ∧ q.contents = [] ∨
    ∃ x, q.getDeQueue2 = some x ∧ q.getDeQueue.Fits ∧ q.contents = x :: q.getDeQueue.contents := by
  cases hcount : q.count with
  | zero => exact .inl ⟨if_pos hcount, by rw [contents, hcount, reading_zero]⟩
  | succ n =>
    have hne : q.count ≠ 0 := hcount ▸ succ_ne_zero n
    have hread : reading q.data 64 q.index2 (n + 1) =
        q.data q.index2 :: reading q.data 64 (q.index2 + 1) n := by
      rw [add_comm n, reading_add, reading_one, mod_eq_of_lt h.index2_lt]
      rfl
    refine .inr ⟨_, if_neg hne, ?_, ?_⟩
    · rw [getDeQueue, if_neg hne]
      refine ⟨le_trans (sub_le ..) h.count_le, ?_, mod_lt _ (by decide)⟩
      simp only [h.index, mod_add_mod, hcount]
      congr 1
      omega
    · rw [getDeQueue, if_neg hne, contents, contents, reading_of_mod_eq (mod_mod ..), hcount]
      exact hread

end CirQueue

/-- The variables, with the samples that were given to `EnQueue`, each with whether it was stored,
and the reports that were sent.  `sending` is the report on its way. -/
structure Presence (F R : Type) where
  queue : CirQueue (Item F R)
  busy : Bool
  hisItem0 : Item F R
  sending : Option (Item F R) := none
  given : List (Item F R × Bool) := []
  sent : List (Item F R) := []

inductive PresenceEvent (F R : Type) where
  | generate (malloc : Bool) (bcCount : ℕ) (item : Item F R)
  | peek
  | send (sent : Bool)

variable {F R : Type} (same : F → F → Bool)

/-- Whether the sensor values of two samples are the same; `same` is `==` of the numbers. -/
def sameGps (a b : Item F R) : Bool := same a.lat b.lat && same a.lon b.lon && same a.speed b.speed

/-- Whether `tracker_item_cmp_BCGPS` gives 0 -/
def trackerItemCmpBCGPS (a b : Item F R) : Bool := sameGps same a b && a.idleStatus == b.idleStatus

namespace Presence

section

variable (p : Presence F R)

def stored : List (Item F R) := (p.given.filter Prod.snd).map Prod.fst

/-- After `InitQueue`. -/
def initQueue (data : ℕ → Item F R) (busy : Bool) (hisItem0 : Item F R) : Presence F R :=
  { queue := ⟨0, 0, 0, data⟩, busy, hisItem0 }

/-- `generate_send_presence(0)`, where `bcCount` is `PRESENCE_BC_COUNT` -/
def generateSendPresence (malloc : Bool) (bcCount : ℕ) (item : Item F R) : Presence F R :=
  if malloc ∧ ¬trackerItemCmpBCGPS same item p.hisItem0 then
    let queue := p.queue.enQueue item
    { p with
      hisItem0 := item
      queue
      busy := p.busy || bcCount ≤ queue.count
      given := p.given ++ [(item, decide (p.queue.count < 64))] }
  else p

def settle : Presence F R := { p with busy := p.busy && p.queue.count ≠ 0 }

/-- `setting_presence_routring`: the oldest report is looked at. -/
def peek : Presence F R :=
  if p.busy then
    match p.queue.getDeQueue2 with
    | none => p.settle
    | some item => { p with sending := some item }
  else p

/-- `setting_presence_routring`: `xmpp_set_presence` has been called. -/
def send (sent : Bool) : Presence F R :=
  match p.sending with
  | none => p
  | some item =>
    settle { p with
      queue := if sent then p.queue.getDeQueue else p.queue
      sent := if sent then p.sent ++ [item] else p.sent
      sending := none }

def step : PresenceEvent F R → Presence F R
  | .generate malloc bcCount item => p.generateSendPresence same malloc bcCount item
  | .peek => p.peek
  | .send sent => p.send sent

end

/-- What has been sent and what is queued are the stored samples. -/
structure InOrder (zero : Item F R) (p : Presence F R) : Prop where
  fits : p.queue.Fits
  stored : p.stored = p.sent ++ p.queue.contents
  sending : ∀ item ∈ p.sending, p.queue.contents.head? = some item
  his : p.hisItem0 = (p.given.getLast?.map Prod.fst).getD zero

variable {same} {zero : Item F R} {p : Presence F R}

theorem InOrder.generate (h : InOrder zero p) (malloc : Bool) (bcCount : ℕ) (item : Item F R) :
    InOrder zero (p.generateSendPresence same malloc bcCount item) := by
  unfold generateSendPresence
  split
  · by_cases hroom : p.queue.count < 64
    · obtain ⟨hfits, hcontents⟩ := h.fits.enQueue item hroom
      refine ⟨hfits, ?_, fun x hx => ?_, ?_⟩
      · simp [Presence.stored, hroom, hcontents, ← append_assoc, ← h.stored]
      · simp [hcontents, h.sending x hx]
      · simp
    · have hfull : p.queue.enQueue item = p.queue := if_pos (Nat.le_of_not_lt hroom)
      rw [hfull]
      refine ⟨h.fits, ?_, h.sending, ?_⟩
      · simp [Presence.stored, hroom, ← h.stored]
      · simp
  · exact h

theorem InOrder.peek (h : InOrder zero p) : InOrder zero p.peek := by
  unfold Presence.peek
  split
  · rcases CirQueue.contents_eq_nil_or h.fits with ⟨hnone, -⟩ | ⟨item, hsome, -, hcontents⟩
    · rw [hnone]
      exact ⟨h.fits, h.stored, h.sending, h.his⟩
    · rw [hsome]
      refine ⟨h.fits, h.stored, fun x hx => ?_, h.his⟩
      obtain rfl := Option.some.inj hx
      rw [hcontents, head?_cons]
  · exact h

theorem InOrder.send (h : InOrder zero p) (sent : Bool) : InOrder zero (p.send sent) := by
  unfold Presence.send
  split
  · exact h
  · next item hsending =>
    cases sent with
    | false => exact ⟨h.fits, h.stored, by simp [settle], h.his⟩
    | true =>
      have hhead := h.sending item hsending
      rcases CirQueue.contents_eq_nil_or h.fits with ⟨-, hnil⟩ | ⟨x, -, hfits, hcontents⟩
      · simp [hnil] at hhead
      · obtain rfl : x = item := by simpa [hcontents] using hhead
        refine ⟨hfits, ?_, nofun, h.his⟩
        have hstored : p.stored = p.sent ++ [x] ++ p.queue.getDeQueue.contents := by
          rw [h.stored, hcontents, append_assoc, singleton_append]
        exact hstored

variable (same) (data : ℕ → Item F R) (busy : Bool) (events : List (PresenceEvent F R))

theorem inOrder_run (zero : Item F R) :
    InOrder zero (replay (step same) (initQueue data busy zero) events) := by
  have hfits : (initQueue data busy zero).queue.Fits :=
    ⟨Nat.zero_le _, rfl, Nat.lt_of_sub_eq_succ rfl⟩
  refine replay_invariant (fun p e h => ?_) ⟨hfits, rfl, nofun, rfl⟩ events
  cases e with
  | generate malloc bcCount item => exact h.generate malloc bcCount item
  | peek => exact h.peek
  | send sent => exact h.send sent

/-- In every run the reports that were sent, followed by those in the queue, are the samples that
were stored. -/
theorem reports_in_order (hisItem0 : Item F R) :
    let p := replay (step same) (initQueue data busy hisItem0) events
    p.stored = p.sent ++ p.queue.contents :=
  (inOrder_run same data busy events hisItem0).stored

/-- A call of `generate_send_presence` skips the sample, giving `EnQueue` nothing, exactly if its
values are those of the last one stored. -/
def SkipsExactly (bcCount : ℕ) (p : Presence F R) (item : Item F R) : Prop :=
  (p.generateSendPresence same true bcCount item).given = p.given ↔
    ∃ last ∈ p.stored.getLast?, sameGps same item last

theorem given_generate_iff {bcCount : ℕ} {item : Item F R} :
    (p.generateSendPresence same true bcCount item).given = p.given ↔
      trackerItemCmpBCGPS same item p.hisItem0 := by
  by_cases hcmp : trackerItemCmpBCGPS same item p.hisItem0 <;> simp [generateSendPresence, hcmp]

/-- What this needs, when the sample is compared with the last one given to `EnQueue`: if that was
stored, its `idle_status`; if it was refused, that the sample is like both or like none of it and
the last one stored. -/
def ComparesRight (zero : Item F R) (p : Presence F R) (item : Item F R) : Prop :=
  match p.given.getLast? with
  | none => ¬trackerItemCmpBCGPS same item zero
  | some (last, true) => sameGps same item last → item.idleStatus = last.idleStatus
  | some (refused, false) =>
    (trackerItemCmpBCGPS same item refused ∧ ∃ last ∈ p.stored.getLast?, sameGps same item last) ∨
      ¬trackerItemCmpBCGPS same item refused ∧ ∀ last ∈ p.stored.getLast?, ¬sameGps same item last

/-- In every run, a sample is skipped as it should be if and only if it is compared right. -/
theorem skips_exactly_iff (bcCount : ℕ) (zero item : Item F R) :
    let p := replay (step same) (initQueue data busy zero) events
    p.SkipsExactly same bcCount item ↔ p.ComparesRight same zero item := by
  intro p
  have his : p.hisItem0 = _ := (inOrder_run same data busy events zero).his
  rw [SkipsExactly, given_generate_iff, ComparesRight, his]
  cases hlast : p.given.getLast? with
  | none =>
    have hnil : p.stored = [] := by simp [Presence.stored, getLast?_eq_none_iff.mp hlast]
    simp [hnil]
  | some last =>
    obtain ⟨last, stored⟩ := last
    cases stored with
    | false => simp [iff_iff_and_or_not_and_not]
    | true =>
      obtain ⟨front, hfront⟩ := getLast?_eq_some_iff.mp hlast
      have hstored : p.stored.getLast? = some last := by simp [Presence.stored, hfront]
      simp [hstored, trackerItemCmpBCGPS]

/-- The sample with the latitude `n`, for a counterexample. -/
def sampleAt (n : ℕ) : Item ℕ Unit := ⟨n, 0, 0, 0, ()⟩

/-- After 64 samples that were stored, the next one is refused, and the same sample is then
skipped. -/
theorem refused_then_skipped :
    let p := replay (step (· == ·)) (initQueue (fun _ => sampleAt 0) false (sampleAt 0))
      ((range 65).map fun n => .generate true 70 (sampleAt (n + 1)))
    p.stored.getLast? = some (sampleAt 64) ∧ sameGps (· == ·) (sampleAt 65) (sampleAt 64) = false ∧
      (p.generateSendPresence (· == ·) true 70 (sampleAt 65)).given = p.given := by
  decide +kernel

end Presence

end Easyio.Tracker
