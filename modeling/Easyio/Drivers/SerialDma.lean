import Easyio.Drivers.DataQueueFifo
import Easyio.Runs.Partial

/-!
# Serial output by DMA

`rt_serial_write` with `RT_DEVICE_FLAG_DMA_TX` and `rt_hw_serial_dma_tx_isr` of
`components/drivers/serial/serial.c`, over the data queue `tx_dq`.

A writer pushes its buffer, then tests and sets `dma_flag`, and then calls `dma_transmit`
if the flag was not set.  Each of these is a step, and so is the interrupt handler; an
interrupt comes after each transfer.  The push may wait for room, as `rt_data_queue_push`
does.

The writer that finds the flag clear hands over its own buffer, not the first one of the
queue.  If that is not the same, because another writer has pushed before or because the
handler has already sent it, a buffer is sent twice and another one may not be sent at
all.  Otherwise the queue and the transfers are always in one of three phases
(`Phase`), and the buffers are sent in the order of the pushes.
-/

namespace Easyio.Drivers

open Function List Option Kernel Runs.Partial

/-- `RT_SERIAL_TX_DATAQUEUE_SIZE` -/
def serialTxDataqueueSize : ℕ := 2048

/-- `RT_SERIAL_TX_DATAQUEUE_LWM` -/
def serialTxDataqueueLwm : ℕ := 30

namespace Serial

/-- Where a thread is in `rt_serial_write`. -/
inductive Pc where
  | idle
  /-- in `rt_data_queue_push` -/
  | pushing (item : DataItem)
  /-- before the test of `dma_flag` -/
  | pushed (item : DataItem)
  /-- before `dma_transmit` -/
  | starting (item : DataItem)
  deriving DecidableEq

/-- Steps of the writers, of their timers, and of the interrupt handler, which runs as
`h`. -/
inductive Event where
  | write (t : ℕ) (item : DataItem)
  | run (t : ℕ)
  | timeout (t : ℕ)
  | test (t : ℕ)
  | transmit (t : ℕ)
  | isr (h : ℕ)

end Serial

/-- `struct rt_serial_device` with the threads that write, the number of transfers that
are not over, and all buffers that were pushed and that were handed to `dma_transmit`. -/
structure Serial where
  txDq : DataSystem
  dmaFlag : Bool
  pc : ℕ → Serial.Pc
  active : ℕ
  accepted : List DataItem
  sent : List DataItem

namespace Serial

/-- `rt_serial_init` -/
def rtSerialInit (queue : ℕ → DataItem) (thread : ℕ → Waiter) (masked : ℕ → Bool) : Serial where
  txDq := .init (.init queue serialTxDataqueueSize serialTxDataqueueLwm false) thread masked
  dmaFlag := false
  pc := fun _ => .idle
  active := 0
  accepted := []
  sent := []

section

variable (s : Serial)

def goto (t : ℕ) (pc : Pc) : Serial := { s with pc := update s.pc t pc }

/-- `serial->ops->dma_transmit` -/
def dmaTransmit (item : DataItem) : Serial :=
  { s with active := s.active + 1, sent := s.sent ++ [item] }

section

variable (t : ℕ) (item : DataItem)

/-- After a step of the push. -/
def pushStep (txDq : DataSystem) : Serial :=
  match txDq.replies with
  | [] => { s with txDq }.goto t (.pushing item)
  | .eok :: _ => { s with txDq, accepted := s.accepted ++ [item] }.goto t (.pushed item)
  | _ => { s with txDq }.goto t .idle

/-- `rt_serial_write`, up to the end of the push or its wait. -/
def rtSerialWrite : Option Serial :=
  if item.dataSize = 0 then some s
  else (s.txDq.step (.push t item 20)).map (s.pushStep t item)

/-- The test of `dma_flag` after the push. -/
def testFlag : Serial :=
  if s.dmaFlag then s.goto t .idle else { s with dmaFlag := true }.goto t (.starting item)

end

/-- The handler after `rt_data_queue_peak`. -/
def next : DataReply → Serial
  | .item item => s.dmaTransmit item
  | _ => { s with dmaFlag := false }

/-- `rt_hw_serial_dma_tx_isr` -/
def rtHwSerialDmaTxIsr (h : ℕ) : Option Serial :=
  (s.txDq.step (.pop h 0)).bind fun popped =>
    (popped.step (.peak h)).map fun txDq =>
      { s with txDq, active := s.active - 1 }.next (txDq.replies.headD .eempty)

def step (s : Serial) : Event → Option Serial
  | .write t item => if s.pc t = .idle then s.rtSerialWrite t item else none
  | .run t =>
    match s.pc t with
    | .pushing item => (s.txDq.step (.run t)).map (s.pushStep t item)
    | _ => none
  | .timeout t => (s.txDq.step (.timeout t)).map fun txDq => { s with txDq }
  | .test t =>
    match s.pc t with
    | .pushed item => some (s.testFlag t item)
    | _ => none
  | .transmit t =>
    match s.pc t with
    | .starting item => some ((s.dmaTransmit item).goto t .idle)
    | _ => none
  | .isr h => if s.active = 0 then none else s.rtHwSerialDmaTxIsr h

/-! ## What is meant -/

/-- No writer is between its push and its return, and no transfer is going on. -/
def Quiet : Prop :=
  s.active = 0 ∧ ∀ t item, s.pc t ≠ .pushed item ∧ s.pc t ≠ .starting item

end

/-- The buffers were handed over in the order in which they were pushed, one transfer at
a time, and all of them when nothing more will happen by itself. -/
structure InOrder (s : Serial) : Prop where
  sent : s.sent <+: s.accepted
  single : s.active ≤ 1
  all : s.Quiet → s.sent = s.accepted

/-- The queue that `t` will push to looks full if it is. -/
def LooksFull (dq : DataQueue) : Prop :=
  (dq.putIndex + 2 ^ 16 - dq.getIndex) % 2 ^ 16 = dq.size → dq.Full

/-- A push meets a queue that looks full if it is, and a writer that finds `dma_flag`
clear finds its own buffer first in the queue. -/
def InTurn (s : Serial) : Event → Prop
  | .write _ _ | .run _ => LooksFull s.txDq.dq
  | .test t =>
    match s.pc t with
    | .pushed item => s.dmaFlag = false → ¬s.txDq.dq.Empty ∧ s.txDq.dq.front = item
    | _ => True
  | _ => True

/-! ## The three phases -/

variable {s s' : Serial} {t : ℕ} {item : DataItem} {items : List DataItem} {pc : Pc}
  {txDq : DataSystem} {e : Event}

/-- No thread is before `dma_transmit`. -/
def Unstarted (s : Serial) : Prop := ∀ t item, s.pc t ≠ .starting item

/-- What the flag and the writers have to do with the items of the queue. -/
inductive Phase (s : Serial) (items : List DataItem) : Prop where
  /-- nothing is being sent; a writer will start if there are items -/
  | rest (flag : s.dmaFlag = false) (active : s.active = 0) (unstarted : s.Unstarted)
      (accepted : s.accepted = s.sent ++ items)
      (later : items ≠ [] → ∃ t item, s.pc t = .pushed item)
  /-- one writer is about to send the first item -/
  | start (t : ℕ) (first : DataItem) (others : List DataItem) (flag : s.dmaFlag = true)
      (active : s.active = 0) (pc : s.pc t = .starting first)
      (only : ∀ u item, s.pc u = .starting item → u = t) (head : items = first :: others)
      (accepted : s.accepted = s.sent ++ items)
  /-- the first item is being sent -/
  | busy (first : DataItem) (others : List DataItem) (flag : s.dmaFlag = true)
      (active : s.active = 1) (unstarted : s.Unstarted) (head : items = first :: others)
      (accepted : s.accepted = s.sent ++ others)

/-- A thread waits in the queue only for its push. -/
def Fits : DataSystem.Pc → Pc → Prop
  | .idle, _ => True
  | .push item _ _, pc => pc = .pushing item
  | .pop _ _, _ => False

/-- What holds in all states. -/
structure Orderly (s : Serial) : Prop where
  fits : ∀ t, Fits (s.txDq.pc t) (s.pc t)
  phase : ∃ taken items, s.txDq.dq.Holds taken items ∧ Phase s items

theorem Phase.inOrder (h : Phase s items) : s.InOrder := by
  cases h with
  | rest flag active unstarted accepted later =>
    refine ⟨⟨items, accepted.symm⟩, by omega, fun hquiet => ?_⟩
    have hnone : items = [] := by
      by_contra hitems
      obtain ⟨t, item, hpc⟩ := later hitems
      exact (hquiet.2 t item).1 hpc
    rw [accepted, hnone, append_nil]
  | start t first others flag active pc only head accepted =>
    exact ⟨⟨items, accepted.symm⟩, by omega, fun hquiet => absurd pc (hquiet.2 t first).2⟩
  | busy first others flag active unstarted head accepted =>
    exact ⟨⟨others, accepted.symm⟩, by omega, fun hquiet => absurd hquiet.1 (by omega)⟩

/-- Only the places of the writers have changed, and none of those that matter. -/
theorem Phase.of_pc (h : Phase s items) (hflag : s'.dmaFlag = s.dmaFlag)
    (hactive : s'.active = s.active) (haccepted : s'.accepted = s.accepted)
    (hsent : s'.sent = s.sent) (hpc : ∀ u item, s'.pc u = .starting item ↔ s.pc u = .starting item)
    (hpushed : ∀ u item, s.pc u = .pushed item → s.dmaFlag = false → s'.pc u = .pushed item) :
    Phase s' items := by
  cases h with
  | rest flag active unstarted accepted later =>
    refine .rest (hflag.trans flag) (hactive.trans active)
      (fun u item hu => unstarted u item ((hpc u item).mp hu)) ?_ fun hitems => ?_
    · rw [haccepted, hsent, accepted]
    · obtain ⟨u, item, hu⟩ := later hitems
      exact ⟨u, item, hpushed u item hu flag⟩
  | start t first others flag active pc only head accepted =>
    refine .start t first others (hflag.trans flag) (hactive.trans active)
      ((hpc t first).mpr pc) (fun u item hu => only u item ((hpc u item).mp hu)) head ?_
    rw [haccepted, hsent, accepted]
  | busy first others flag active unstarted head accepted =>
    refine .busy first others (hflag.trans flag) (hactive.trans active)
      (fun u item hu => unstarted u item ((hpc u item).mp hu)) head ?_
    rw [haccepted, hsent, accepted]

theorem fits_update {place : DataSystem.Pc} (h : ∀ u, Fits (s.txDq.pc u) (s.pc u))
    (hdata : txDq.pc = update s.txDq.pc t place) (pc : Pc) (hplace : Fits place pc)
    (u : ℕ) : Fits (txDq.pc u) (update s.pc t pc u) := by
  rw [hdata]
  rcases eq_or_ne u t with rfl | hu
  · rwa [update_self, update_self]
  · rw [update_of_ne hu, update_of_ne hu]
    exact h u

theorem fits_of_not_pushing (h : ∀ u, Fits (s.txDq.pc u) (s.pc u))
    (hpc : ∀ item, s.pc t ≠ .pushing item) (pc : Pc) (u : ℕ) :
    Fits (s.txDq.pc u) (update s.pc t pc u) := by
  have hidle : s.txDq.pc t = .idle := by
    have hfit := h t
    cases hplace : s.txDq.pc t with
    | idle => rfl
    | push item timeout entry =>
      rw [hplace] at hfit
      exact absurd hfit (hpc item)
    | pop timeout entry =>
      rw [hplace] at hfit
      exact hfit.elim
  have hdata : s.txDq.pc = update s.txDq.pc t .idle := by
    rw [← hidle, update_eq_self]
  exact fits_update h hdata pc trivial u

theorem starting_update (hold : ∀ item, s.pc t ≠ .starting item) (pc : Pc)
    (hnew : ∀ item, pc ≠ .starting item) (u : ℕ) (item : DataItem) :
    update s.pc t pc u = .starting item ↔ s.pc u = .starting item := by
  rcases eq_or_ne u t with rfl | hu
  · rw [update_self]
    exact iff_of_false (hnew item) (hold item)
  · rw [update_of_ne hu]

theorem pushed_update (hold : ∀ item, s.pc t ≠ .pushed item) (u : ℕ) (item : DataItem)
    (hu : s.pc u = .pushed item) : update s.pc t pc u = .pushed item := by
  rcases eq_or_ne u t with rfl | hne
  · exact absurd hu (hold item)
  · rwa [update_of_ne hne]

/-! ## Steps -/

/-- A thread that is outside of `rt_serial_write` or in its push. -/
def Before (s : Serial) (t : ℕ) : Prop := ∀ item, s.pc t ≠ .pushed item ∧ s.pc t ≠ .starting item

/-- An item more in the queue, and a writer that has pushed it. -/
theorem Phase.store (h : Phase s items) (hbefore : s.Before t) :
    Phase ({ s with txDq, accepted := s.accepted ++ [item] }.goto t (.pushed item))
      (items ++ [item]) := by
  have hstart := starting_update (fun item => (hbefore item).2) (.pushed item)
    fun _ => Pc.noConfusion
  cases h with
  | rest flag active unstarted accepted later =>
    refine .rest flag active (fun u x hu => unstarted u x ((hstart u x).mp hu)) ?_ fun _ =>
      ⟨t, item, update_self ..⟩
    show s.accepted ++ [item] = s.sent ++ _
    rw [accepted, append_assoc]
  | start u first others flag active pc only head accepted =>
    refine .start u first (others ++ [item]) flag active ((hstart u first).mpr pc)
      (fun v x hv => only v x ((hstart v x).mp hv)) (by rw [head, cons_append]) ?_
    show s.accepted ++ [item] = s.sent ++ _
    rw [accepted, append_assoc]
  | busy first others flag active unstarted head accepted =>
    refine .busy first (others ++ [item]) flag active
      (fun u x hu => unstarted u x ((hstart u x).mp hu)) (by rw [head, cons_append]) ?_
    show s.accepted ++ [item] = s.sent ++ _
    rw [accepted, append_assoc]

theorem Phase.goto (h : Phase s items) (hbefore : s.Before t)
    (hpc : ∀ item, pc ≠ .starting item) : Phase ({ s with txDq }.goto t pc) items :=
  h.of_pc rfl rfl rfl rfl (starting_update (fun item => (hbefore item).2) pc hpc)
    fun u item hu _ => pushed_update (fun item => (hbefore item).1) u item hu

theorem Orderly.pushStep (hs : s.Orderly) (hbefore : s.Before t) (hlooks : LooksFull s.txDq.dq)
    (h : DataSystem.PushStep s.txDq txDq t item) : (s.pushStep t item txDq).Orderly := by
  obtain ⟨hfits, taken, items, hholds, hphase⟩ := hs
  cases h with
  | stored looks ends =>
    have hreplies : txDq.replies = [.eok] := ends.replies
    have hlen : items.length < s.txDq.dq.size := by
      refine lt_of_le_of_ne hholds.room fun heq => looks (hlooks ?_)
      rw [hholds.stored, heq]
    have hfits' := fits_update hfits ends.pc (.pushed item) trivial
    rw [Serial.pushStep, hreplies]
    exact ⟨hfits', taken, _, (hholds.store hlen item).of_ring ends.ring, hphase.store hbefore⟩
  | waits timeout entry ends =>
    have hreplies : txDq.replies = [] := ends.replies
    have hfits' := fits_update hfits ends.pc (.pushing item) rfl
    rw [Serial.pushStep, hreplies]
    exact ⟨hfits', taken, items, hholds.of_ring ends.ring,
      hphase.goto hbefore fun _ => Pc.noConfusion⟩
  | fails err ends =>
    have hreplies : txDq.replies = [.failed err] := ends.replies
    have hfits' := fits_update hfits ends.pc .idle trivial
    rw [Serial.pushStep, hreplies]
    exact ⟨hfits', taken, items, hholds.of_ring ends.ring,
      hphase.goto hbefore fun _ => Pc.noConfusion⟩

theorem Orderly.testFlag (hs : s.Orderly) (hpc : s.pc t = .pushed item)
    (hturn : s.dmaFlag = false → ¬s.txDq.dq.Empty ∧ s.txDq.dq.front = item) :
    (s.testFlag t item).Orderly := by
  obtain ⟨hfits, taken, items, hholds, hphase⟩ := hs
  have hfits' := fits_of_not_pushing hfits (t := t) (by simp [hpc])
  unfold Serial.testFlag
  split
  · next hflag =>
      refine ⟨hfits' .idle, taken, items, hholds, ?_⟩
      refine hphase.of_pc rfl rfl rfl rfl (starting_update (by simp [hpc]) .idle fun _ =>
        Pc.noConfusion) fun u x hu hclear => ?_
      exact absurd hclear (by simp [hflag])
  · next hflag =>
      obtain ⟨hempty, hfront⟩ := hturn (Bool.eq_false_iff.mpr hflag)
      refine ⟨hfits' (.starting item), taken, items, hholds, ?_⟩
      cases items with
      | nil => exact absurd (hholds.empty_iff.mpr rfl) hempty
      | cons first others =>
        have hfirst : first = item := hholds.front.symm.trans hfront
        subst hfirst
        cases hphase with
        | rest flag active unstarted accepted later =>
          refine .start t first others rfl active (update_self ..)
            (fun u x hu => ?_) rfl accepted
          by_contra hne
          have hu : update s.pc t _ u = .starting x := hu
          rw [update_of_ne hne] at hu
          exact unstarted u x hu
        | start u x others' flag | busy x others' flag => exact absurd flag hflag

theorem Orderly.transmit (hs : s.Orderly) (hpc : s.pc t = .starting item) :
    ((s.dmaTransmit item).goto t .idle).Orderly := by
  obtain ⟨hfits, taken, items, hholds, hphase⟩ := hs
  refine ⟨fits_of_not_pushing hfits (by simp [hpc]) .idle, taken, items, hholds, ?_⟩
  cases hphase with
  | rest flag active unstarted | busy first others flag active unstarted =>
    exact absurd hpc (unstarted t item)
  | start u first others flag active pc only head accepted =>
    have hut := only t item hpc
    subst hut
    have hfirst : item = first := by
      rw [pc] at hpc
      exact (Pc.starting.inj hpc).symm
    subst hfirst
    refine .busy item others flag (congrArg (· + 1) active) (fun u x hu => ?_) head ?_
    · have hu : update s.pc t .idle u = .starting x := hu
      rcases eq_or_ne u t with rfl | hne
      · rw [update_self] at hu
        cases hu
      · rw [update_of_ne hne] at hu
        exact hne (only u x hu)
    · show s.accepted = s.sent ++ [item] ++ others
      rw [accepted, head, append_assoc, singleton_append]

theorem Phase.busy_of_active (h : Phase s items) (hactive : s.active ≠ 0) :
    ∃ first others, s.dmaFlag = true ∧ s.active = 1 ∧ s.Unstarted ∧ items = first :: others ∧
      s.accepted = s.sent ++ others := by
  cases h with
  | rest flag active | start t first others flag active => exact absurd active hactive
  | busy first others flag active unstarted head accepted =>
    exact ⟨first, others, flag, active, unstarted, head, accepted⟩

/-- The handler takes the item that was sent off the queue, and sends the next one. -/
theorem Orderly.isr {h : ℕ} (hs : s.Orderly) (hactive : s.active ≠ 0)
    (hisr : s.rtHwSerialDmaTxIsr h = some s') : s'.Orderly := by
  obtain ⟨hfits, taken, items, hholds, hphase⟩ := hs
  obtain ⟨first, others, hflag, hone, hunstarted, rfl, haccepted⟩ := hphase.busy_of_active hactive
  obtain ⟨popped, hpop, hrest⟩ := bind_eq_some_iff.mp hisr
  obtain ⟨txDq, hpeak, rfl⟩ := map_eq_some_iff.mp hrest
  have hpopped := (DataSystem.pop_ends hpop).resolve_left fun hempty =>
    cons_ne_nil _ _ (hholds.empty_iff.mp hempty.1)
  have hholds' := hholds.advance.of_ring hpopped.2.ring
  have hends := DataSystem.peak_ends hpeak
  have hpc : txDq.pc = update s.txDq.pc h .idle := by
    rw [hends.pc, show popped.pc = _ from hpopped.2.pc]
    exact update_idem ..
  have hfits' : ∀ u, Fits (txDq.pc u) (s.pc u) := by
    intro u
    have hfit := fits_update hfits hpc (s.pc h) trivial u
    rwa [update_eq_self] at hfit
  have hreplies : txDq.replies =
      [if popped.dq.Empty then .eempty else .item popped.dq.front] := hends.replies
  have hqueue := hholds'.of_ring hends.ring
  rw [hreplies]
  cases others with
  | nil =>
    rw [if_pos (hholds'.empty_iff.mpr rfl)]
    refine ⟨hfits', taken + 1, [], hqueue, .rest rfl ?_ hunstarted haccepted
      fun hne => absurd rfl hne⟩
    show s.active - 1 = 0
    omega
  | cons item others =>
    rw [if_neg fun hempty => cons_ne_nil _ _ (hholds'.empty_iff.mp hempty), hholds'.front]
    refine ⟨hfits', taken + 1, item :: others, hqueue,
      .busy item others hflag ?_ hunstarted rfl ?_⟩
    · show s.active - 1 + 1 = 1
      omega
    · show s.accepted = s.sent ++ [item] ++ others
      rw [haccepted, append_assoc, singleton_append]

/-- A thread that runs again in its push has waited for that push. -/
theorem Orderly.place_of_run (hs : s.Orderly) (hpc : s.pc t = .pushing item)
    (hrun : s.txDq.step (.run t) = some txDq) :
    ∃ timeout entry, s.txDq.pc t = .push item timeout entry := by
  have hfit := hs.fits t
  cases hplace : s.txDq.pc t with
  | idle => simp [DataSystem.step, DataSystem.resumed, hplace] at hrun
  | push x timeout entry =>
    rw [hplace, hpc] at hfit
    exact ⟨timeout, entry, by rw [Pc.pushing.inj hfit]⟩
  | pop timeout entry =>
    rw [hplace] at hfit
    exact hfit.elim

theorem Orderly.step (hs : s.Orderly) (hguard : s.InTurn e) (h : s.step e = some s') :
    s'.Orderly := by
  cases e with
  | write t item =>
    obtain ⟨hidle, h⟩ := ite_none_right_eq_some.mp h
    unfold rtSerialWrite at h
    split at h
    · exact some.inj h ▸ hs
    · obtain ⟨txDq, hpush, rfl⟩ := map_eq_some_iff.mp h
      exact hs.pushStep (by simp [Before, hidle]) hguard (.of_push hpush)
  | run t =>
    simp only [step] at h
    split at h
    · next item hpc =>
        obtain ⟨txDq, hrun, rfl⟩ := map_eq_some_iff.mp h
        obtain ⟨timeout, entry, hplace⟩ := hs.place_of_run hpc hrun
        exact hs.pushStep (by simp [Before, hpc]) hguard (.of_run hplace hrun)
    · cases h
  | timeout t =>
    obtain ⟨txDq, htimeout, rfl⟩ := map_eq_some_iff.mp h
    obtain ⟨-, htimeout⟩ := ite_none_right_eq_some.mp htimeout
    obtain ⟨hfits, taken, items, hholds, hphase⟩ := hs
    rw [← some.inj htimeout]
    exact ⟨hfits, taken, items, hholds.of_ring rfl, hphase.of_pc rfl rfl rfl rfl
      (fun _ _ => Iff.rfl) fun _ _ hu _ => hu⟩
  | test t =>
    simp only [step] at h
    simp only [InTurn] at hguard
    split at h
    · next item hpc =>
        rw [← some.inj h]
        simp only [hpc] at hguard
        exact hs.testFlag hpc hguard
    · cases h
  | transmit t =>
    simp only [step] at h
    split at h
    · next item hpc =>
        rw [← some.inj h]
        exact hs.transmit hpc
    · cases h
  | isr h' =>
    obtain ⟨hactive, h⟩ := ite_none_left_eq_some.mp h
    exact hs.isr hactive h

theorem orderly_init (queue : ℕ → DataItem) (thread : ℕ → Waiter) (masked : ℕ → Bool) :
    (rtSerialInit queue thread masked).Orderly :=
  ⟨fun _ => trivial, 0, [], .init (k := 11) queue serialTxDataqueueLwm false (by decide),
    .rest rfl rfl (fun _ _ => Pc.noConfusion) rfl fun hne => absurd rfl hne⟩

end Serial

open Serial

/-- If every writer that starts a transfer finds its own buffer first in the queue, and no
push meets a full queue that does not look full, then the buffers are sent in the order of
the pushes, each once and one at a time. -/
theorem serial_dma_in_order (queue : ℕ → DataItem) (thread : ℕ → Waiter) (masked : ℕ → Bool)
    (events : List Event) (hturn : Meets step InTurn (rtSerialInit queue thread masked) events) :
    Always step InOrder (rtSerialInit queue thread masked) events := by
  have horderly : Always step Orderly (rtSerialInit queue thread masked) events :=
    hturn.always (fun s e s' hs hguard h => hs.step hguard h) (orderly_init queue thread masked)
  exact horderly.imp fun s hs => by
    obtain ⟨-, -, items, -, hphase⟩ := hs
    exact hphase.inOrder

/-- Two writers, and an interrupt after each of their buffers. -/
theorem serial_dma_in_order_two :
    let start := rtSerialInit (fun _ => ⟨0, 0⟩) (fun _ => ⟨.eok, false⟩) fun _ => false
    let events : List Event := [.write 1 ⟨4096, 8⟩, .write 2 ⟨8192, 8⟩, .test 1, .transmit 1,
      .test 2, .isr 0, .isr 0]
    (run step start events).map (·.sent) = some [⟨4096, 8⟩, ⟨8192, 8⟩] ∧
      Meets step InTurn start events ∧ Always step InOrder start events := by
  have hmeets : Meets step InTurn
      (rtSerialInit (fun _ => ⟨0, 0⟩) (fun _ => ⟨.eok, false⟩) fun _ => false)
      [.write 1 ⟨4096, 8⟩, .write 2 ⟨8192, 8⟩, .test 1, .transmit 1, .test 2, .isr 0, .isr 0] :=
    .cons rfl (fun hfull => absurd hfull (by decide)) <|
      .cons rfl (fun hfull => absurd hfull (by decide)) <|
      .cons rfl (fun _ => ⟨by decide, by decide⟩) <| .cons rfl trivial <|
      .cons rfl (fun hflag => absurd hflag (by decide)) <|
      .cons rfl trivial <| .cons rfl trivial trivial
  exact ⟨by decide, hmeets, serial_dma_in_order _ _ _ _ hmeets⟩

/-- The second of two writers starts first: its buffer is sent in the place of the
other. -/
theorem serial_dma_out_of_turn : ¬Always step InOrder
    (rtSerialInit (fun _ => ⟨0, 0⟩) (fun _ => ⟨.eok, false⟩) fun _ => false)
    [.write 1 ⟨4096, 8⟩, .write 2 ⟨8192, 8⟩, .test 2, .transmit 2] := by
  intro h
  have hsent := ((((h.2 _ rfl).2 _ rfl).2 _ rfl).2 _ rfl).head.sent
  exact absurd hsent (by decide)

end Easyio.Drivers
