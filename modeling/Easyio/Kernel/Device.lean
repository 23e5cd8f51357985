import Easyio.Runs.Partial
import Mathlib.Algebra.Group.Nat.Defs
import Mathlib.Data.Int.Basic

/-!
# Opening and closing devices

`rt_device_register`, `rt_device_open` and `rt_device_close` of `src/device.c`.

The handlers of the driver are given by what they return.  An open or a close counts as
successful if it comes to the test `result == RT_EOK || result == -RT_ENOSYS`, by which
the code sets `open_flag`, and passes it.

Both functions change `ref_count` before they call the driver and do not change it back
when the driver fails.
-/

namespace Easyio.Kernel

open BitVec Option Runs.Partial

/-- `struct rt_device`: its state, and which handlers are set. -/
structure Device where
  flag : BitVec 16
  openFlag : BitVec 16
  refCount : ℕ
  hasInit : Bool
  hasOpen : Bool
  hasClose : Bool

namespace Device

/-- `RT_EOK` -/
def eok : ℤ := 0

/-- `RT_ERROR` -/
def error : ℤ := 1

/-- `RT_ENOSYS` -/
def enosys : ℤ := 6

/-- `RT_EBUSY` -/
def ebusy : ℤ := 7

/-- `RT_DEVICE_FLAG_STANDALONE` -/
def flagStandalone : BitVec 16 := 0x008#16

/-- `RT_DEVICE_FLAG_ACTIVATED` -/
def flagActivated : BitVec 16 := 0x010#16

/-- `RT_DEVICE_OFLAG_CLOSE` -/
def oflagClose : BitVec 16 := 0x000#16

/-- `RT_DEVICE_OFLAG_OPEN` -/
def oflagOpen : BitVec 16 := 0x008#16

/-- `result == RT_EOK || result == -RT_ENOSYS` -/
def Succeeded (result : ℤ) : Prop := result = eok ∨ result = -enosys

instance : DecidablePred Succeeded := fun _ => instDecidableOr

/-- `rt_device_register`, of an object that was all zero before. -/
def rtDeviceRegister (hasInit hasOpen hasClose : Bool) (flags : BitVec 16) : Device :=
  ⟨flags, oflagClose, 0, hasInit, hasOpen, hasClose⟩

section

variable (dev : Device)

def Activated : Prop := dev.flag &&& flagActivated ≠ 0#16

instance (dev : Device) : Decidable dev.Activated := instDecidableNot

def Standalone : Prop := dev.flag &&& flagStandalone ≠ 0#16

instance (dev : Device) : Decidable dev.Standalone := instDecidableNot

def Opened : Prop := dev.openFlag &&& oflagOpen ≠ 0#16

instance (dev : Device) : Decidable dev.Opened := instDecidableNot

/-- The driver's `init` is called and fails. -/
def InitFails (onInit : ℤ) : Prop :=
  ¬dev.Activated ∧ dev.hasInit = true ∧ onInit ≠ eok

instance (dev : Device) (onInit : ℤ) : Decidable (dev.InitFails onInit) := instDecidableAnd

/-- `rt_device_open` comes to the driver's `open`. -/
def Reaches (onInit : ℤ) : Prop :=
  ¬dev.InitFails onInit ∧ ¬(dev.Standalone ∧ dev.Opened)

/-- The first part of `rt_device_open`: a device that is not activated is initialised. -/
def activate (onInit : ℤ) : ℤ × Device :=
  if dev.Activated then (eok, dev)
  else if dev.hasInit = true ∧ onInit ≠ eok then (onInit, dev)
  else (eok, { dev with flag := dev.flag ||| flagActivated })

/-- The second part, of a device that is activated; `none` when the assertion fails. -/
def claim (oflag : BitVec 16) (onOpen : ℤ) : Option (ℤ × Device) :=
  if dev.Standalone ∧ dev.Opened then some (-ebusy, dev)
  else if (dev.refCount + 1) % 2 ^ 8 = 0 then none
  else
    let result := if dev.hasOpen then onOpen else eok
    some (result, { dev with
        refCount := (dev.refCount + 1) % 2 ^ 8
        openFlag := if Succeeded result then oflag ||| oflagOpen else dev.openFlag })

/-- `rt_device_open`, when the handlers of the driver return `onInit` and `onOpen`. -/
def rtDeviceOpen (oflag : BitVec 16) (onInit onOpen : ℤ) : Option (ℤ × Device) :=
  let (result, dev) := dev.activate onInit
  if result ≠ eok then some (result, dev) else dev.claim oflag onOpen

/-- `rt_device_close`, when the handler of the driver returns `onClose`: the result,
whether the handler was called, and the device. -/
def rtDeviceClose (onClose : ℤ) : ℤ × Bool × Device :=
  if dev.refCount = 0 then (-error, false, dev)
  else if dev.refCount - 1 ≠ 0 then (eok, false, { dev with refCount := dev.refCount - 1 })
  else
    let result := if dev.hasClose then onClose else eok
    (result, dev.hasClose, { dev with
        refCount := dev.refCount - 1
        openFlag := if Succeeded result then oflagClose else dev.openFlag })

end

/-! ## Sequences of calls -/

/-- A call, with what the handlers of the driver return. -/
inductive Call where
  | open (oflag : BitVec 16) (onInit onOpen : ℤ)
  | close (onClose : ℤ)

end Device

/-- The device after a call, with the result of the call and whether the driver's `close`
has run. -/
structure DeviceRun where
  dev : Device
  result : ℤ
  driverClosed : Bool

namespace Device

def step (s : DeviceRun) : Call → Option DeviceRun
  | .open oflag onInit onOpen =>
    (s.dev.rtDeviceOpen oflag onInit onOpen).map fun (result, dev) => ⟨dev, result, false⟩
  | .close onClose =>
    let (result, driverClosed, dev) := s.dev.rtDeviceClose onClose
    some ⟨dev, result, driverClosed⟩

/-- The successful calls so far, and whether the last call was the close of the last open
of a device with a `close` handler. -/
structure Tally where
  opens : ℕ
  closes : ℕ
  due : Bool

def Tally.note (k : Tally) (s : DeviceRun) (c : Call) (s' : DeviceRun) : Tally :=
  match c with
  | .open _ onInit _ =>
    { k with
      opens := if Succeeded s'.result ∧ ¬s.dev.InitFails onInit then k.opens + 1 else k.opens
      due := false }
  | .close _ =>
    { k with
      closes := if Succeeded s'.result then k.closes + 1 else k.closes
      due := s.dev.hasClose && decide (k.opens = k.closes + 1) }

namespace Tally

variable {k : Tally} {s s' : DeviceRun} {oflag : BitVec 16} {onInit onOpen onClose : ℤ}

theorem note_open_success (h : Succeeded s'.result ∧ ¬s.dev.InitFails onInit) :
    k.note s (.open oflag onInit onOpen) s' = ⟨k.opens + 1, k.closes, false⟩ :=
  congrArg (Tally.mk · k.closes false) (if_pos h)

theorem note_open_failure (h : ¬(Succeeded s'.result ∧ ¬s.dev.InitFails onInit)) :
    k.note s (.open oflag onInit onOpen) s' = ⟨k.opens, k.closes, false⟩ :=
  congrArg (Tally.mk · k.closes false) (if_neg h)

theorem note_close_success (h : Succeeded s'.result) : k.note s (.close onClose) s' =
    ⟨k.opens, k.closes + 1, s.dev.hasClose && decide (k.opens = k.closes + 1)⟩ :=
  congrArg (Tally.mk k.opens · _) (if_pos h)

theorem note_close_failure (h : ¬Succeeded s'.result) : k.note s (.close onClose) s' =
    ⟨k.opens, k.closes, s.dev.hasClose && decide (k.opens = k.closes + 1)⟩ :=
  congrArg (Tally.mk k.opens · _) (if_neg h)

end Tally

/-- The device with its tally. -/
abbrev observed : DeviceRun × Tally → Call → Option (DeviceRun × Tally) := observing step Tally.note

/-- The reference count is the number of successful opens that are not closed, the
driver's `close` runs for the last of them, and the open flag says whether there are
any. -/
structure Counted (c : DeviceRun × Tally) : Prop where
  refs : c.1.dev.refCount + c.2.closes = c.2.opens
  driver : c.1.driverClosed = c.2.due
  flag : c.1.dev.Opened ↔ 0 < c.1.dev.refCount

/-- The driver's `open` and `close` succeed when they are called. -/
def DriverSucceeds (c : DeviceRun × Tally) : Call → Prop
  | .open _ onInit onOpen =>
    c.1.dev.Reaches onInit → c.1.dev.hasOpen = true → Succeeded onOpen
  | .close onClose => c.1.dev.refCount = 1 → c.1.dev.hasClose = true → Succeeded onClose

/-! ## What a call does -/

theorem succeeded_eok : Succeeded eok := Or.inl rfl

theorem not_succeeded_error : ¬Succeeded (-error) := by decide

theorem not_succeeded_ebusy : ¬Succeeded (-ebusy) := by decide

theorem succeeded_handler {has : Bool} {result : ℤ} :
    Succeeded (if has then result else eok) ↔ (has = true → Succeeded result) := by
  cases has
  · exact iff_of_true succeeded_eok nofun
  · exact (forall_const _).symm.trans (imp_congr (iff_of_true rfl trivial).symm Iff.rfl)

theorem opened_or (oflag : BitVec 16) : (oflag ||| oflagOpen) &&& oflagOpen ≠ 0#16 := by
  intro h
  have hbit := congrArg (fun b : BitVec 16 => b.getLsbD 3) h
  simp [oflagOpen] at hbit

variable {dev dev' : Device} {oflag : BitVec 16} {onInit onOpen onClose result : ℤ}

theorem activate_of_initFails (h : dev.InitFails onInit) : dev.activate onInit = (onInit, dev) := by
  rw [activate, if_neg h.1, if_pos h.2]

theorem activate_of_not_initFails (h : ¬dev.InitFails onInit) :
    ∃ flag, dev.activate onInit = (eok, { dev with flag }) ∧
      (({ dev with flag } : Device).Standalone ↔ dev.Standalone) := by
  unfold activate
  by_cases hactive : dev.Activated
  · exact ⟨dev.flag, if_pos hactive, Iff.rfl⟩
  · have hinit : ¬(dev.hasInit = true ∧ onInit ≠ eok) := fun hinit => h ⟨hactive, hinit⟩
    refine ⟨dev.flag ||| flagActivated, ?_, ?_⟩
    · rw [if_neg hactive, if_neg hinit]
    · unfold Standalone
      rw [and_or_distrib_right]
      exact not_congr (Eq.congr_left or_zero)

/-- An open that does not come to the driver's `open`. -/
structure Refused (dev : Device) (onInit result : ℤ) (dev' : Device) : Prop where
  reaches : ¬dev.Reaches onInit
  failed : ¬(Succeeded result ∧ ¬dev.InitFails onInit)
  refCount : dev'.refCount = dev.refCount
  openFlag : dev'.openFlag = dev.openFlag

/-- An open that comes to the driver's `open`. -/
structure Claimed (dev : Device) (oflag : BitVec 16) (onInit onOpen result : ℤ) (dev' : Device) :
    Prop where
  reaches : dev.Reaches onInit
  fits : (dev.refCount + 1) % 2 ^ 8 ≠ 0
  succeeded : Succeeded result ↔ (dev.hasOpen = true → Succeeded onOpen)
  refCount : dev'.refCount = (dev.refCount + 1) % 2 ^ 8
  openFlag : dev'.openFlag = if Succeeded result then oflag ||| oflagOpen else dev.openFlag

theorem rtDeviceOpen_spec (h : dev.rtDeviceOpen oflag onInit onOpen = some (result, dev')) :
    Refused dev onInit result dev' ∨ Claimed dev oflag onInit onOpen result dev' := by
  unfold rtDeviceOpen at h
  by_cases hinit : dev.InitFails onInit
  · rw [activate_of_initFails hinit] at h
    obtain ⟨rfl, rfl⟩ := Prod.mk.inj (some.inj ((if_pos hinit.2.2).symm.trans h))
    exact Or.inl ⟨fun hreaches => hreaches.1 hinit, fun hfailed => hfailed.2 hinit, rfl, rfl⟩
  · obtain ⟨flag, hactivate, hflag⟩ := activate_of_not_initFails hinit
    rw [hactivate] at h
    by_cases hbusy : ({ dev with flag } : Device).Standalone ∧ dev.Opened
    · obtain ⟨rfl, rfl⟩ := Prod.mk.inj (some.inj ((if_pos hbusy).symm.trans h))
      exact Or.inl ⟨fun hreaches => hreaches.2 ⟨hflag.mp hbusy.1, hbusy.2⟩,
        fun hfailed => not_succeeded_ebusy hfailed.1, rfl, rfl⟩
    · obtain ⟨hfits, h⟩ := ite_none_left_eq_some.mp ((if_neg hbusy).symm.trans h)
      obtain ⟨rfl, rfl⟩ := Prod.mk.inj (some.inj h)
      have hreaches : dev.Reaches onInit := ⟨hinit, fun hne => hbusy ⟨hflag.mpr hne.1, hne.2⟩⟩
      exact Or.inr ⟨hreaches, hfits, succeeded_handler, rfl, rfl⟩

theorem step_close (s : DeviceRun) : step s (.close onClose) =
    some ⟨(s.dev.rtDeviceClose onClose).2.2, (s.dev.rtDeviceClose onClose).1,
      (s.dev.rtDeviceClose onClose).2.1⟩ :=
  rfl

theorem rtDeviceClose_zero (h : dev.refCount = 0) :
    dev.rtDeviceClose onClose = (-error, false, dev) :=
  if_pos h

theorem rtDeviceClose_many (h : 1 < dev.refCount) :
    dev.rtDeviceClose onClose = (eok, false, { dev with refCount := dev.refCount - 1 }) := by
  rw [rtDeviceClose, if_neg (by omega), if_pos (by omega)]

/-- The close of the last open. -/
structure Released (dev : Device) (onClose : ℤ) (s' : DeviceRun) : Prop where
  succeeded : Succeeded s'.result ↔ (dev.hasClose = true → Succeeded onClose)
  driver : s'.driverClosed = dev.hasClose
  refCount : s'.dev.refCount = 0
  openFlag : Succeeded s'.result → s'.dev.openFlag = oflagClose

theorem step_close_last {s s' : DeviceRun} (h : s.dev.refCount = 1)
    (hs : step s (.close onClose) = some s') : Released s.dev onClose s' := by
  have hclose : s.dev.rtDeviceClose onClose = _ := (if_neg (by omega)).trans (if_neg (by omega))
  rw [step_close, hclose] at hs
  obtain rfl := some.inj hs
  refine ⟨succeeded_handler, rfl, ?_, fun hsucceeded => if_pos hsucceeded⟩
  change s.dev.refCount - 1 = 0
  omega

/-! ## Runs -/

section Runs

variable {c c' : DeviceRun × Tally} {s' : DeviceRun}

/-- What the runs keep: `ref_count` is an `rt_uint8_t`. -/
structure Sound (c : DeviceRun × Tally) : Prop extends Counted c where
  bound : c.1.dev.refCount < 2 ^ 8

theorem sound_register (hasInit hasOpen hasClose : Bool) (flags : BitVec 16) (result : ℤ) :
    Sound (⟨rtDeviceRegister hasInit hasOpen hasClose flags, result, false⟩, ⟨0, 0, false⟩) :=
  ⟨⟨rfl, rfl, by simp [Opened, rtDeviceRegister, oflagClose]⟩, Nat.two_pow_pos 8⟩

variable (hc : Sound c)
include hc

theorem Sound.refused (h : Refused c.1.dev onInit s'.result s'.dev)
    (hdriver : s'.driverClosed = false) :
    Sound (s', c.2.note c.1 (.open oflag onInit onOpen) s') := by
  rw [Tally.note_open_failure h.failed]
  refine ⟨⟨?_, hdriver, ?_⟩, ?_⟩
  · exact h.refCount ▸ hc.refs
  · unfold Opened
    rw [h.openFlag, h.refCount]
    exact hc.flag
  · exact h.refCount ▸ hc.bound

/-- The driver's `open` is called: the count goes up whatever it returns. -/
theorem Sound.claimed_iff (s' : DeviceRun)
    (h : Claimed c.1.dev oflag onInit onOpen s'.result s'.dev) (hdriver : s'.driverClosed = false) :
    (Succeeded s'.result → Sound (s', c.2.note c.1 (.open oflag onInit onOpen) s')) ∧
      (Counted (s', c.2.note c.1 (.open oflag onInit onOpen) s') → Succeeded s'.result) := by
  have hcount : s'.dev.refCount = c.1.dev.refCount + 1 := by
    have := h.refCount
    have := h.fits
    have := hc.bound
    omega
  have hrefs := hc.refs
  refine ⟨fun hsucceeded => ?_, fun hcounted => ?_⟩
  · rw [Tally.note_open_success ⟨hsucceeded, h.reaches.1⟩]
    refine ⟨⟨?_, hdriver, ?_⟩, ?_⟩
    · change s'.dev.refCount + c.2.closes = c.2.opens + 1
      omega
    · refine iff_of_true ?_ (hcount ▸ Nat.succ_pos _)
      unfold Opened
      rw [h.openFlag, if_pos hsucceeded]
      exact opened_or oflag
    · exact h.refCount ▸ Nat.mod_lt _ (Nat.two_pow_pos 8)
  · by_contra hfailed
    have hcounted := hcounted.refs
    rw [Tally.note_open_failure fun hboth => hfailed hboth.1] at hcounted
    change s'.dev.refCount + c.2.closes = c.2.opens at hcounted
    omega

theorem Sound.close_other (hother : c.1.dev.refCount ≠ 1)
    (hs : step c.1 (.close onClose) = some s') : Sound (s', c.2.note c.1 (.close onClose) s') := by
  have hrefs := hc.refs
  have hdue : decide (c.2.opens = c.2.closes + 1) = false := decide_eq_false (by omega)
  rw [step_close] at hs
  rcases Nat.eq_zero_or_pos c.1.dev.refCount with hzero | hpos
  · rw [rtDeviceClose_zero hzero] at hs
    obtain rfl := some.inj hs
    rw [Tally.note_close_failure not_succeeded_error, hdue, Bool.and_false]
    exact ⟨⟨hrefs, rfl, hc.flag⟩, hc.bound⟩
  · rw [rtDeviceClose_many (by omega)] at hs
    obtain rfl := some.inj hs
    rw [Tally.note_close_success succeeded_eok, hdue, Bool.and_false]
    refine ⟨⟨?_, rfl, iff_of_true (hc.flag.mpr hpos) ?_⟩, ?_⟩
    · change c.1.dev.refCount - 1 + (c.2.closes + 1) = c.2.opens
      omega
    · change 0 < c.1.dev.refCount - 1
      omega
    · exact Nat.lt_of_le_of_lt (Nat.sub_le ..) hc.bound

/-- The driver's `close` is called: the count is 0 whatever it returns. -/
theorem Sound.close_last_iff (hlast : c.1.dev.refCount = 1)
    (h : Released c.1.dev onClose s') :
    (Succeeded s'.result → Sound (s', c.2.note c.1 (.close onClose) s')) ∧
      (Counted (s', c.2.note c.1 (.close onClose) s') → Succeeded s'.result) := by
  have hrefs := hc.refs
  have hcount := h.refCount
  have hdue : decide (c.2.opens = c.2.closes + 1) = true := decide_eq_true (by omega)
  refine ⟨fun hsucceeded => ?_, fun hcounted => ?_⟩
  · rw [Tally.note_close_success hsucceeded, hdue, Bool.and_true]
    refine ⟨⟨?_, h.driver, iff_of_false ?_ (Nat.not_lt.mpr (Nat.le_of_eq hcount))⟩, ?_⟩
    · change s'.dev.refCount + (c.2.closes + 1) = c.2.opens
      omega
    · exact fun hopened => hopened (h.openFlag hsucceeded ▸ zero_and)
    · exact Nat.lt_of_le_of_lt (Nat.le_of_eq hcount) (Nat.two_pow_pos 8)
  · by_contra hfailed
    have hcounted := hcounted.refs
    rw [Tally.note_close_failure hfailed] at hcounted
    change s'.dev.refCount + c.2.closes = c.2.opens at hcounted
    omega

/-- A call keeps the count right if and only if the driver succeeds. -/
theorem Sound.step {e : Call} (hobserved : observed c e = some c') :
    (DriverSucceeds c e → Sound c') ∧ (Counted c' → DriverSucceeds c e) := by
  obtain ⟨s', hs, rfl⟩ := map_eq_some_iff.mp hobserved
  cases e with
  | «open» oflag onInit onOpen =>
    obtain ⟨⟨result, dev'⟩, hopen, rfl⟩ := map_eq_some_iff.mp hs
    rcases rtDeviceOpen_spec hopen with h | h
    · exact ⟨fun _ => hc.refused h rfl, fun _ hreaches => absurd hreaches h.reaches⟩
    · obtain ⟨hkeep, hbreak⟩ := hc.claimed_iff ⟨dev', result, false⟩ h rfl
      exact ⟨fun hdriver => hkeep (h.succeeded.mpr (hdriver h.reaches)),
        fun hcounted _ => h.succeeded.mp (hbreak hcounted)⟩
  | close onClose =>
    by_cases hlast : c.1.dev.refCount = 1
    · have h := step_close_last hlast hs
      obtain ⟨hkeep, hbreak⟩ := hc.close_last_iff hlast h
      exact ⟨fun hdriver => hkeep (h.succeeded.mpr (hdriver hlast)),
        fun hcounted _ => h.succeeded.mp (hbreak hcounted)⟩
    · exact ⟨fun _ => hc.close_other hlast hs, fun _ hlast' => absurd hlast' hlast⟩

end Runs

/-- After every call of a sequence, on any registered device, the reference count, the
calls of the driver's `close` and the open flag are right, if and only if no `open` or
`close` of the driver fails. -/
theorem device_counted_iff (hasInit hasOpen hasClose : Bool) (flags : BitVec 16)
    (calls : List Call) :
    Always observed Counted
        (⟨rtDeviceRegister hasInit hasOpen hasClose flags, eok, false⟩, ⟨0, 0, false⟩) calls ↔
      Meets observed DriverSucceeds
        (⟨rtDeviceRegister hasInit hasOpen hasClose flags, eok, false⟩, ⟨0, 0, false⟩) calls :=
  always_iff_meets (fun _ hc => hc.toCounted) (fun _ _ _ hc hdriver hs => (hc.step hs).1 hdriver)
    (fun _ _ _ hc hs => (hc.step hs).2) (sound_register ..)

/-- An open that the driver refuses leaves a reference behind. -/
theorem device_counts_failed_open :
    ¬Always observed Counted
      (⟨rtDeviceRegister false true true 0#16, eok, false⟩, ⟨0, 0, false⟩)
      [.open 0#16 eok (-error)] := by
  intro h
  have hrefs := (h.2 _ rfl).head.refs
  exact absurd hrefs (by decide)

end Device

end Easyio.Kernel
