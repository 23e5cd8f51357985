import Mathlib.Order.Basic
import Easyio.Kernel.Sched
import Easyio.Runs.Partial

/-!
# The ready queue

`rt_schedule` looks at `rt_thread_ready_priority_group` to find the highest priority with
a ready thread.  Bit `p` of it is set when a thread enters the ready list of priority `p`
and cleared when the list has become empty, both with the `number_mask` of the thread.
The mask is computed when the thread is started and when its priority is changed, but
not when it is created: a thread that ends before it was started clears whatever bits
its mask happens to have.

`Queued` is what the lists, the states of the threads and the bits have in common.  All
steps keep it, except the end of a thread that was not started
(`ready_queue_consistent_iff`).
-/

namespace Easyio.Kernel

open BitVec Bool Function List Nat Option Runs.Partial Sched Stat

/-! ## The lowest bit -/

theorem lowestBitBitmap_spec : ∀ b < 256, b ≠ 0 →
    b.testBit (lowestBitBitmap.getD b 0) = true ∧
      ∀ i < lowestBitBitmap.getD b 0, b.testBit i = false := by
  decide +kernel

variable {value mask : BitVec 32} {k : ℕ}

section

variable (hmask : ∀ i, mask.getLsbD i = decide (k ≤ i ∧ i < k + 8))
include hmask

/-- A byte of the value, where `mask` are the bits from `k` to `k + 7`. -/
theorem lowestBit_byte (hne : value &&& mask ≠ 0#32) (hlow : ∀ i < k, value.getLsbD i = false) :
    value.getLsbD (lowestBitBitmap.getD ((value &&& mask) >>> k).toNat 0 + k) = true ∧
      ∀ i < lowestBitBitmap.getD ((value &&& mask) >>> k).toNat 0 + k, value.getLsbD i = false := by
  set b := ((value &&& mask) >>> k).toNat
  have hbit : ∀ i, b.testBit i = (value.getLsbD (k + i) && decide (i < 8)) := by
    intro i
    rw [testBit_toNat, getLsbD_ushiftRight, getLsbD_and, hmask]
    simp
  have hlt : b < 2 ^ 8 := by
    refine lt_pow_two_of_testBit b fun i hi => ?_
    rw [hbit, decide_eq_false (by omega), Bool.and_false]
  have hzero : b ≠ 0 := by
    intro hb0
    refine hne (eq_of_getLsbD_eq fun i hi => ?_)
    rw [getLsbD_and, hmask, getLsbD_zero]
    by_cases hrange : k ≤ i ∧ i < k + 8
    · have := hbit (i - k)
      rw [hb0, Nat.zero_testBit, Nat.add_sub_cancel' hrange.1,
        decide_eq_true (show i - k < 8 by omega), Bool.and_true] at this
      rw [← this, Bool.false_and]
    · rw [decide_eq_false hrange, Bool.and_false]
  obtain ⟨hset, hclear⟩ := lowestBitBitmap_spec b hlt hzero
  rw [hbit, and_eq_true, decide_eq_true_eq] at hset
  refine ⟨add_comm k _ ▸ hset.1, fun i hi => ?_⟩
  by_cases hik : i < k
  · exact hlow i hik
  · have := hclear (i - k) (by omega)
    rw [hbit, Nat.add_sub_cancel' (Nat.le_of_not_lt hik), decide_eq_true (show i - k < 8 by omega),
      Bool.and_true] at this
    exact this

theorem getLsbD_of_byte_eq_zero
    (hzero : value &&& mask = 0#32) {i : ℕ} (hlow : k ≤ i) (hhigh : i < k + 8) :
    value.getLsbD i = false := by
  have := congrArg (·.getLsbD i) hzero
  rwa [getLsbD_and, hmask, decide_eq_true ⟨hlow, hhigh⟩, Bool.and_true,
    getLsbD_zero] at this

end

/-- The bits of the masks in `__rt_ffs`. -/
theorem getLsbD_byteMask (hk : k + 8 ≤ 32)
    (h : ∀ i < 32, mask.getLsbD i = decide (k ≤ i ∧ i < k + 8)) (i : ℕ) :
    mask.getLsbD i = decide (k ≤ i ∧ i < k + 8) := by
  by_cases hi : i < 32
  · exact h i hi
  · rw [getLsbD_of_ge mask i (by omega), decide_eq_false (by omega)]

theorem rtFfs_spec (hvalue : value ≠ 0#32) :
    value.getLsbD (rtFfs value - 1) = true ∧ ∀ i < rtFfs value - 1, value.getLsbD i = false := by
  have hmask₀ := @getLsbD_byteMask 0xff#32 0 (by decide) (by decide)
  have hmask₁ := @getLsbD_byteMask 0xff00#32 8 (by decide) (by decide)
  have hmask₂ := @getLsbD_byteMask 0xff0000#32 16 (by decide) (by decide)
  have hmask₃ := @getLsbD_byteMask 0xff000000#32 24 (by decide) (by decide)
  unfold rtFfs
  rw [if_neg hvalue]
  by_cases h₀ : value &&& 0xff#32 = 0#32
  swap
  · rw [if_pos h₀]
    exact lowestBit_byte hmask₀ h₀ (fun i hi => absurd hi (not_lt_zero i))
  have hlow₁ : ∀ i < 8, value.getLsbD i = false := fun i hi =>
    getLsbD_of_byte_eq_zero hmask₀ h₀ (zero_le i) hi
  rw [if_neg (not_not.mpr h₀)]
  by_cases h₁ : value &&& 0xff00#32 = 0#32
  swap
  · rw [if_pos h₁]
    exact lowestBit_byte hmask₁ h₁ hlow₁
  have hlow₂ : ∀ i < 16, value.getLsbD i = false := fun i hi =>
    (Nat.lt_or_ge i 8).elim (hlow₁ i) fun hge => getLsbD_of_byte_eq_zero hmask₁ h₁ hge hi
  rw [if_neg (not_not.mpr h₁)]
  by_cases h₂ : value &&& 0xff0000#32 = 0#32
  swap
  · rw [if_pos h₂]
    exact lowestBit_byte hmask₂ h₂ hlow₂
  have hlow₃ : ∀ i < 24, value.getLsbD i = false := fun i hi =>
    (Nat.lt_or_ge i 16).elim (hlow₂ i) fun hge => getLsbD_of_byte_eq_zero hmask₂ h₂ hge hi
  rw [if_neg (not_not.mpr h₂)]
  refine lowestBit_byte hmask₃ (fun h₃ => hvalue (eq_of_getLsbD_eq fun i hi => ?_)) hlow₃
  rw [getLsbD_zero]
  exact (Nat.lt_or_ge i 24).elim (hlow₃ i) fun hge => getLsbD_of_byte_eq_zero hmask₃ h₃ hge hi

theorem rtFfs_lt (hvalue : value ≠ 0#32) : rtFfs value - 1 < 32 := by
  by_contra hge
  have hset := (rtFfs_spec hvalue).1
  rw [getLsbD_of_ge _ _ (Nat.le_of_not_lt hge)] at hset
  exact false_ne_true hset

theorem getLsbD_one_shiftLeft {p : ℕ} (hp : p < 32) (q : ℕ) :
    (1#32 <<< p).getLsbD q = decide (p = q) := by
  rw [← twoPow_eq, getLsbD_twoPow, decide_eq_true hp, Bool.true_and]

namespace Sched

/-! ## The invariant -/

/-- The bits of the group say which ready lists have a thread. -/
def GroupMatches (s : Sched) : Prop :=
  ∀ p < rtThreadPriorityMax, s.readyPriorityGroup.getLsbD p = true ↔ s.table p ≠ []

/-- The lists hold the threads that their states say, each thread in one place. -/
structure Queued (s : Sched) : Prop where
  group : s.GroupMatches
  ready : ∀ t p, t ∈ s.table p ↔ (s.thread t).stat = .ready ∧ (s.thread t).currentPriority = p
  waiting : ∀ t w, t ∈ s.waiting w → (s.thread t).stat = .suspend
  defunct : ∀ t ∈ s.defunct, (s.thread t).stat = .close
  tableNodup : ∀ p, (s.table p).Nodup
  waitingNodup : ∀ w, (s.waiting w).Nodup
  waitingOnce : ∀ t w w', t ∈ s.waiting w → t ∈ s.waiting w' → w = w'
  defunctNodup : s.defunct.Nodup
  priority : ∀ t, (s.thread t).currentPriority < rtThreadPriorityMax ∧
    (s.thread t).initPriority < rtThreadPriorityMax
  mask : ∀ t, (s.thread t).stat = .ready ∨ (s.thread t).stat = .suspend →
    (s.thread t).numberMask = 1#32 <<< (s.thread t).currentPriority
  current : ∀ t, s.currentThread = some t → (s.thread t).stat ≠ .init

/-- What taking the thread `t` out of the lists needs: its mask is that of its priority,
or it is not used, or it has no bit that is set. -/
def MaskFits (s : Sched) (t : ℕ) : Prop :=
  ((s.thread t).stat = .ready ∨ (s.thread t).stat = .suspend) ∨
    s.table (s.thread t).currentPriority ≠ [] ∨
    (s.thread t).numberMask &&& s.readyPriorityGroup = 0#32

/-- The fields of a thread that the invariant speaks of. -/
structure Sane (thread : Thread) : Prop where
  priority : thread.currentPriority < rtThreadPriorityMax ∧
    thread.initPriority < rtThreadPriorityMax
  mask : thread.stat = .ready ∨ thread.stat = .suspend →
    thread.numberMask = 1#32 <<< thread.currentPriority

namespace Queued

variable {s s' : Sched} {t : ℕ} {thread : Thread}

section

variable (h : Queued s)
include h

theorem not_mem_table (ht : (s.thread t).stat ≠ .ready) (p : ℕ) :
    t ∉ s.table p := fun hin => ht ((h.ready t p).mp hin).1

theorem not_mem_waiting (ht : (s.thread t).stat ≠ .suspend) (w : Wait) :
    t ∉ s.waiting w := fun hin => ht (h.waiting t w hin)

theorem empty (w : Wait) : Queued { s with waiting := update s.waiting w [] } := by
  have hsub : ∀ v, (update s.waiting w [] v).Sublist (s.waiting v) := by
    intro v
    by_cases hv : v = w
    · rw [hv, update_self]
      exact nil_sublist _
    · rw [update_of_ne hv]
  exact
    { h with
      waiting := fun t v ht => h.waiting t v ((hsub v).subset ht)
      waitingNodup := fun v => (h.waitingNodup v).sublist (hsub v)
      waitingOnce := fun t v v' ht ht' =>
        h.waitingOnce t v v' ((hsub v).subset ht) ((hsub v').subset ht') }

/-- Only the list of its priority can have the thread. -/
theorem erase_table_of_ne {p : ℕ} (hp : (s.thread t).currentPriority ≠ p) :
    (s.table p).erase t = s.table p :=
  erase_of_not_mem fun hin => hp ((h.ready t p).mp hin).2

theorem sane (t : ℕ) : Sane (s.thread t) := ⟨h.priority t, h.mask t⟩

/-- Changes of a thread that leave its state, and its priority while it is ready. -/
theorem fields (hother : ∀ u ≠ t, s'.thread u = s.thread u)
    (hstat : (s'.thread t).stat = (s.thread t).stat) (hsane : Sane (s'.thread t))
    (hpriority : (s.thread t).stat = .ready →
      (s'.thread t).currentPriority = (s.thread t).currentPriority)
    (hlists : s'.table = s.table ∧ s'.waiting = s.waiting ∧ s'.defunct = s.defunct ∧
      s'.readyPriorityGroup = s.readyPriorityGroup ∧ s'.currentThread = s.currentThread) :
    Queued s' := by
  obtain ⟨htable, hwaiting, hdefunct, hgroup, hcurrent⟩ := hlists
  have hall : ∀ u, (s'.thread u).stat = (s.thread u).stat ∧ Sane (s'.thread u) := by
    intro u
    by_cases hu : u = t
    · exact hu ▸ ⟨hstat, hsane⟩
    · rw [hother u hu]
      exact ⟨rfl, h.sane u⟩
  constructor
  case group => simpa only [GroupMatches, hgroup, htable] using h.group
  case ready =>
    intro u p
    rw [htable, h.ready u p, (hall u).1]
    refine and_congr_right fun hready => ?_
    by_cases hu : u = t
    · subst hu
      rw [hpriority hready]
    · rw [hother u hu]
  case waiting => intro u w; rw [hwaiting, (hall u).1]; exact h.waiting u w
  case defunct => intro u; rw [hdefunct, (hall u).1]; exact h.defunct u
  case tableNodup => rw [htable]; exact h.tableNodup
  case waitingNodup => rw [hwaiting]; exact h.waitingNodup
  case waitingOnce => rw [hwaiting]; exact h.waitingOnce
  case defunctNodup => rw [hdefunct]; exact h.defunctNodup
  case priority => exact fun u => (hall u).2.priority
  case mask => exact fun u => (hall u).2.mask
  case current => intro u; rw [hcurrent, (hall u).1]; exact h.current u

theorem group_remove (hfits : s.MaskFits t) : (s.rtScheduleRemoveThread t).GroupMatches := by
  intro q hq
  have hbit := h.group q hq
  have hp := (h.priority t).1
  by_cases hempty : (s.table (s.thread t).currentPriority).erase t = []
  swap
  · -- other threads of the priority are left
    have hsame : (s.rtScheduleRemoveThread t).readyPriorityGroup = s.readyPriorityGroup := by
      rw [rtScheduleRemoveThread, if_neg hempty]
    rw [hsame, hbit]
    by_cases hpq : (s.thread t).currentPriority = q
    · subst hpq
      exact iff_of_true (fun hnil => hempty (by rw [hnil]; rfl)) hempty
    · exact not_congr (by rw [← h.erase_table_of_ne hpq]; rfl)
  have hgroup : (s.rtScheduleRemoveThread t).readyPriorityGroup =
      s.readyPriorityGroup &&& ~~~(s.thread t).numberMask := by
    rw [rtScheduleRemoveThread, if_pos hempty]
  -- if the list had a thread, it was `t`, and the mask has the bit
  have halone (hne : s.table (s.thread t).currentPriority ≠ []) :
      (s.thread t).stat = .ready := by
    by_contra hstat
    exact hne (by rwa [erase_of_not_mem (h.not_mem_table hstat _)] at hempty)
  rw [hgroup, getLsbD_and, getLsbD_not,
    decide_eq_true (show q < 32 from hq), Bool.true_and,
    Bool.and_eq_true, hbit, Bool.not_eq_true']
  by_cases hpq : (s.thread t).currentPriority = q
  · subst hpq
    refine iff_of_false ?_ (not_not.mpr hempty)
    rintro ⟨hne, hclear⟩
    rw [h.mask t (.inl (halone hne)), getLsbD_one_shiftLeft hp] at hclear
    simp at hclear
  · have hlist : (s.table q).erase t = s.table q := h.erase_table_of_ne hpq
    change _ ↔ (s.table q).erase t ≠ []
    rw [hlist, and_iff_left_iff_imp]
    intro hne
    rcases hfits with hstat | htable | hmask
    · rw [h.mask t hstat, getLsbD_one_shiftLeft hp, decide_eq_false hpq]
    · rw [h.mask t (.inl (halone htable)), getLsbD_one_shiftLeft hp, decide_eq_false hpq]
    · have := congrArg (·.getLsbD q) hmask
      rw [getLsbD_and, getLsbD_zero, (hbit.mpr hne), Bool.and_true] at this
      exact this

/-- The thread `t` has left the lists and has the new fields `thread`; if they say that
it is ready, it is in the list of its priority again. -/
theorem moved (hself : s'.thread t = thread)
    (hother : ∀ u ≠ t, s'.thread u = s.thread u) (hsane : Sane thread) (hgroup : s'.GroupMatches)
    (hready : ∀ p, t ∈ s'.table p ↔ thread.stat = .ready ∧ thread.currentPriority = p)
    (htable : ∀ u ≠ t, ∀ p, u ∈ s'.table p ↔ u ∈ s.table p) (hnodup : ∀ p, (s'.table p).Nodup)
    (hlists : (∀ w, s'.waiting w = (s.waiting w).erase t) ∧ s'.defunct = s.defunct.erase t)
    (hcurrent : s'.currentThread = s.currentThread)
    (hinit : s.currentThread = some t → thread.stat ≠ .init) : Queued s' := by
  obtain ⟨hwaiting, hdefunct⟩ := hlists
  have hall : ∀ u, Sane (s'.thread u) := by
    intro u
    by_cases hu : u = t
    · rw [hu, hself]
      exact hsane
    · rw [hother u hu]
      exact h.sane u
  constructor
  case group => exact hgroup
  case ready =>
    intro u p
    by_cases hu : u = t
    · rw [hu, hself]
      exact hready p
    · rw [htable u hu, hother u hu]
      exact h.ready u p
  case waiting =>
    intro u w hmem
    obtain ⟨hu, hmem⟩ := (h.waitingNodup w).mem_erase_iff.mp (hwaiting w ▸ hmem)
    rw [hother u hu]
    exact h.waiting u w hmem
  case defunct =>
    intro u hmem
    obtain ⟨hu, hmem⟩ := h.defunctNodup.mem_erase_iff.mp (hdefunct ▸ hmem)
    rw [hother u hu]
    exact h.defunct u hmem
  case tableNodup => exact hnodup
  case waitingNodup => exact fun w => hwaiting w ▸ (h.waitingNodup w).erase t
  case waitingOnce =>
    intro u w w' hmem hmem'
    rw [hwaiting] at hmem hmem'
    exact h.waitingOnce u w w' (mem_of_mem_erase hmem) (mem_of_mem_erase hmem')
  case defunctNodup => exact hdefunct ▸ h.defunctNodup.erase t
  case priority => exact fun u => (hall u).priority
  case mask => exact fun u => (hall u).mask
  case current =>
    intro u hcur
    rw [hcurrent] at hcur
    by_cases hu : u = t
    · rw [hu, hself]
      exact hinit (hu ▸ hcur)
    · rw [hother u hu]
      exact h.current u hcur

theorem parked (hfits : s.MaskFits t) (hsane : Sane thread)
    (hstat : thread.stat ≠ .ready) (hinit : s.currentThread = some t → thread.stat ≠ .init) :
    Queued ((s.rtScheduleRemoveThread t).modify t fun _ => thread) := by
  have herase : ∀ u p, u ∈ ((s.rtScheduleRemoveThread t).modify t fun _ => thread).table p ↔
      u ≠ t ∧ u ∈ s.table p := fun u p => (h.tableNodup p).mem_erase_iff
  refine h.moved (update_self ..) (fun u hu => update_of_ne hu ..) hsane
    (h.group_remove hfits) (fun p => ?_) (fun u hu p => ?_) (fun p => (h.tableNodup p).erase t)
    ⟨fun _ => rfl, rfl⟩ rfl hinit
  · rw [herase]
    exact iff_of_false (fun hin => hin.1 rfl) fun hand => hstat hand.1
  · rw [herase, and_iff_right hu]

end

/-- The lists without the thread `t`. -/
structure Without (s : Sched) (t : ℕ) (r : Sched) : Prop where
  other : ∀ u ≠ t, r.thread u = s.thread u
  table : r.table = fun p => (s.table p).erase t
  waiting : r.waiting = fun w => (s.waiting w).erase t
  defunct : r.defunct = s.defunct.erase t
  current : r.currentThread = s.currentThread

theorem inserted (h : Queued s) {r : Sched} (hr : Without s t r) (hgroup : r.GroupMatches)
    (hpriority : (r.thread t).currentPriority < rtThreadPriorityMax ∧
      (r.thread t).initPriority < rtThreadPriorityMax)
    (hmask : (r.thread t).numberMask = 1#32 <<< (r.thread t).currentPriority) :
    Queued (r.rtScheduleInsertThread t) := by
  set p := (r.thread t).currentPriority with hp
  have hself : (r.rtScheduleInsertThread t).thread t = { r.thread t with stat := .ready } :=
    update_self ..
  have hother : ∀ u ≠ t, (r.rtScheduleInsertThread t).thread u = s.thread u := fun u hu =>
    (update_of_ne hu ..).trans (hr.other u hu)
  have hin : ∀ u q, u ∈ r.table q ↔ u ≠ t ∧ u ∈ s.table q := by
    intro u q
    rw [hr.table]
    exact (h.tableNodup q).mem_erase_iff
  have htable : (r.rtScheduleInsertThread t).table =
      update r.table p (r.table p ++ [t]) := rfl
  refine h.moved hself hother ⟨hpriority, fun _ => hmask⟩ (fun q hq => ?_) (fun q => ?_)
    (fun u hu q => ?_) (fun q => ?_) ⟨fun w => ?_, hr.defunct⟩ hr.current fun _ => noConfusion
  · have hbits : (r.rtScheduleInsertThread t).readyPriorityGroup =
        r.readyPriorityGroup ||| 1#32 <<< p := by rw [rtScheduleInsertThread, hmask]
    rw [hbits, htable, getLsbD_or, or_eq_true, hgroup q hq,
      getLsbD_one_shiftLeft hpriority.1, decide_eq_true_eq]
    by_cases hpq : p = q
    · subst hpq
      simp
    · rw [update_of_ne (Ne.symm hpq)]
      exact or_iff_left hpq
  · rw [htable]
    by_cases hpq : p = q
    · subst hpq
      simp [← hp]
    · rw [update_of_ne (Ne.symm hpq), hin]
      exact iff_of_false (fun hand => hand.1 rfl) fun hand => hpq hand.2
  · rw [htable]
    by_cases hpq : p = q
    · subst hpq
      simp [hu, hin]
    · rw [update_of_ne (Ne.symm hpq), hin, and_iff_right hu]
  · have hnodup : (r.table q).Nodup := by
      rw [hr.table]
      exact (h.tableNodup q).erase t
    rw [htable]
    by_cases hpq : p = q
    · subst hpq
      rw [update_self, nodup_append]
      refine ⟨hnodup, pairwise_singleton _ t, fun a ha b hb hab => ?_⟩
      exact ((hin a p).mp ha).1 (hab.trans (mem_singleton.mp hb))
    · rwa [update_of_ne (Ne.symm hpq)]
  · change r.waiting w = _
    rw [hr.waiting]

theorem without_unlink (s : Sched) (t : ℕ) (f : Thread → Thread) :
    Without s t ((s.unlink t).modify t f) :=
  ⟨fun _ hu => update_of_ne hu .., rfl, rfl, rfl, rfl⟩

theorem without_remove (s : Sched) (t : ℕ) (f : Thread → Thread) :
    Without s t ((s.rtScheduleRemoveThread t).modify t f) :=
  ⟨fun _ hu => update_of_ne hu .., rfl, rfl, rfl, rfl⟩

section

variable (h : Queued s) (ht : (s.thread t).stat ≠ .ready)
include h ht

theorem group_unlink : (s.unlink t).GroupMatches := by
  intro p hp
  change _ ↔ (s.table p).erase t ≠ []
  rw [erase_of_not_mem (h.not_mem_table ht p)]
  exact h.group p hp

theorem replaced (hwaiting : ∀ w, t ∉ s.waiting w)
    (hdefunct : t ∉ s.defunct) (hsane : Sane thread) (hstat : thread.stat ≠ .ready)
    (hinit : s.currentThread = some t → thread.stat ≠ .init) :
    Queued (s.modify t fun _ => thread) := by
  refine h.moved (update_self ..) (fun u hu => update_of_ne hu ..) hsane h.group
    (fun p => ?_) (fun _ _ _ => Iff.rfl) h.tableNodup ⟨fun w => ?_, ?_⟩ rfl hinit
  · exact iff_of_false (h.not_mem_table ht p) fun hand => hstat hand.1
  · exact (erase_of_not_mem (hwaiting w)).symm
  · exact (erase_of_not_mem hdefunct).symm

/-- A thread that is not ready leaves the list it is in. -/
theorem unlinked : Queued (s.unlink t) := by
  refine h.moved rfl (fun _ _ => rfl) (h.sane t) (h.group_unlink ht) (fun p => ?_)
    (fun u hu p => mem_erase_of_ne hu) (fun p => (h.tableNodup p).erase t)
    ⟨fun _ => rfl, rfl⟩ rfl (h.current t)
  refine iff_of_false (fun hin => ?_) fun hand => ht hand.1
  exact h.not_mem_table ht p (mem_of_mem_erase hin)

end

theorem buried (h : Queued s) (ht : (s.thread t).stat = .close) (hout : t ∉ s.defunct) :
    Queued (s.bury t) :=
  { h with
    defunct := forall_mem_cons.mpr ⟨ht, h.defunct⟩
    defunctNodup := nodup_cons.mpr ⟨hout, h.defunctNodup⟩ }

end Queued

/-- A change keeps the priorities and the mask of a thread. -/
abbrev KeepsPriority (f : Thread → Thread) : Prop :=
  ∀ thread, (f thread).currentPriority = thread.currentPriority ∧
    (f thread).initPriority = thread.initPriority ∧ (f thread).numberMask = thread.numberMask

abbrev KeepsFields (f : Thread → Thread) : Prop :=
  ∀ thread, (f thread).stat = thread.stat ∧ (f thread).currentPriority = thread.currentPriority ∧
    (f thread).initPriority = thread.initPriority ∧ (f thread).numberMask = thread.numberMask

/-- A change that keeps priority and mask may come before the removal or after it. -/
theorem rtScheduleRemoveThread_modify (s : Sched) (t : ℕ) {f : Thread → Thread}
    (hf : ∀ thread, (f thread).currentPriority = thread.currentPriority ∧
      (f thread).numberMask = thread.numberMask) :
    (s.modify t f).rtScheduleRemoveThread t = (s.rtScheduleRemoveThread t).modify t f := by
  have hself : (s.modify t f).thread t = f (s.thread t) := update_self ..
  simp only [rtScheduleRemoveThread, hself, hf]
  rfl

/-! ## What the functions do -/

namespace Queued

variable {s s' : Sched} {t : ℕ} {f : Thread → Thread}

section

variable (h : Queued s)
include h

theorem rtThreadSuspend (t : ℕ) : Queued (s.rtThreadSuspend t).2 := by
  unfold Sched.rtThreadSuspend
  split
  · rename_i hready
    rw [rtScheduleRemoveThread_modify]
    · exact h.parked (.inl (.inl hready)) ⟨h.priority t, fun _ => h.mask t (.inl hready)⟩
        noConfusion fun _ => noConfusion
    · exact fun _ => ⟨rfl, rfl⟩
  · exact h

theorem readied (hsuspend : (s.thread t).stat = .suspend) (hf : KeepsPriority f) :
    Queued (((s.unlink t).modify t f).rtScheduleInsertThread t) := by
  obtain ⟨hpriority, hinit, hmask⟩ := hf (s.thread t)
  refine h.inserted (without_unlink s t _) ?_ ?_ ?_
  · exact h.group_unlink (hsuspend.trans_ne (by decide))
  · rw [modify_thread_self]
    exact ⟨hpriority ▸ (h.priority t).1, hinit ▸ (h.priority t).2⟩
  · rw [modify_thread_self]
    exact hmask.trans (hpriority ▸ h.mask t (.inr hsuspend))

theorem rtThreadResume (t : ℕ) : Queued (s.rtThreadResume t).2 := by
  unfold Sched.rtThreadResume
  split
  · rename_i hsuspend
    exact h.readied hsuspend fun _ => ⟨rfl, rfl, rfl⟩
  · exact h

/-- Changes outside the lists, the bits and the fields that the invariant speaks of. -/
theorem modify_same (t : ℕ) (hf : KeepsFields f) : Queued (s.modify t f) := by
  obtain ⟨hstat, hpriority, hinit, hmask⟩ := hf (s.thread t)
  have hself : (s.modify t f).thread t = f (s.thread t) := update_self ..
  refine h.fields (fun u hu => update_of_ne hu ..) (hself ▸ hstat)
    (hself ▸ ⟨?_, ?_⟩) (fun _ => hself ▸ hpriority) ⟨rfl, rfl, rfl, rfl, rfl⟩
  · rw [hpriority, hinit]
    exact h.priority t
  · rw [hstat, hpriority, hmask]
    exact h.mask t

theorem movedToEnd (hready : (s.thread t).stat = .ready) : Queued (s.moveToEnd t) := by
  set p := (s.thread t).currentPriority
  have hmem : t ∈ s.table p := (h.ready t p).mpr ⟨hready, rfl⟩
  have htable : (s.moveToEnd t).table =
      update (fun q => (s.table q).erase t) p ((s.table p).erase t ++ [t]) := rfl
  have hperm : ∀ q, ((s.moveToEnd t).table q).Perm (s.table q) := by
    intro q
    rw [htable]
    by_cases hpq : p = q
    · subst hpq
      rw [update_self]
      exact (perm_append_singleton t _).trans (perm_cons_erase hmem).symm
    · rw [update_of_ne (Ne.symm hpq)]
      exact Perm.of_eq (h.erase_table_of_ne hpq)
  refine h.moved rfl (fun _ _ => rfl) (h.sane t) (fun q hq => ?_) (fun q => ?_) (fun u _ q => ?_)
    (fun q => (hperm q).nodup_iff.mpr (h.tableNodup q)) ⟨fun _ => rfl, rfl⟩ rfl (h.current t)
  · rw [← length_pos_iff_ne_nil, (hperm q).length_eq, length_pos_iff_ne_nil]
    exact h.group q hq
  · rw [(hperm q).mem_iff]
    exact h.ready t q
  · exact (hperm q).mem_iff

theorem startTimer {time : ℕ} (hstart : s.startTimer t time = some s') : Queued s' := by
  unfold Sched.startTimer at hstart
  split at hstart
  · exact some.inj hstart ▸ h
  · obtain ⟨-, hstart⟩ := ite_none_left_eq_some.mp hstart
    exact some.inj hstart ▸ h.modify_same t fun _ => ⟨rfl, rfl, rfl, rfl⟩

end

end Queued

variable {s : Sched}

/-- The thread that `rt_schedule` takes: the first of the ready list of the highest
priority. -/
theorem toThread_spec (hgroup : s.GroupMatches) {t : ℕ} (ht : s.toThread = some t) :
    ∃ p < rtThreadPriorityMax, (∃ rest, s.table p = t :: rest) ∧ ∀ q < p, s.table q = [] := by
  obtain ⟨hne, ht⟩ := ite_none_left_eq_some.mp ht
  obtain ⟨hset, hclear⟩ := rtFfs_spec hne
  have hlt := rtFfs_lt hne
  refine ⟨_, hlt, head?_eq_some_iff.mp ht, fun q hq => ?_⟩
  have hbit := hgroup q (Nat.lt_trans hq hlt)
  rw [hclear q hq] at hbit
  exact not_not.mp (mt hbit.mpr false_ne_true)

theorem exists_toThread (hgroup : s.GroupMatches) {p : ℕ} (hp : p < rtThreadPriorityMax)
    (hne : s.table p ≠ []) : ∃ t, s.toThread = some t := by
  have hbits : s.readyPriorityGroup ≠ 0#32 := by
    intro hzero
    have := (hgroup p hp).mpr hne
    rw [hzero, getLsbD_zero] at this
    exact false_ne_true this
  obtain ⟨hset, -⟩ := rtFfs_spec hbits
  have hlt := rtFfs_lt hbits
  have hlist := (hgroup _ hlt).mp hset
  rw [toThread, if_neg hbits]
  exact ⟨_, head?_eq_some_head hlist⟩

namespace Queued

variable {s s' : Sched} {t priority tick : ℕ}

section

variable (h : Queued s)
include h

theorem switch (ht : s.toThread = some t) : Queued { s with currentThread := some t } := by
  obtain ⟨p, -, ⟨rest, hlist⟩, -⟩ := toThread_spec h.group ht
  have hready := ((h.ready t p).mp (hlist ▸ mem_cons_self)).1
  have hcurrent : ∀ u, some t = some u → (s.thread u).stat ≠ .init := by
    rintro u hu
    cases hu
    exact hready.trans_ne (by decide)
  exact { h with current := hcurrent }

theorem rtSchedule (hs : s.rtSchedule = some s') : Queued s' := by
  unfold Sched.rtSchedule at hs
  split at hs
  · obtain ⟨t, ht, rfl⟩ := map_eq_some_iff.mp hs
    exact h.switch ht
  · exact some.inj hs ▸ h

section

variable (hfits : s.MaskFits t)
include hfits

theorem shut : Queued (s.shut t) :=
  h.parked hfits ⟨h.priority t, fun hstat => hstat.elim noConfusion noConfusion⟩
    noConfusion fun _ => noConfusion

theorem rtThreadDelete : Queued (s.rtThreadDelete t) := by
  refine (h.shut hfits).buried ?_ h.defunctNodup.not_mem_erase
  simp [Sched.shut, Sched.modify]

theorem rtThreadDetach : Queued (s.rtThreadDetach t) := by
  unfold Sched.rtThreadDetach
  split
  · exact h.rtThreadDelete hfits
  · exact h.shut hfits

theorem rtThreadExit (hs : s.rtThreadExit t = some s') : Queued s' := by
  unfold Sched.rtThreadExit at hs
  split at hs
  · exact (h.shut hfits).rtSchedule hs
  · exact (h.rtThreadDelete hfits).rtSchedule hs

end

theorem rtThreadIdleExcute : Queued s.rtThreadIdleExcute := by
  unfold Sched.rtThreadIdleExcute
  split
  · exact h
  · rename_i t rest hdefunct
    exact h.unlinked ((h.defunct t (hdefunct ▸ mem_cons_self ..)).trans_ne (by decide))

section

variable (hclose : (s.thread t).stat = .close)
  (hdefunct : t ∉ s.defunct)
  (hcurrent : s.currentThread ≠ some t)
include hclose hdefunct hcurrent

theorem initThread {systemObject : Bool}
    (hs : s.initThread t priority tick systemObject = some s') : Queued s' := by
  obtain ⟨hpriority, hs⟩ := ite_none_left_eq_some.mp hs
  have hlt : priority < rtThreadPriorityMax := Nat.lt_of_not_le hpriority
  obtain rfl := some.inj hs
  exact h.replaced (hclose.trans_ne (by decide)) (h.not_mem_waiting (hclose.trans_ne (by decide)))
    hdefunct ⟨⟨hlt, hlt⟩, fun hstat => hstat.elim noConfusion noConfusion⟩
    noConfusion fun hcur => absurd hcur hcurrent

theorem rtThreadCreate
    (hs : s.rtThreadCreate t priority tick mask = some s') : Queued s' := by
  have hself : (s.modify t ({ · with numberMask := mask })).thread t =
      { s.thread t with numberMask := mask } := update_self ..
  have hready : (s.thread t).stat ≠ .ready := hclose.trans_ne (by decide)
  have hsuspend : (s.thread t).stat ≠ .suspend := hclose.trans_ne (by decide)
  have hmodified : Queued (s.modify t ({ · with numberMask := mask })) :=
    h.replaced hready (h.not_mem_waiting hsuspend) hdefunct
      ⟨h.priority t, fun hstat => absurd hstat (not_or.mpr ⟨hready, hsuspend⟩)⟩ hready
      fun hcur => absurd hcur hcurrent
  exact hmodified.initThread (by rw [hself]; exact hclose) hdefunct hcurrent hs

end

theorem rtThreadStartup (hs : s.rtThreadStartup t = some s') : Queued s' := by
  obtain ⟨hinit, hs⟩ := ite_none_right_eq_some.mp hs
  have hresume : Queued ((s.setStarted t).rtThreadResume t).2 := by
    have hself : (s.setStarted t).thread t = { s.thread t with
        currentPriority := (s.thread t).initPriority
        numberMask := 1#32 <<< (s.thread t).initPriority
        stat := .suspend } := update_self ..
    rw [Sched.rtThreadResume, hself]
    refine h.inserted ⟨fun u hu => ?_, rfl, rfl, rfl, rfl⟩ ?_ ?_ ?_
    · simp only [modify, unlink, setStarted, update_of_ne hu]
    · exact h.group_unlink (hinit.trans_ne (by decide))
    · simpa [modify, unlink, setStarted] using (h.priority t).2
    · simp [modify, unlink, setStarted]
  unfold scheduleIfRunning at hs
  split at hs
  · exact some.inj hs ▸ hresume
  · exact hresume.rtSchedule hs

theorem rtThreadControl (hs : s.rtThreadControl t priority = some s') : Queued s' := by
  obtain ⟨hpriority, hs⟩ := ite_none_left_eq_some.mp hs
  have hlt : priority < rtThreadPriorityMax := Nat.lt_of_not_le hpriority
  split at hs
  · -- out of its list and into that of the new priority
    rename_i hready
    obtain rfl := some.inj hs
    refine h.inserted (without_remove s t _) (h.group_remove (.inl (.inl hready))) ?_ ?_
    · simpa [modify, setPriority] using ⟨hlt, (h.priority t).2⟩
    · simp [modify, setPriority]
  · rename_i hready
    obtain rfl := some.inj hs
    have hself : (s.setPriority t priority).thread t = { s.thread t with
        currentPriority := priority, numberMask := 1#32 <<< priority } := update_self ..
    exact h.fields (fun u hu => update_of_ne hu ..) (by rw [hself])
      (hself ▸ ⟨⟨hlt, (h.priority t).2⟩, fun _ => rfl⟩) (fun hin => absurd hin hready)
      ⟨rfl, rfl, rfl, rfl, rfl⟩

theorem rtThreadTimeout (hs : s.rtThreadTimeout t = some s') : Queued s' := by
  obtain ⟨hsuspend, hs⟩ := ite_none_right_eq_some.mp hs
  refine Queued.rtSchedule (h.readied hsuspend ?_) hs
  exact fun _ => ⟨rfl, rfl, rfl⟩

theorem rtThreadYield (hs : s.rtThreadYield t = some s') : Queued s' := by
  unfold Sched.rtThreadYield at hs
  split at hs
  swap
  · exact some.inj hs ▸ h
  rename_i hcond
  obtain ⟨hready, -⟩ := hcond
  refine Queued.rtSchedule (h.movedToEnd hready) hs

theorem rtThreadSleep (hs : s.rtThreadSleep t tick = some s') : Queued s' := by
  obtain ⟨s₁, hs₁, hs⟩ := bind_eq_some_iff.mp hs
  exact ((h.rtThreadSuspend t).startTimer hs₁).rtSchedule hs

theorem rtThreadSleepEnd (t : ℕ) : Queued (s.rtThreadSleepEnd t) := by
  unfold Sched.rtThreadSleepEnd
  split
  · exact h.modify_same t fun _ => ⟨rfl, rfl, rfl, rfl⟩
  · exact h

theorem lock (nest : ℕ) : Queued { s with schedulerLockNest := nest } :=
  h.fields (fun _ _ => rfl) rfl (h.sane 0) (fun _ => rfl) ⟨rfl, rfl, rfl, rfl, rfl⟩

theorem countTick : Queued s.countTick :=
  h.fields (fun _ _ => rfl) rfl (h.sane 0) (fun _ => rfl) ⟨rfl, rfl, rfl, rfl, rfl⟩

theorem rtTickIncrease (hs : s.rtTickIncrease t = some s') : Queued s' := by
  unfold Sched.rtTickIncrease at hs
  split at hs
  · refine Queued.rtThreadYield (h.countTick.modify_same t ?_) hs
    exact fun _ => ⟨rfl, rfl, rfl, rfl⟩
  · exact some.inj hs ▸ h.countTick.modify_same t fun _ => ⟨rfl, rfl, rfl, rfl⟩

end

end Queued

/-! ## Runs -/

inductive ThreadEvent where
  | init (t priority tick : ℕ)
  | create (t priority tick : ℕ) (mask : BitVec 32)
  /-- the user sets a `cleanup` function -/
  | setCleanup (t : ℕ)
  | startup (t : ℕ)
  | detach (t : ℕ)
  | delete (t : ℕ)
  | suspend (t : ℕ)
  | resume (t : ℕ)
  | changePriority (t priority : ℕ)
  /-- the timer of a thread runs out -/
  | timeout (t : ℕ)
  /-- calls of the current thread -/
  | yield
  | sleep (tick : ℕ)
  | sleepEnd
  | exit
  /-- a clock interrupt -/
  | tick
  | idle
  | schedule
  | systemStart
  | enterCritical
  | exitCritical

/-- A call of the current thread. -/
def byCurrent (s : Sched) (call : ℕ → Option Sched) : Option Sched := s.currentThread.bind call

/-- The steps.  A thread object is set up when it is not in use, and calls name threads
that exist. -/
def threadStep (s : Sched) : ThreadEvent → Option Sched
  | .init t priority tick =>
    if (s.thread t).stat = .close ∧ t ∉ s.defunct ∧ s.currentThread ≠ some t then
      s.rtThreadInit t priority tick else none
  | .create t priority tick mask =>
    if (s.thread t).stat = .close ∧ t ∉ s.defunct ∧ s.currentThread ≠ some t then
      s.rtThreadCreate t priority tick mask else none
  | .setCleanup t =>
    if (s.thread t).stat = .close then none else some (s.modify t ({ · with cleanup := true }))
  | .startup t => s.rtThreadStartup t
  | .detach t => if (s.thread t).stat = .close then none else some (s.rtThreadDetach t)
  | .delete t => if (s.thread t).stat = .close then none else some (s.rtThreadDelete t)
  | .suspend t => some (s.rtThreadSuspend t).2
  | .resume t => some (s.rtThreadResume t).2
  | .changePriority t priority =>
    if (s.thread t).stat = .close then none else s.rtThreadControl t priority
  | .timeout t => if (s.thread t).timerActive then s.rtThreadTimeout t else none
  | .yield => s.byCurrent s.rtThreadYield
  | .sleep tick => s.byCurrent fun t =>
    if (s.thread t).stat = .close then none else s.rtThreadSleep t tick
  | .sleepEnd => s.byCurrent fun t => some (s.rtThreadSleepEnd t)
  | .exit => s.byCurrent fun t => if (s.thread t).stat = .close then none else s.rtThreadExit t
  | .tick => s.byCurrent s.rtTickIncrease
  | .idle => some s.rtThreadIdleExcute
  | .schedule => s.rtSchedule
  | .systemStart => s.rtSystemSchedulerStart
  | .enterCritical => some s.rtEnterCritical
  | .exitCritical => s.rtExitCritical

/-- `rt_system_scheduler_init`: no thread exists. -/
def boot : Sched where
  thread _ := ⟨.close, 0, 0, 0#32, .eok, 0, 0, false, false, false, 0#32, 0#8⟩
  table _ := []
  waiting _ := []
  defunct := []
  readyPriorityGroup := 0#32
  currentThread := none
  schedulerLockNest := 0
  tick := 0

/-- What the end of a thread needs that was set up but not started: its priority has a
ready thread, or its `number_mask` has no bit of the group. -/
def EndsClean (s : Sched) (t : ℕ) : Prop :=
  (s.thread t).stat = .init → s.table (s.thread t).currentPriority = [] →
    (s.thread t).numberMask &&& s.readyPriorityGroup = 0#32

def ThreadGuard (s : Sched) : ThreadEvent → Prop
  | .detach t => s.EndsClean t
  | .delete t => s.EndsClean t
  | _ => True

theorem queued_boot : Queued boot where
  group p _ := by simp [boot]
  ready t p := by simp [boot]
  waiting t w hin := absurd hin not_mem_nil
  defunct t hin := absurd hin not_mem_nil
  tableNodup _ := List.Pairwise.nil
  waitingNodup _ := List.Pairwise.nil
  waitingOnce t w w' hin := absurd hin not_mem_nil
  defunctNodup := List.Pairwise.nil
  priority _ := ⟨(by decide : 0 < 32), (by decide : 0 < 32)⟩
  mask t hstat := hstat.elim noConfusion noConfusion
  current t hcur := absurd hcur (some_ne_none t).symm

namespace Queued

variable {s s' : Sched} {t : ℕ} {e : ThreadEvent}

theorem maskFits_of_endsClean (hclean : s.EndsClean t) (hexists : (s.thread t).stat ≠ .close) :
    s.MaskFits t := by
  cases hstat : (s.thread t).stat with
  | init =>
    by_cases hempty : s.table (s.thread t).currentPriority = []
    · exact .inr (.inr (hclean hstat hempty))
    · exact .inr (.inl hempty)
  | ready => exact .inl (.inl hstat)
  | suspend => exact .inl (.inr hstat)
  | close => exact absurd hstat hexists

theorem current_maskFits (h : Queued s) (hcur : s.currentThread = some t)
    (hexists : (s.thread t).stat ≠ .close) : s.MaskFits t :=
  maskFits_of_endsClean (fun hinit => absurd hinit (h.current t hcur)) hexists

theorem threadStep (h : Queued s) (hguard : ThreadGuard s e) (hs : s.threadStep e = some s') :
    Queued s' := by
  cases e with
  | init t priority tick =>
    obtain ⟨⟨hclose, hdefunct, hcurrent⟩, hs⟩ := ite_none_right_eq_some.mp hs
    exact h.initThread hclose hdefunct hcurrent hs
  | create t priority tick mask =>
    obtain ⟨⟨hclose, hdefunct, hcurrent⟩, hs⟩ := ite_none_right_eq_some.mp hs
    exact h.rtThreadCreate hclose hdefunct hcurrent hs
  | setCleanup t =>
    obtain ⟨-, hs⟩ := ite_none_left_eq_some.mp hs
    exact some.inj hs ▸ h.modify_same t fun _ => ⟨rfl, rfl, rfl, rfl⟩
  | startup t => exact h.rtThreadStartup hs
  | detach t =>
    obtain ⟨hexists, hs⟩ := ite_none_left_eq_some.mp hs
    exact some.inj hs ▸ h.rtThreadDetach (maskFits_of_endsClean hguard hexists)
  | delete t =>
    obtain ⟨hexists, hs⟩ := ite_none_left_eq_some.mp hs
    exact some.inj hs ▸ h.rtThreadDelete (maskFits_of_endsClean hguard hexists)
  | suspend t => exact some.inj hs ▸ h.rtThreadSuspend t
  | resume t => exact some.inj hs ▸ h.rtThreadResume t
  | changePriority t priority => exact h.rtThreadControl (ite_none_left_eq_some.mp hs).2
  | timeout t => exact h.rtThreadTimeout (ite_none_right_eq_some.mp hs).2
  | yield =>
    obtain ⟨t, -, hs⟩ := bind_eq_some_iff.mp hs
    exact h.rtThreadYield hs
  | sleep tick =>
    obtain ⟨t, -, hs⟩ := bind_eq_some_iff.mp hs
    exact h.rtThreadSleep (ite_none_left_eq_some.mp hs).2
  | sleepEnd =>
    obtain ⟨t, -, hs⟩ := bind_eq_some_iff.mp hs
    exact some.inj hs ▸ h.rtThreadSleepEnd t
  | exit =>
    obtain ⟨t, hcur, hs⟩ := bind_eq_some_iff.mp hs
    obtain ⟨hexists, hs⟩ := ite_none_left_eq_some.mp hs
    exact h.rtThreadExit (h.current_maskFits hcur hexists) hs
  | tick =>
    obtain ⟨t, -, hs⟩ := bind_eq_some_iff.mp hs
    exact h.rtTickIncrease hs
  | idle => exact some.inj hs ▸ h.rtThreadIdleExcute
  | schedule => exact h.rtSchedule hs
  | systemStart =>
    obtain ⟨t, ht, rfl⟩ := map_eq_some_iff.mp hs
    exact h.switch ht
  | enterCritical => exact some.inj hs ▸ h.lock _
  | exitCritical =>
    change s.rtExitCritical = some s' at hs
    unfold rtExitCritical at hs
    split at hs
    · exact (h.lock 0).rtSchedule hs
    · exact some.inj hs ▸ h.lock _

/-- When the bits are right after the end of a thread that was not started, its mask
had none of them. -/
theorem endsClean_of_shut (h : Queued s) (hgroup : (s.shut t).GroupMatches) : s.EndsClean t := by
  intro hinit hempty
  have hnot : (s.thread t).stat ≠ .ready := hinit.trans_ne (by decide)
  have hbits : (s.shut t).readyPriorityGroup =
      s.readyPriorityGroup &&& ~~~(s.thread t).numberMask := by
    change (if (s.table _).erase t = [] then _ else _) = _
    rw [if_pos (by rw [hempty]; rfl)]
  refine eq_of_getLsbD_eq fun q hq => ?_
  have hq' : q < rtThreadPriorityMax := hq
  rw [getLsbD_and, getLsbD_zero]
  by_contra hboth
  obtain ⟨hmask, hset⟩ := and_eq_true_iff.mp (eq_true_of_ne_false hboth)
  have hlist : (s.shut t).table q ≠ [] := by
    change (s.table q).erase t ≠ []
    rw [erase_of_not_mem (h.not_mem_table hnot q)]
    exact (h.group q hq').mp hset
  have := (hgroup q hq').mpr hlist
  rw [hbits, getLsbD_and, getLsbD_not, hmask] at this
  simp at this

theorem threadGuard_of_groupMatches (h : Queued s) (hs : s.threadStep e = some s')
    (hgroup : s'.GroupMatches) : ThreadGuard s e := by
  cases e with
  | detach t =>
    obtain ⟨-, hs⟩ := ite_none_left_eq_some.mp hs
    obtain rfl := some.inj hs
    refine h.endsClean_of_shut ?_
    unfold Sched.rtThreadDetach at hgroup
    split at hgroup
    · exact hgroup
    · exact hgroup
  | delete t =>
    obtain ⟨-, hs⟩ := ite_none_left_eq_some.mp hs
    obtain rfl := some.inj hs
    exact h.endsClean_of_shut hgroup
  | _ => trivial

end Queued

/-- `rt_schedule` switches to the first thread of the first list that is not empty. -/
def SchedulesFirst (s : Sched) : Prop :=
  ∀ p < rtThreadPriorityMax, ∀ t rest, s.table p = t :: rest → (∀ q < p, s.table q = []) →
    s.schedulerLockNest = 0 → s.rtSchedule = some { s with currentThread := some t }

theorem GroupMatches.schedulesFirst (h : s.GroupMatches) : s.SchedulesFirst := by
  intro p hp t rest hlist hlow hunlocked
  obtain ⟨u, hu⟩ := exists_toThread h hp (by rw [hlist]; exact cons_ne_nil _ _)
  obtain ⟨q, hq, ⟨rest', hlist'⟩, hlow'⟩ := toThread_spec h hu
  obtain rfl : p = q := by
    rcases Nat.lt_trichotomy p q with hlt | heq | hgt
    · exact absurd (hlist.symm.trans (hlow' p hlt)) (cons_ne_nil _ _)
    · exact heq
    · exact absurd (hlist'.symm.trans (hlow q hgt)) (cons_ne_nil _ _)
  obtain rfl : t = u := (cons.inj (hlist.symm.trans hlist')).1
  rw [rtSchedule, if_pos hunlocked, hu, map_some]

/-- **The ready queue.**  In a run of any steps of any threads, the bits of the group say
in every state which ready lists have a thread, and `rt_schedule` takes the first thread
of the highest priority, if and only if every thread that is deleted or detached before
it was started ends clean. -/
theorem ready_queue_consistent_iff (events : List ThreadEvent) :
    Always threadStep (fun s => s.GroupMatches ∧ s.SchedulesFirst) boot events ↔
      Meets threadStep ThreadGuard boot events :=
  always_iff_meets (fun _ h => ⟨h.group, h.group.schedulesFirst⟩)
    (fun _ _ _ h hguard hs => h.threadStep hguard hs)
    (fun _ _ _ h hs hP => h.threadGuard_of_groupMatches hs hP.1) queued_boot

/-- Thread 1 of priority 5 is started and detached; thread 2 of priority 5 becomes ready;
thread 1 is set up again with priority 20 and detached before it is started. -/
def detachedBeforeStart : List ThreadEvent :=
  [.init 1 5 10, .startup 1, .detach 1, .init 2 5 10, .startup 2, .init 1 20 10, .detach 1]

/-- The ready thread 2 is lost: its bit is cleared although its list is not empty. -/
theorem ready_thread_lost :
    ∃ s, run threadStep boot detachedBeforeStart = some s ∧
      s.readyPriorityGroup.getLsbD 5 = false ∧ s.table 5 = [2] :=
  exists_of_any _ (by decide +kernel) fun _ _ h => h

end Sched

end Easyio.Kernel
