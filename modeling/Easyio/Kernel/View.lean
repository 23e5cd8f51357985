import Easyio.Kernel.Ipc
import Easyio.Kernel.ReadyQueue
import Mathlib.Data.List.Sort

/-!
# What the objects see of the threads

The objects of `Kernel.Ipc` depend on the states and priorities of the threads and on the
lists of those that wait, not on the ready lists and their bits.  `View` is this part of
the scheduler.  A step suspends a thread in a list, resumes a thread, changes a priority, or
leaves the view as it is.
-/

namespace Easyio.Kernel

open Function List Ipc

/-- The states and priorities of the threads, and the lists of those that wait. -/
@[ext]
structure View where
  stat : ℕ → Stat
  priority : ℕ → ℕ
  waiting : Wait → List ℕ

namespace View

variable (v : View)

/-- The thread `t` stops. -/
def park (t : ℕ) : View := { v with stat := update v.stat t .suspend }

/-- The thread `t` stops and waits for `w`. -/
def suspend (w : Wait) (t : ℕ) (flag : Flag) : View :=
  { v.park t with
    waiting := update v.waiting w (Sched.place v.priority t (v.waiting w) flag) }

/-- The thread `t` is ready again, and waits for nothing. -/
def resume (t : ℕ) : View :=
  { v with
    stat := update v.stat t .ready
    waiting := fun w => (v.waiting w).erase t }

def setPriority (t priority : ℕ) : View :=
  { v with priority := update v.priority t priority }

/-- `Sched.raise` -/
def raise (o t : ℕ) : View :=
  if v.priority t < v.priority o then v.setPriority o (v.priority t) else v

end View

namespace Sched

def view (s : Sched) : View where
  stat t := (s.thread t).stat
  priority t := (s.thread t).currentPriority
  waiting := s.waiting

variable {s : Sched} {t : ℕ}

theorem view_modify (s : Sched) (t : ℕ) {f : Thread → Thread}
    (hf : ∀ thread, (f thread).stat = thread.stat ∧
      (f thread).currentPriority = thread.currentPriority) : (s.modify t f).view = s.view := by
  have hall : ∀ u, ((s.modify t f).thread u).stat = (s.thread u).stat ∧
      ((s.modify t f).thread u).currentPriority = (s.thread u).currentPriority := by
    intro u
    by_cases hu : u = t
    · rw [hu, modify_thread_self]
      exact hf _
    · rw [modify_thread_of_ne s hu]
      exact ⟨rfl, rfl⟩
  exact View.ext (funext fun u => (hall u).1) (funext fun u => (hall u).2) rfl

section

variable (h : Queued s) (ht : (s.thread t).stat = .ready)
include h ht

theorem Queued.not_waiting (w : Wait) : t ∉ s.waiting w :=
  h.not_mem_waiting (ht.trans_ne (by decide)) w

theorem Queued.ne_of_waiting {w : Wait} : ∀ u ∈ s.waiting w, u ≠ t :=
  fun _ hu he => h.not_waiting ht w (he ▸ hu)

/-- The lists of waiting threads without a thread that does not wait. -/
theorem erase_waiting : (fun w => (s.waiting w).erase t) = s.waiting :=
  funext fun w => erase_of_not_mem (h.not_waiting ht w)

end

/-- `rt_schedule_insert_thread` of a thread that was taken out of its list. -/
theorem view_insert {r : Sched} (hr : Queued.Without s t r) : (r.rtScheduleInsertThread t).view =
      (s.view.resume t).setPriority t (r.thread t).currentPriority := by
  refine View.ext (funext fun u => ?_) (funext fun u => ?_) hr.waiting
  all_goals
    by_cases hu : u = t
    · subst hu
      simp [view, View.resume, View.setPriority, rtScheduleInsertThread, modify]
    · simp [view, View.resume, View.setPriority, rtScheduleInsertThread, modify, hu, hr.other u hu]

end Sched

namespace View

theorem setPriority_self (v : View) (t : ℕ) : v.setPriority t (v.priority t) = v :=
  View.ext rfl (update_eq_self ..) rfl

theorem resume_of_ready {v : View} {t : ℕ} (ht : v.stat t = .ready)
    (hwaiting : ∀ w, t ∉ v.waiting w) : v.resume t = v := by
  refine View.ext ?_ rfl (funext fun w => erase_of_not_mem (hwaiting w))
  change update v.stat t .ready = v.stat
  rw [← ht, update_eq_self]

variable {v : View} {ts : List ℕ} {w : Wait}

theorem foldl_resume_sublist (v : View) (ts : List ℕ) (w : Wait) :
    ((ts.foldl resume v).waiting w).Sublist (v.waiting w) := by
  induction ts generalizing v with
  | nil => exact .refl _
  | cons t ts ih => exact (ih (v.resume t)).trans erase_sublist

theorem foldl_resume_of_not_mem (hts : ∀ t ∈ ts, t ∉ v.waiting w) :
    (ts.foldl resume v).waiting w = v.waiting w := by
  induction ts generalizing v with
  | nil => rfl
  | cons t ts ih =>
    have herase : (v.resume t).waiting w = v.waiting w :=
      erase_of_not_mem (hts t mem_cons_self)
    refine (ih fun u hu => ?_).trans herase
    rw [herase]
    exact hts u (mem_cons_of_mem _ hu)

theorem mem_foldl_resume {u : ℕ} (hnodup : (v.waiting w).Nodup) :
    u ∈ (ts.foldl resume v).waiting w ↔ u ∈ v.waiting w ∧ u ∉ ts := by
  induction ts generalizing v with
  | nil => exact ⟨fun h => ⟨h, not_mem_nil⟩, And.left⟩
  | cons t ts ih =>
    have herase : (v.resume t).waiting w = (v.waiting w).erase t := rfl
    rw [foldl_cons, ih (hnodup.sublist erase_sublist), herase, hnodup.mem_erase_iff,
      mem_cons, not_or, and_assoc, and_left_comm]

theorem raise_stat (v : View) (o t : ℕ) : (v.raise o t).stat = v.stat := by
  unfold raise
  split <;> rfl

theorem raise_waiting (v : View) (o t : ℕ) : (v.raise o t).waiting = v.waiting := by
  unfold raise
  split <;> rfl

end View

namespace Sched

variable {s : Sched} {t u : ℕ} {list rest : List ℕ} {flag : Flag} {w : Wait}

/-! ## Queues in order -/

theorem insertByPriority_eq (priority : ℕ → ℕ) (t : ℕ) (list : List ℕ) :
    insertByPriority priority t list = list.orderedInsert (priority · < priority ·) t := by
  induction list with
  | nil => rfl
  | cons a rest ih => rw [insertByPriority, orderedInsert_cons, ih]

variable {priority : ℕ → ℕ}

theorem perm_place : (place priority t list flag).Perm (t :: list) := by
  cases flag with
  | fifo => exact perm_append_singleton t list
  | prio =>
    rw [place, insertByPriority_eq]
    exact perm_orderedInsert ..

theorem mem_place : u ∈ place priority t list flag ↔ u = t ∨ u ∈ list :=
  perm_place.mem_iff.trans mem_cons

theorem nodup_place (ht : t ∉ list) (hlist : list.Nodup) : (place priority t list flag).Nodup :=
  perm_place.nodup_iff.mpr (nodup_cons.mpr ⟨ht, hlist⟩)

/-- A suspended thread that waits for nothing is put into a list. -/
theorem Queued.enlist (h : Queued s) (ht : (s.thread t).stat = .suspend)
    (hout : ∀ w, t ∉ s.waiting w) (w : Wait) (flag : Flag) : Queued (s.enlist w t flag) := by
  have hself : (s.enlist w t flag).waiting w =
      place (fun u => (s.thread u).currentPriority) t (s.waiting w) flag := update_self ..
  have hother : ∀ w' ≠ w, (s.enlist w t flag).waiting w' = s.waiting w' := fun w' hw =>
    update_of_ne hw ..
  have hmem : ∀ u w', u ∈ (s.enlist w t flag).waiting w' → u ∈ s.waiting w' ∨ u = t ∧ w' = w := by
    intro u w' hin
    by_cases hw : w' = w
    · rw [hw, hself, mem_place] at hin
      rcases hin with rfl | hin
      exacts [.inr ⟨rfl, hw⟩, .inl (hw ▸ hin)]
    · exact .inl (hother w' hw ▸ hin)
  constructor
  case waiting =>
    intro u w' hin
    rcases hmem u w' hin with hin | ⟨rfl, -⟩
    · exact h.waiting u w' hin
    · exact ht
  case waitingNodup =>
    intro w'
    by_cases hw : w' = w
    · rw [hw, hself]
      exact nodup_place (hout w) (h.waitingNodup w)
    · rw [hother w' hw]
      exact h.waitingNodup w'
  case waitingOnce =>
    intro u w₁ w₂ hin₁ hin₂
    rcases hmem u w₁ hin₁ with h₁ | ⟨heq, hw₁⟩ <;> rcases hmem u w₂ hin₂ with h₂ | ⟨heq', hw₂⟩
    · exact h.waitingOnce u w₁ w₂ h₁ h₂
    · exact absurd (heq' ▸ h₁) (hout w₁)
    · exact absurd (heq ▸ h₂) (hout w₂)
    · rw [hw₁, hw₂]
  case group => exact h.group
  case ready => exact h.ready
  case defunct => exact h.defunct
  case tableNodup => exact h.tableNodup
  case defunctNodup => exact h.defunctNodup
  case priority => exact h.priority
  case mask => exact h.mask
  case current => exact h.current

/-- What is left of the lists when the first thread of one of them is woken. -/
theorem resume_head (h : Queued s) (hw : s.waiting w = t :: rest) :
    (s.view.resume t).waiting = update s.waiting w rest := by
  funext w'
  change (s.waiting w').erase t = _
  by_cases hne : w' = w
  · subst hne
    rw [update_self, hw, erase_cons_head]
  · rw [update_of_ne hne, erase_of_not_mem]
    exact fun hin => hne (h.waitingOnce t w' w hin (hw ▸ mem_cons_self ..))

end Sched

theorem View.mem_suspend {v : View} {w : Wait} {t u : ℕ} {flag : Flag} :
    u ∈ (v.suspend w t flag).waiting w ↔ u = t ∨ u ∈ v.waiting w := by
  have hlist : (v.suspend w t flag).waiting w = Sched.place v.priority t (v.waiting w) flag :=
    update_self ..
  rw [hlist, Sched.mem_place]

end Easyio.Kernel
