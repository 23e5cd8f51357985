import Easyio.Kernel.SemCount
import Mathlib.Algebra.Group.Pi.Basic
import Mathlib.Algebra.Ring.Nat

/-!
# The order in which threads wait

A step either takes threads out of the lists of those that wait or puts the caller into
one of them (`listed_cases`).  With the time of its last suspension recorded for each
thread, the lists of objects with `RT_IPC_FLAG_FIFO` are in the order of these times, and
those of objects with `RT_IPC_FLAG_PRIO` in the order of the priorities and among equal
ones of the times, as long as no suspended thread gets another priority (`wake_order`).
-/

namespace Easyio.Kernel

open Function List Option Runs.Partial Sched View

namespace Ipc

variable {s s' : Ipc} {e : Event} {w : Wait} {t u i : ℕ}

/-! ## Arrivals and departures -/

/-- The caller is suspended in the list of `w`, in the place that the flag of the object
gives it. -/
structure Arrives (s : Ipc) (e : Event) (s' : Ipc) (w : Wait) (t : ℕ) : Prop where
  waits : s.waits e = some w
  before : (s.sched.thread t).stat = .ready
  after : (s'.sched.thread t).stat = .suspend
  waiting : s'.sched.waiting = update s.sched.waiting w
    (place s'.sched.view.priority t (s.sched.waiting w) (s.flag w))

theorem Arrives.mem {w' : Wait} (h : Arrives s e s' w t) (hin : u ∈ s.sched.waiting w') :
    u ∈ s'.sched.waiting w' := by
  rw [h.waiting]
  by_cases hw : w' = w
  · subst hw
    rw [update_self]
    exact mem_place.mpr (.inr hin)
  · rwa [update_of_ne hw]

theorem arrives_of_view {v : View} (hwaits : s.waits e = some w)
    (ht : (s.sched.thread t).stat = .ready) (hwaiting : v.waiting = s.sched.waiting)
    (hview : s'.sched.view = v.suspend w t (s.flag w)) : Arrives s e s' w t := by
  refine ⟨hwaits, ht, ?_, ?_⟩
  · exact (congrFun (congrArg stat hview) t).trans (update_self ..)
  · refine (congrArg View.waiting hview).trans ?_
    rw [congrArg priority hview, ← hwaiting]
    rfl

/-- A step takes threads out of the lists, or the caller arrives in one. -/
theorem listed_cases (h : s.sched.Queued) (hs : s.step e = some s') :
    (∀ w, (s'.sched.waiting w).Sublist (s.sched.waiting w)) ∨ ∃ w t, Arrives s e s' w t := by
  have hshrink {v : View} (hv : s'.sched.view = v)
      (hsub : ∀ w, (v.waiting w).Sublist (s.sched.waiting w)) :
      ∀ w, (s'.sched.waiting w).Sublist (s.sched.waiting w) := by
    rw [← hv] at hsub
    exact hsub
  have herase (v : View) (t : ℕ) (hv : v.waiting = s.sched.waiting) :
      ∀ w, ((v.resume t).waiting w).Sublist (s.sched.waiting w) := fun w => by
    rw [← hv]
    exact erase_sublist
  rcases step_cases h hs with hplain | ⟨t, -, htimeout⟩ | ⟨t, i, time, rfl, ht, htaken⟩ |
    ⟨t, i, -, -, hreleased⟩
  · have hmove := hplain.stepped.move
    generalize hv : s'.sched.view = v at hmove
    cases hmove with
    | same | parked t ht => exact .inl (hshrink hv fun _ => .refl _)
    | blocked w t hon hw ht => exact .inr ⟨w, t, arrives_of_view hon ht rfl hv⟩
    | woken w t rest hw hlist => exact .inl (hshrink hv (herase _ t rfl))
    | sent i ts hsub => exact .inl (hshrink hv (foldl_resume_sublist s.sched.view ts))
  · exact .inl (hshrink htimeout.view (herase _ t rfl))
  · cases htaken with
    | nested _ hstill _ | acquired _ _ hstill _ | refused _ _ _ hstill _ =>
      exact .inl (hshrink hstill.view fun _ => .refl _)
    | waited o _ _ _ _ _ hview _ _ _ =>
      exact .inr ⟨.mutex i, t, arrives_of_view rfl ht (raise_waiting _ o t) hview⟩
  · cases hreleased with
    | denied _ hstill _ => exact .inl (hshrink hstill.view fun _ => .refl _)
    | nested _ _ hsched _ => exact .inl (hshrink (congrArg view hsched) fun _ => .refl _)
    | freed _ _ _ _ hview _ _ _ => exact .inl (hshrink hview fun _ => .refl _)
    | handed u rest _ _ _ _ hview _ _ _ => exact .inl (hshrink hview (herase _ u rfl))

/-- A thread that leaves a list, other than one of an event, before its time is over is
the first of it. -/
theorem leaves_first (h : s.sched.Queued) (hs : s.step e = some s') (he : ∀ t, e ≠ .timeout t)
    (hw : ∀ i, w ≠ .event i) (hin : u ∈ s.sched.waiting w) (hout : u ∉ s'.sched.waiting w) :
    s.sched.waiting w = u :: s'.sched.waiting w := by
  -- the first thread of a list is taken out
  have hwoken {t : ℕ} {w' : Wait} {rest : List ℕ} {v : View}
      (hlist : s.sched.waiting w' = t :: rest)
      (hv : v.waiting = s.sched.waiting) (hview : s'.sched.view = v.resume t) :
      s.sched.waiting w = u :: s'.sched.waiting w := by
    have hwaiting : s'.sched.waiting = update s.sched.waiting w' rest := by
      refine (congrArg View.waiting hview).trans ?_
      rw [← resume_head h hlist, resume, hv]
      rfl
    rw [hwaiting] at hout ⊢
    by_cases hw' : w = w'
    · subst hw'
      rw [update_self] at hout ⊢
      rw [hlist] at hin ⊢
      rw [(mem_cons.mp hin).resolve_right hout]
    · rw [update_of_ne hw'] at hout
      exact absurd hin hout
  -- the list of `w` is the same
  have hsame {v : View} (hview : s'.sched.view = v) (hv : v.waiting w = s.sched.waiting w) :
      s.sched.waiting w = u :: s'.sched.waiting w := by
    refine absurd hin ?_
    rw [← hv, ← hview]
    exact hout
  rcases step_cases h hs with hplain | ⟨t, rfl, -⟩ | ⟨t, i, time, rfl, ht, htaken⟩ |
    ⟨t, i, -, -, hreleased⟩
  · have hmove := hplain.stepped.move
    generalize hview : s'.sched.view = v at hmove
    cases hmove with
    | same | parked t ht => exact hsame hview rfl
    | blocked w' t hon hw' ht =>
      exact absurd ((arrives_of_view hon ht rfl hview).mem hin) hout
    | woken w' t rest hw' hlist => exact hwoken hlist rfl hview
    | sent i ts hsub =>
      refine hsame hview (foldl_resume_of_not_mem fun t ht hmem => hw i ?_)
      exact h.waitingOnce t w (.event i) hmem (hsub.subset ht)
  · exact absurd rfl (he t)
  · cases htaken with
    | nested _ hstill _ | acquired _ _ hstill _ | refused _ _ _ hstill _ =>
      exact hsame hstill.view rfl
    | waited o _ _ _ _ _ hview _ _ _ =>
      have harrives : Arrives s (.call t (.mutexTake i time)) s' (.mutex i) t :=
        arrives_of_view rfl ht (raise_waiting _ o t) hview
      exact absurd (harrives.mem hin) hout
  · cases hreleased with
    | denied _ hstill _ => exact hsame hstill.view rfl
    | nested _ _ hsched _ => exact hsame (congrArg view hsched) rfl
    | freed _ _ _ _ hview _ _ _ => exact hsame hview rfl
    | handed u rest _ _ hlist _ hview _ _ _ => exact hwoken hlist rfl hview

/-! ## Semaphores -/

/-- Nobody waits for a semaphore that has a value. -/
def SemIdle (s : Ipc) : Prop := ∀ i, 0 < (s.sem i).value → s.sched.waiting (.sem i) = []

theorem take_of_waits (hwaits : s.waits e = some (.sem i)) :
    ∃ t, (∃ time, e = .call t (.semTake i time)) ∨ e = .call t (.semTrytake i) := by
  cases e with
  | call t c =>
    cases c with
    | semTake j time =>
      obtain rfl : j = i := Wait.sem.inj (some.inj hwaits)
      exact ⟨t, .inl ⟨time, rfl⟩⟩
    | semTrytake j =>
      obtain rfl : j = i := Wait.sem.inj (some.inj hwaits)
      exact ⟨t, .inr rfl⟩
    | _ => simp [waits, Call.waits] at hwaits
  | resume t =>
    change (s.pc t).waits = _ at hwaits
    cases hpc : s.pc t <;> simp [hpc, Pc.waits] at hwaits
  | timeout t | tick => simp [waits] at hwaits

theorem sched_rtSemTake {time : ℤ} (hpos : 0 < (s.sem i).value)
    (hs : s.rtSemTake t i time = some s') : s'.sched = s.sched := by
  rw [rtSemTake, if_pos hpos] at hs
  rw [← some.inj hs]
  rfl

/-- A semaphore has a value after a step only if it had one before, or if it was released
while nobody waited. -/
theorem waiting_eq_nil_of_value (hidle : SemIdle s) (hs : s.step e = some s')
    (hpos : 0 < (s'.sem i).value) : s.sched.waiting (.sem i) = [] := by
  have htake {t j : ℕ} {time : ℤ} (hs : s.rtSemTake t j time = some s') :
      s.sched.waiting (.sem i) = [] := by
    have hvalue := value_rtSemTake (i := i) hs
    exact hidle i (by omega)
  cases e with
  | call t call =>
    cases call with
    | semTake j time | semTrytake j => exact htake (perform_of_step hs)
    | semRelease j =>
      obtain ⟨r, hr, hret⟩ := map_eq_some_iff.mp (perform_of_step hs)
      have hvalue := value_rtSemRelease (i := i) hr
      have hsem : s'.sem = r.sem := by rw [← hret]; rfl
      rw [← hsem] at hvalue
      by_cases hcond : j = i ∧ s.sched.waiting (.sem i) = []
      · exact hcond.2
      · rw [if_neg hcond] at hvalue
        exact hidle i (hvalue ▸ hpos)
    | _ => exact hidle i (sem_step rfl hs ▸ hpos)
  | _ => exact hidle i (sem_step rfl hs ▸ hpos)

theorem semIdle_step (h : s.sched.Queued) (hidle : SemIdle s) (hs : s.step e = some s') :
    SemIdle s' := by
  intro i hpos
  have hnil := waiting_eq_nil_of_value hidle hs hpos
  rcases listed_cases h hs with hsub | ⟨w, t, harrives⟩
  · exact eq_nil_of_sublist_nil (hnil ▸ hsub (.sem i))
  by_cases hw : Wait.sem i = w
  swap
  · rw [harrives.waiting, update_of_ne hw]
    exact hnil
  -- a take would have found the value
  subst hw
  have hsame : s'.sched = s.sched := by
    have htaken {u : ℕ} {time : ℤ} (hs : s.rtSemTake u i time = some s') :
        s'.sched = s.sched := by
      have hvalue := value_rtSemTake (i := i) hs
      exact sched_rtSemTake (by omega) hs
    obtain ⟨u, ⟨time, rfl⟩ | rfl⟩ := take_of_waits harrives.waits
    · exact htaken (perform_of_step hs)
    · exact htaken (perform_of_step hs)
  have hafter := harrives.after
  rw [hsame, harrives.before] at hafter
  exact Stat.noConfusion hafter

/-! ## The order of the lists -/

/-- The order of a list: by the times of arrival, or by the priorities and among equal
ones by the times. -/
def Before (priority arrived : ℕ → ℕ) : Flag → ℕ → ℕ → Prop
  | .fifo, t, u => arrived t < arrived u
  | .prio, t, u => priority t < priority u ∨ priority t = priority u ∧ arrived t < arrived u

/-- A thread that arrives after all others gets into the right place. -/
theorem pairwise_place {priority arrived : ℕ → ℕ} {flag : Flag} {list : List ℕ}
    (hlist : list.Pairwise (Before priority arrived flag))
    (hlast : ∀ u ∈ list, arrived u < arrived t) :
    (place priority t list flag).Pairwise (Before priority arrived flag) := by
  cases flag with
  | fifo =>
    refine pairwise_append.mpr ⟨hlist, pairwise_singleton _ t, fun u hu v hv => ?_⟩
    rw [mem_singleton.mp hv]
    exact hlast u hu
  | prio =>
    change (insertByPriority priority t list).Pairwise _
    induction list with
    | nil => exact pairwise_singleton _ t
    | cons a rest ih =>
      obtain ⟨ha, hrest⟩ := pairwise_cons.mp hlist
      rw [insertByPriority]
      split
      · rename_i hlt
        refine pairwise_cons.mpr ⟨fun u hu => .inl ?_, hlist⟩
        rcases mem_cons.mp hu with rfl | hu
        · exact hlt
        · rcases ha u hu with h | h <;> omega
      · refine pairwise_cons.mpr ⟨fun u hu => ?_,
          ih (fun u hu => hlast u (mem_cons_of_mem _ hu)) hrest⟩
        rw [insertByPriority_eq, mem_orderedInsert] at hu
        rcases hu with rfl | hu
        · have := hlast a mem_cons_self
          unfold Before
          omega
        · exact ha u hu

/-- A clock that counts the steps, and for each thread the time of the last step by which
it was suspended. -/
structure Stamps where
  clock : ℕ
  arrived : ℕ → ℕ

def Stamps.note (k : Stamps) (s : Ipc) (_ : Event) (s' : Ipc) : Stamps where
  clock := k.clock + 1
  arrived t :=
    if (s.sched.thread t).stat ≠ .suspend ∧ (s'.sched.thread t).stat = .suspend then k.clock
    else k.arrived t

/-- A step, with the times of arrival. -/
abbrev stampedStep : Ipc × Stamps → Event → Option (Ipc × Stamps) := observing step Stamps.note

variable {c c' : Ipc × Stamps}

/-- The list of `w` is in order. -/
def InOrder (c : Ipc × Stamps) (w : Wait) : Prop :=
  (c.1.sched.waiting w).Pairwise (Before c.1.sched.view.priority c.2.arrived (c.1.flag w))

/-- Who waits has arrived before now. -/
structure Arrived (c : Ipc × Stamps) : Prop where
  queued : c.1.sched.Queued
  past : ∀ w, ∀ t ∈ c.1.sched.waiting w, c.2.arrived t < c.2.clock

/-- No suspended thread gets another priority. -/
def Steady (s : Ipc) (e : Event) : Prop :=
  ∀ s', s.step e = some s' → ∀ t, (s.sched.thread t).stat = .suspend →
    (s'.sched.thread t).currentPriority = (s.sched.thread t).currentPriority

theorem arrived_of_waiting (h : c.1.sched.Queued) (hs : stampedStep c e = some c')
    (ht : t ∈ c.1.sched.waiting w) : c'.2.arrived t = c.2.arrived t := by
  rw [(observing_eq hs).2]
  exact if_neg fun hand => hand.1 (h.waiting t w ht)

theorem arrived_of_arrives (hs : stampedStep c e = some c') (h : Arrives c.1 e c'.1 w t) :
    c'.2.arrived t = c.2.clock := by
  rw [(observing_eq hs).2]
  refine if_pos ⟨fun hsuspend => ?_, h.after⟩
  exact Stat.noConfusion (h.before.symm.trans hsuspend)

theorem Arrived.step (h : Arrived c) (hs : stampedStep c e = some c') : Arrived c' := by
  obtain ⟨hstep, hnote⟩ := observing_eq hs
  have hclock : c'.2.clock = c.2.clock + 1 := by rw [hnote]; rfl
  refine ⟨queued_step h.queued hstep, fun w u hu => ?_⟩
  have hold (hin : u ∈ c.1.sched.waiting w) : c'.2.arrived u < c'.2.clock := by
    rw [arrived_of_waiting h.queued hs hin, hclock]
    exact Nat.lt_succ_of_lt (h.past w u hin)
  rcases listed_cases h.queued hstep with hsub | ⟨w', t, harrives⟩
  · exact hold ((hsub w).subset hu)
  rw [harrives.waiting] at hu
  by_cases hw : w = w'
  swap
  · rw [update_of_ne hw] at hu
    exact hold hu
  subst hw
  rw [update_self] at hu
  rcases mem_place.mp hu with rfl | hu
  · rw [arrived_of_arrives hs harrives, hclock]
    exact Nat.lt_succ_self _
  · exact hold hu

/-- A step keeps a list in order, of threads with priorities only if these do not
change. -/
theorem InOrder.step (h : Arrived c) (hw : InOrder c w)
    (hsteady : c.1.flag w = .prio → Steady c.1 e) (hs : stampedStep c e = some c') :
    InOrder c' w := by
  obtain ⟨hstep, -⟩ := observing_eq hs
  have hflag : c'.1.flag = c.1.flag := flag_step h.queued hstep
  -- the order of those who waited before is the same
  have hold : (c.1.sched.waiting w).Pairwise
      (Before c'.1.sched.view.priority c'.2.arrived (c.1.flag w)) := by
    refine List.Pairwise.imp_of_mem (fun {t u} ht hu hbefore => ?_) hw
    have harrived : ∀ v ∈ c.1.sched.waiting w, c'.2.arrived v = c.2.arrived v := fun v hv =>
      arrived_of_waiting h.queued hs hv
    cases hkind : c.1.flag w with
    | fifo =>
      rw [hkind] at hbefore
      rw [Before, harrived t ht, harrived u hu]
      exact hbefore
    | prio =>
      have hpriority : ∀ v ∈ c.1.sched.waiting w,
          c'.1.sched.view.priority v = c.1.sched.view.priority v := fun v hv =>
        hsteady hkind _ hstep v (h.queued.waiting v w hv)
      rw [hkind] at hbefore
      rw [Before, harrived t ht, harrived u hu, hpriority t ht, hpriority u hu]
      exact hbefore
  unfold InOrder
  rw [hflag]
  rcases listed_cases h.queued hstep with hsub | ⟨w', t, harrives⟩
  · exact hold.sublist (hsub w)
  rw [harrives.waiting]
  by_cases hw' : w = w'
  swap
  · rwa [update_of_ne hw']
  subst hw'
  rw [update_self]
  refine pairwise_place hold fun u hu => ?_
  rw [arrived_of_waiting h.queued hs hu, arrived_of_arrives hs harrives]
  exact h.past w u hu

/-- The invariant of all runs. -/
structure Lined (c : Ipc × Stamps) : Prop extends Arrived c where
  idle : SemIdle c.1
  fifo : ∀ w, c.1.flag w = .fifo → InOrder c w

/-- The invariant of runs that change no priority of a suspended thread. -/
structure AllLined (c : Ipc × Stamps) : Prop extends Arrived c where
  order : ∀ w, InOrder c w

theorem Lined.step (h : Lined c) (hs : stampedStep c e = some c') : Lined c' := by
  have hstep := (observing_eq hs).1
  refine ⟨h.toArrived.step hs, semIdle_step h.queued h.idle hstep, fun w hw => ?_⟩
  rw [flag_step h.queued hstep] at hw
  exact InOrder.step h.toArrived (h.fifo w hw)
    (fun hprio => Flag.noConfusion (hw.symm.trans hprio)) hs

theorem AllLined.step (h : AllLined c) (hsteady : Steady c.1 e) (hs : stampedStep c e = some c') :
    AllLined c' :=
  ⟨h.toArrived.step hs, fun w => InOrder.step h.toArrived (h.order w) (fun _ => hsteady) hs⟩

/-- **The order of waking.**  Start with lists that are in order and nobody waiting.  In
every state of every run of any calls, with any timeouts in between, nobody waits for a
semaphore that has a value.  The lists of objects with `RT_IPC_FLAG_FIFO` are in the order
of arrival.  If no step has changed the priority of a suspended thread, the lists of
objects with `RT_IPC_FLAG_PRIO` are in the order of the priorities, and among equal ones
of arrival.  A thread that leaves a list, other than one of an event, by another step
than its timeout is the first of it. -/
theorem wake_order (h : s.sched.Queued) (hempty : ∀ w, s.sched.waiting w = [])
    {arrived : ℕ → ℕ} {events : List Event}
    (hrun : run stampedStep (s, { clock := 0, arrived }) events = some c) :
    (∀ i, 0 < (c.1.sem i).value → c.1.sched.waiting (.sem i) = []) ∧
      (∀ w, c.1.flag w = .fifo →
        (c.1.sched.waiting w).Pairwise fun t u => c.2.arrived t < c.2.arrived u) ∧
      (Meets step Steady s events → ∀ w, c.1.flag w = .prio →
        (c.1.sched.waiting w).Pairwise fun t u =>
          (c.1.sched.thread t).currentPriority < (c.1.sched.thread u).currentPriority ∨
            (c.1.sched.thread t).currentPriority = (c.1.sched.thread u).currentPriority ∧
              c.2.arrived t < c.2.arrived u) ∧
      ∀ e s', c.1.step e = some s' → (∀ t, e ≠ .timeout t) → ∀ w, (∀ i, w ≠ .event i) →
        ∀ u ∈ c.1.sched.waiting w, u ∉ s'.sched.waiting w →
          c.1.sched.waiting w = u :: s'.sched.waiting w := by
  set start : Ipc × Stamps := (s, { clock := 0, arrived })
  have harrived : Arrived start := ⟨h, fun w t ht => absurd (hempty w ▸ ht) not_mem_nil⟩
  have horder : ∀ w, InOrder start w := fun w => by
    rw [InOrder, show start.1.sched.waiting w = [] from hempty w]
    exact List.Pairwise.nil
  have hlined : Lined c := run_invariant (fun _ _ _ hc hs => hc.step hs) hrun
    ⟨harrived, fun i _ => hempty (.sem i), fun w _ => horder w⟩
  refine ⟨hlined.idle, fun w hw => ?_, fun hmeets w hw => ?_, ?_⟩
  · have := hlined.fifo w hw
    rwa [InOrder, hw] at this
  · have hall : AllLined c := (meets_observing.mpr hmeets).invariant
      (fun _ _ _ hc hsteady hs => hc.step hsteady hs) hrun ⟨harrived, horder⟩
    have := hall.order w
    rwa [InOrder, hw] at this
  · intro e s' hs he w hw u hin hout
    exact leaves_first hlined.queued hs he hw hin hout

/-- Threads 1 and 2 wait for a semaphore. -/
theorem wake_order_two :
    ∃ c, run stampedStep (fresh (started [(1, 5), (2, 6), (3, 7)]), { clock := 0, arrived := 0 })
        [.call 1 (.semTake 0 (-1)), .call 2 (.semTake 0 (-1))] = some c ∧
      c.1.sched.waiting (.sem 0) = [1, 2] ∧ c.2.arrived 1 < c.2.arrived 2 := by
  refine exists_of_any (fun c => c.1.sched.waiting (.sem 0) = [1, 2] ∧ (c.1.sem 0).flag = .fifo)
    (by decide +kernel) ?_
  rintro c hrun ⟨hwaiting, hflag⟩
  have hqueued := queued_started [(1, 5), (2, 6), (3, 7)]
  have hempty : ∀ w, (fresh (started [(1, 5), (2, 6), (3, 7)])).sched.waiting w = [] := by
    intro w
    cases w <;> rfl
  have hpairwise := (wake_order hqueued hempty hrun).2.1 (.sem 0) hflag
  rw [hwaiting] at hpairwise
  exact ⟨hwaiting, (pairwise_cons.mp hpairwise).1 2 mem_cons_self⟩

end Ipc

end Easyio.Kernel
