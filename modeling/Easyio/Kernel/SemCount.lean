import Easyio.Kernel.Steps
import Mathlib.Algebra.Group.Prod

/-!
# The value of a semaphore

A run of any calls of any threads, with the numbers of successful takes and releases of
one semaphore counted along.  A release that wakes a thread counts as a release and as
the take of that thread.  The value is the initial value plus the releases minus the
takes as long as the 16-bit counter has room (`semaphore_conserved_iff`).
-/

namespace Easyio.Kernel.Ipc

open Option Prod Runs.Partial

variable {s s' r : Ipc} {t i j initial : ℕ} {timeout : ℤ} {e : Event} {c c' : Ipc × (ℕ × ℕ)}

/-! ## Calls that leave the semaphores alone -/

def Call.sem : Call → Option ℕ
  | .semTake i _ | .semTrytake i | .semRelease i => some i
  | _ => none

def Event.sem : Event → Option ℕ
  | .call _ c => c.sem
  | _ => none

theorem sem_under {sched : Option Sched} (hs : r.under sched = some s') (hr : r.sem = s.sem) :
    s'.sem = s.sem := by
  rw [(under_eq hs).2]
  exact hr

section Others

variable {f : Wait → Flag} {o : Option Obj} {on : Option Wait}

section

variable (ho : ∀ i, o ≠ some (.sem i))
include ho

theorem sem_make {c : Change} (hc : c.Fits f o) : (c.make t s).sem = s.sem := by
  cases c with
  | sem i value => exact absurd hc (ho i)
  | _ => rfl

theorem sem_run {d : Deed} (hd : d.Fits f o on) (hs : d.run t s = some s') : s'.sem = s.sem := by
  cases d with
  | nothing => rw [some.inj hs]
  | wake w =>
    simp only [Deed.run, wakeIfAny] at hs
    split at hs
    · exact sem_under hs rfl
    · rw [some.inj hs]
  | semRelease i => exact absurd hd (ho i)
  | mutexWait i v time =>
    obtain ⟨r, hr, hs⟩ := bind_eq_some_iff.mp hs
    exact sem_under hs (sem_under hr rfl)
  | mutexPass i =>
    obtain ⟨r, hr, hs⟩ := bind_eq_some_iff.mp hs
    have hsem : r.sem = s.sem := sem_under hr rfl
    unfold handOver at hs
    split at hs
    · rw [← some.inj hs]
      exact hsem
    · exact sem_under hs hsem
  | _ => exact sem_under hs rfl

theorem sem_plan {p : Plan} (hp : p.Fits s.flag o on)
    (hs : p.run s t = some s') : s'.sem = s.sem := by
  refine (sem_run ho hp.deed hs).trans ?_
  refine List.foldlRecOn p.changes (Change.make t) (motive := fun r => r.sem = s.sem) rfl ?_
  intro r hr c hc
  exact (sem_make ho (hp.changes c hc)).trans hr

end

end Others

theorem sem_step (he : e.sem = none) (hs : s.step e = some s') : s'.sem = s.sem := by
  cases e with
  | call t c =>
    obtain ⟨p, hp, hs⟩ := perform_cases (perform_of_step hs)
    refine sem_plan (fun i hi => ?_) hp hs
    cases c <;> simp [Call.obj, Event.sem, Call.sem] at hi he
  | resume t =>
    obtain ⟨-, hs⟩ := ite_none_right_eq_some.mp hs
    by_cases hpc : ∃ i, s.pc t = .semTake i
    · -- a thread that waited for a semaphore has been given it or has timed out
      obtain ⟨i, hi⟩ := hpc
      rw [hi] at hs
      rw [← some.inj hs]
      rfl
    · obtain ⟨p, hp, hs⟩ := proceed_cases hs
      refine sem_plan (fun i hi => hpc ⟨i, ?_⟩) hp hs
      cases h : s.pc t <;> simp [Pc.obj, h] at hi ⊢
      exact hi
  | timeout t => exact sem_under (ite_none_right_eq_some.mp hs).2 rfl
  | tick => exact sem_under hs rfl

/-! ## Takes and releases -/

/-- The numbers of successful takes and releases of the semaphore `i` that a step makes. -/
def semTally (i : ℕ) (s : Ipc) : Event → ℕ × ℕ
  | .call _ (.semTake j _) | .call _ (.semTrytake j) =>
    if j = i ∧ 0 < (s.sem i).value then (1, 0) else (0, 0)
  | .call _ (.semRelease j) =>
    if j = i then if s.sched.waiting (.sem i) = [] then (0, 1) else (1, 1) else (0, 0)
  | _ => (0, 0)

/-- A release that wakes nobody finds room in the 16-bit counter. -/
def SemRoom (i : ℕ) (s : Ipc) : Event → Prop
  | .call _ (.semRelease j) =>
    j = i → s.sched.waiting (.sem i) = [] → (s.sem i).value + 1 < 2 ^ 16
  | _ => True

/-- The value of the semaphore `i` and the takes and releases since it had the value
`initial`. -/
def Balanced (i initial : ℕ) (c : Ipc × (ℕ × ℕ)) : Prop :=
  (c.1.sem i).value + c.2.1 = initial + c.2.2

theorem setSem_value_self (s : Ipc) (i value : ℕ) : ((s.setSem i value).sem i).value = value := by
  simp [setSem]

theorem setSem_value_of_ne (s : Ipc) (h : i ≠ j) (value : ℕ) :
    ((s.setSem j value).sem i).value = (s.sem i).value := by
  simp [setSem, h]

/-- A take is counted when it takes from the value. -/
theorem value_rtSemTake (hs : s.rtSemTake t j timeout = some s') :
    (s'.sem i).value + (if j = i ∧ 0 < (s.sem i).value then 1 else 0) = (s.sem i).value := by
  unfold rtSemTake at hs
  split at hs
  · rename_i hpos
    rw [← some.inj hs]
    change ((s.setSem j _).sem i).value + _ = _
    by_cases hj : j = i
    · subst hj
      rw [setSem_value_self, if_pos ⟨rfl, hpos⟩]
      omega
    · rw [setSem_value_of_ne s (Ne.symm hj), if_neg fun hand => hj hand.1]
      omega
  rename_i hzero
  have hsem : s'.sem = s.sem := by
    split at hs
    · rw [← some.inj hs]; rfl
    · exact sem_under hs rfl
  rw [hsem, if_neg]
  · exact Nat.add_zero _
  · rintro ⟨rfl, hpos⟩
    exact hzero hpos

/-- A release that wakes nobody is counted in the value. -/
theorem value_rtSemRelease (hs : s.rtSemRelease j = some s') :
    (s'.sem i).value = if j = i ∧ s.sched.waiting (.sem i) = [] then
      ((s.sem i).value + 1) % 2 ^ 16 else (s.sem i).value := by
  unfold rtSemRelease at hs
  split at hs
  · rename_i hne
    rw [sem_under hs rfl, if_neg]
    rintro ⟨rfl, hempty⟩
    exact hne hempty
  · rename_i hempty
    rw [← some.inj hs]
    by_cases hj : j = i
    · subst hj
      rw [setSem_value_self, if_pos ⟨rfl, not_not.mp hempty⟩]
    · rw [setSem_value_of_ne s (Ne.symm hj), if_neg fun hand => hj hand.1]

theorem Balanced.take (h : Balanced i initial c) (hs : c.1.rtSemTake t j timeout = some c'.1)
    (htally : c'.2 = c.2 + if j = i ∧ 0 < (c.1.sem i).value then (1, 0) else (0, 0)) :
    Balanced i initial c' := by
  have hvalue := value_rtSemTake (i := i) hs
  unfold Balanced at h ⊢
  rw [htally]
  split at hvalue
  · rename_i hcond
    rw [if_pos hcond, fst_add, snd_add]
    omega
  · rename_i hcond
    rw [if_neg hcond, fst_add, snd_add]
    omega

theorem balanced_step_iff (h : Balanced i initial c)
    (hs : counting step (semTally i) c e = some c') : Balanced i initial c' ↔ SemRoom i c.1 e := by
  obtain ⟨hstep, htally⟩ := counting_eq hs
  have hother (hsem : e.sem = none) (hzero : semTally i c.1 e = (0, 0))
      (hroom : SemRoom i c.1 e) : Balanced i initial c' ↔ SemRoom i c.1 e := by
    refine iff_of_true ?_ hroom
    unfold Balanced at h ⊢
    rw [sem_step hsem hstep, htally, hzero]
    exact h
  cases e with
  | call t call =>
    cases call with
    | semTake j time | semTrytake j =>
      exact iff_of_true (h.take (perform_of_step hstep) htally) trivial
    | semRelease j =>
      obtain ⟨r, hr, hret⟩ := map_eq_some_iff.mp (perform_of_step hstep)
      have hvalue := value_rtSemRelease (i := i) hr
      have hsem : c'.1.sem = r.sem := by rw [← hret]; rfl
      rw [← hsem] at hvalue
      unfold Balanced at h ⊢
      rw [htally, semTally]
      by_cases hj : j = i
      swap
      · rw [if_neg fun hand => hj hand.1] at hvalue
        rw [if_neg hj, hvalue]
        exact iff_of_true h fun he => absurd he hj
      by_cases hempty : c.1.sched.waiting (.sem i) = []
      · rw [if_pos ⟨hj, hempty⟩] at hvalue
        rw [if_pos hj, if_pos hempty, fst_add, snd_add]
        refine ⟨fun hbalance _ _ => ?_, fun hroom => ?_⟩
        · omega
        · have := hroom hj hempty
          omega
      · rw [if_neg fun hand => hempty hand.2] at hvalue
        rw [if_pos hj, if_neg hempty, fst_add, snd_add]
        refine iff_of_true ?_ fun _ he => absurd he hempty
        omega
    | _ => exact hother rfl rfl trivial
  | _ => exact hother rfl rfl trivial

/-- **Conservation.**  In every run of any calls of any threads after `rt_sem_init`, the
value of the semaphore is in every state the initial value plus the successful releases
minus the successful takes, if and only if the initial value fits into 16 bits and every
release that wakes nobody finds a value below 65535. -/
theorem semaphore_conserved_iff (s : Ipc) (i initial : ℕ) (flag : Flag) (events : List Event) :
    Always (counting step (semTally i)) (Balanced i initial)
        (s.rtSemInit i initial flag, (0, 0)) events ↔
      initial < 2 ^ 16 ∧ Meets step (SemRoom i) (s.rtSemInit i initial flag) events := by
  have hstart : Balanced i initial (s.rtSemInit i initial flag, (0, 0)) ↔ initial < 2 ^ 16 := by
    have hvalue : ((s.rtSemInit i initial flag).sem i).value = initial % 2 ^ 16 := by
      simp [rtSemInit]
    change _ + 0 = initial + 0 ↔ _
    rw [hvalue]
    omega
  have hiff (h : Balanced i initial (s.rtSemInit i initial flag, (0, 0))) :
      Always (counting step (semTally i)) (Balanced i initial)
          (s.rtSemInit i initial flag, (0, 0)) events ↔
        Meets (counting step (semTally i)) (fun c e => SemRoom i c.1 e)
          (s.rtSemInit i initial flag, (0, 0)) events :=
    always_iff_meets (fun _ hc => hc)
      (fun _ _ _ hc hroom hs => (balanced_step_iff hc hs).mpr hroom)
      (fun _ _ _ hc hs hc' => (balanced_step_iff hc hs).mp hc') h
  refine ⟨fun h => ?_, fun h => ?_⟩
  · have hbalanced := h.head
    exact ⟨hstart.mp hbalanced, meets_observing.mp ((hiff hbalanced).mp h)⟩
  · exact (hiff (hstart.mpr h.1)).mpr (meets_observing.mpr h.2)

/-- A semaphore set up with the value 65535 is released once. -/
theorem semaphore_value_wraps :
    ∃ c, run (counting step (semTally 0))
        ((fresh (started [(1, 5)])).rtSemInit 0 65535 .fifo, (0, 0)) [.call 1 (.semRelease 0)] =
          some c ∧
      (c.1.sem 0).value = 0 ∧ c.2 = (0, 1) :=
  exists_of_any _ (by decide +kernel) fun _ _ h => h

end Easyio.Kernel.Ipc
