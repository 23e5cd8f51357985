import Easyio.Kernel.ReadyQueue
import Easyio.Lists.RoundRobin

/-!
# Time slices

`rt_tick_increase` counts down the ticks of the current thread and moves it to the end of
its ready list when they are used up.  With one list of ready threads and nothing above
it, the kernel is the round robin of `Lists.RoundRobin` (`Slicing.tick`): the queue is the
ready list with the remaining ticks of its threads.

What happens to threads of other priorities does not touch the list or the remaining
ticks (`Aside`).
-/

namespace Easyio.Kernel

open Function List Easyio.Lists Option Prod Runs.Partial

namespace Sched

/-- A tick that leaves `left` ticks to the thread `t`. -/
def tickedTo (s : Sched) (t left : ℕ) : Sched :=
  s.countTick.modify t ({ · with remainingTick := left })

variable {s : Sched} {t : ℕ}

theorem rtTickIncrease_eq (hpos : 0 < (s.thread t).remainingTick)
    (hlt : (s.thread t).remainingTick < 2 ^ 32) :
    s.rtTickIncrease t = if (s.thread t).remainingTick ≤ 1 then
      (s.tickedTo t (s.thread t).initTick).rtThreadYield t
      else some (s.tickedTo t ((s.thread t).remainingTick - 1)) := by
  have hless : ((s.thread t).remainingTick + (2 ^ 32 - 1)) % 2 ^ 32 =
      (s.thread t).remainingTick - 1 := by omega
  have hmodify : ∀ f : Thread → ℕ, s.countTick.modify t (fun thread =>
      { thread with remainingTick := f thread }) = s.tickedTo t (f (s.thread t)) := fun _ => rfl
  rw [rtTickIncrease, hmodify, hmodify, hless]
  by_cases hlast : (s.thread t).remainingTick ≤ 1
  · rw [if_pos (by omega), if_pos hlast]
  · rw [if_neg (by omega), if_neg hlast]

theorem tickedTo_thread_self (s : Sched) (t left : ℕ) :
    (s.tickedTo t left).thread t = { s.thread t with remainingTick := left } :=
  update_self ..

theorem tickedTo_thread_of_ne (s : Sched) {u : ℕ} (hu : u ≠ t) (left : ℕ) :
    (s.tickedTo t left).thread u = s.thread u :=
  modify_thread_of_ne _ hu ..

theorem Queued.tickedTo (h : Queued s) (t left : ℕ) : Queued (s.tickedTo t left) := by
  refine h.countTick.modify_same t ?_
  exact fun _ => ⟨rfl, rfl, rfl, rfl⟩

/-- The ready list of priority `p`, above which no thread is ready, holds `queue`: threads
with their remaining ticks.  The first of them runs. -/
structure Slicing (s : Sched) (p : ℕ) (quantum : ℕ → ℕ) (queue : List (ℕ × ℕ)) : Prop where
  queued : Queued s
  unlocked : s.schedulerLockNest = 0
  priority : p < rtThreadPriorityMax
  table : s.table p = queue.map fst
  higher : ∀ q < p, s.table q = []
  current : s.currentThread = queue.head?.map fst
  remaining : ∀ job ∈ queue, (s.thread job.1).remainingTick = job.2
  initTick : ∀ job ∈ queue, (s.thread job.1).initTick = quantum job.1
  left : ∀ job ∈ queue, 0 < job.2 ∧ job.2 < 2 ^ 32
  quantum : ∀ job ∈ queue, 0 < quantum job.1 ∧ quantum job.1 < 2 ^ 32
  nonempty : queue ≠ []

namespace Slicing

variable {s : Sched} {p t r : ℕ} {quantum : ℕ → ℕ} {queue rest : List (ℕ × ℕ)}

theorem changed {left : ℕ} {s' : Sched} (h : Slicing s p quantum ((t, r) :: rest))
    (hqueued : Queued s') (hunlocked : s'.schedulerLockNest = 0)
    (htable : s'.table p = queue.map fst) (hhigher : ∀ q < p, s'.table q = [])
    (hcurrent : s'.currentThread = queue.head?.map fst)
    (hjobs : ∀ job, job ∈ queue ↔ job ∈ (t, left) :: rest)
    (hthread : s'.thread = (s.tickedTo t left).thread) (hleft : 0 < left ∧ left < 2 ^ 32) :
    Slicing s' p quantum queue := by
  have hnodup : ((t, r) :: rest).map fst |>.Nodup := h.table ▸ h.queued.tableNodup p
  have hne : ∀ job ∈ rest, job.1 ≠ t := by
    intro job hin heq
    exact (nodup_cons.mp hnodup).1 (mem_map.mpr ⟨job, hin, heq⟩)
  have hall : ∀ job ∈ queue, (s'.thread job.1).remainingTick = job.2 ∧
      (s'.thread job.1).initTick = quantum job.1 ∧ (0 < job.2 ∧ job.2 < 2 ^ 32) ∧
      (0 < quantum job.1 ∧ quantum job.1 < 2 ^ 32) := by
    intro job hin
    rw [hthread]
    rcases mem_cons.mp ((hjobs job).mp hin) with rfl | hin
    · have hfirst : (t, r) ∈ (t, r) :: rest := mem_cons_self ..
      rw [tickedTo_thread_self]
      exact ⟨rfl, h.initTick (t, r) hfirst, hleft, h.quantum (t, r) hfirst⟩
    · have hold := mem_cons_of_mem (t, r) hin
      rw [tickedTo_thread_of_ne s (hne job hin)]
      exact ⟨h.remaining _ hold, h.initTick _ hold, h.left _ hold, h.quantum _ hold⟩
  refine ⟨hqueued, hunlocked, h.priority, htable, hhigher, hcurrent,
    fun job hin => (hall job hin).1, fun job hin => (hall job hin).2.1,
    fun job hin => (hall job hin).2.2.1, fun job hin => (hall job hin).2.2.2, fun hnil => ?_⟩
  have := (hjobs (t, left)).mpr mem_cons_self
  exact absurd (hnil ▸ this) not_mem_nil

theorem yield (h : Slicing s p quantum ((t, r) :: rest)) :
    ∃ s', (s.tickedTo t (quantum t)).rtThreadYield t = some s' ∧
      Slicing s' p quantum (rest ++ [(t, quantum t)]) := by
  set s₁ := s.tickedTo t (quantum t)
  have hjob : (t, r) ∈ (t, r) :: rest := mem_cons_self ..
  have hqueued : Queued s₁ := h.queued.tickedTo t _
  have htable : s₁.table p = t :: rest.map fst := h.table
  have hin : t ∈ s₁.table p := htable ▸ mem_cons_self ..
  obtain ⟨hready, hprio⟩ := (hqueued.ready t p).mp hin
  have hjobs : ∀ job, job ∈ rest ++ [(t, quantum t)] ↔ job ∈ (t, quantum t) :: rest := fun job => by
    rw [mem_append, mem_singleton, mem_cons, or_comm]
  rw [rtThreadYield, hprio, htable]
  cases rest with
  | nil =>
    -- no other thread: the thread goes on with a new slice
    rw [if_neg (by simp)]
    exact ⟨s₁, rfl, h.changed hqueued h.unlocked h.table h.higher h.current hjobs rfl
      (h.quantum _ hjob)⟩
  | cons next rest =>
    have hnodup : (t :: next.1 :: rest.map fst).Nodup := htable ▸ hqueued.tableNodup p
    have hne : next.1 ≠ t := fun he => (nodup_cons.mp hnodup).1 (he ▸ mem_cons_self ..)
    rw [if_pos ⟨hready, by simp [hne]⟩]
    have hmoved := hqueued.movedToEnd hready
    have hlist : (s₁.moveToEnd t).table p = next.1 :: (rest.map fst ++ [t]) := by
      change update _ (s₁.thread t).currentPriority _ p = _
      rw [hprio, update_self, htable, erase_cons_head]
      rfl
    have hhigher : ∀ q < p, (s₁.moveToEnd t).table q = [] := fun q hq => by
      change update _ (s₁.thread t).currentPriority _ q = _
      rw [hprio, update_of_ne (Nat.ne_of_lt hq)]
      change (s.table q).erase t = []
      rw [h.higher q hq]
      rfl
    have hswitch := hmoved.group.schedulesFirst p h.priority _ _ hlist hhigher h.unlocked
    refine ⟨_, hswitch, h.changed (hmoved.rtSchedule hswitch) h.unlocked ?_ hhigher rfl hjobs rfl
      (h.quantum _ hjob)⟩
    rw [map_append]
    exact hlist

theorem tick (h : Slicing s p quantum queue) :
    ∃ s', s.threadStep .tick = some s' ∧ Slicing s' p quantum (turn quantum queue) := by
  obtain ⟨⟨t, r⟩, rest, rfl⟩ := exists_cons_of_ne_nil h.nonempty
  have hcurrent : s.currentThread = some t := h.current
  have hjob : (t, r) ∈ (t, r) :: rest := mem_cons_self ..
  obtain ⟨hpos, hlt⟩ : 0 < r ∧ r < 2 ^ 32 := h.left _ hjob
  have hr : (s.thread t).remainingTick = r := h.remaining _ hjob
  have hq : (s.thread t).initTick = quantum t := h.initTick _ hjob
  have hstep : s.threadStep .tick = s.rtTickIncrease t := by
    change s.currentThread.bind s.rtTickIncrease = _
    rw [hcurrent, bind_some]
  rw [hstep, rtTickIncrease_eq (hr ▸ hpos) (hr ▸ hlt), hr, hq, turn]
  by_cases hlast : r ≤ 1
  · rw [if_pos hlast, if_pos hlast]
    exact h.yield
  · rw [if_neg hlast, if_neg hlast]
    exact ⟨_, rfl, h.changed (h.queued.tickedTo t _) h.unlocked h.table h.higher h.current
      (fun job => Iff.rfl) rfl ⟨by omega, by omega⟩⟩

theorem ticks (h : Slicing s p quantum queue) (n : ℕ) :
    ∃ s', run threadStep s (replicate n .tick) = some s' ∧
      Slicing s' p quantum (turns quantum n queue) := by
  induction n generalizing s queue with
  | zero => exact ⟨s, rfl, h⟩
  | succ n ih =>
    obtain ⟨s₁, hs₁, h₁⟩ := h.tick
    obtain ⟨s', hs', h'⟩ := ih h₁
    refine ⟨s', ?_, turns_succ ▸ h'⟩
    rw [replicate_succ, run, hs₁]
    exact hs'

end Slicing

/-! ## Steps of other threads -/

/-- The ready list of priority `p` and the ticks of its threads are the same. -/
def Aside (p : ℕ) (s s' : Sched) : Prop :=
  s'.table p = s.table p ∧ ∀ t ∈ s.table p,
    (s'.thread t).remainingTick = (s.thread t).remainingTick ∧
      (s'.thread t).initTick = (s.thread t).initTick

namespace Aside

variable {p t priority time : ℕ} {s s₁ s₂ s' : Sched}

theorem refl (s : Sched) : Aside p s s := ⟨rfl, fun _ _ => ⟨rfl, rfl⟩⟩

theorem trans (h₁ : Aside p s s₁) (h₂ : Aside p s₁ s₂) : Aside p s s₂ := by
  refine ⟨h₂.1.trans h₁.1, fun t ht => ?_⟩
  obtain ⟨hremaining, hinit⟩ := h₂.2 t (h₁.1 ▸ ht)
  exact ⟨hremaining.trans (h₁.2 t ht).1, hinit.trans (h₁.2 t ht).2⟩

theorem not_mem (h : Aside p s s') (ht : t ∉ s.table p) : t ∉ s'.table p := h.1 ▸ ht

section

variable (ht : t ∉ s.table p)
include ht

theorem modify (f : Thread → Thread) : Aside p s (s.modify t f) := by
  refine ⟨rfl, fun u hu => ?_⟩
  have hne : u ≠ t := fun he => ht (he ▸ hu)
  rw [modify_thread_of_ne s hne]
  exact ⟨rfl, rfl⟩

theorem unlink : Aside p s (s.unlink t) :=
  ⟨erase_of_not_mem ht, fun _ _ => ⟨rfl, rfl⟩⟩

theorem remove : Aside p s (s.rtScheduleRemoveThread t) :=
  ⟨erase_of_not_mem ht, fun _ _ => ⟨rfl, rfl⟩⟩

theorem insert (hp : (s.thread t).currentPriority ≠ p) : Aside p s (s.rtScheduleInsertThread t) :=
  ⟨update_of_ne hp.symm .., (modify ht ({ · with stat := .ready })).2⟩

end

theorem bury (s : Sched) (t : ℕ) : Aside p s (s.bury t) := ⟨rfl, fun _ _ => ⟨rfl, rfl⟩⟩

theorem rtSchedule (hs : s.rtSchedule = some s') : Aside p s s' := by
  unfold Sched.rtSchedule at hs
  split at hs
  · obtain ⟨u, -, rfl⟩ := map_eq_some_iff.mp hs
    exact ⟨rfl, fun _ _ => ⟨rfl, rfl⟩⟩
  · exact some.inj hs ▸ refl s

section

variable (ht : t ∉ s.table p)
include ht

theorem shut : Aside p s (s.shut t) :=
  have hremove := remove ht
  hremove.trans (modify (hremove.not_mem ht) _)

theorem rtThreadSuspend : Aside p s (s.rtThreadSuspend t).2 := by
  unfold Sched.rtThreadSuspend
  split
  · have hmodify := modify ht ({ · with stat := .suspend })
    exact hmodify.trans (remove (hmodify.not_mem ht))
  · exact refl s

theorem unlink_modify_insert {f : Thread → Thread} (hf : (f (s.thread t)).currentPriority ≠ p) :
    Aside p s (((s.unlink t).modify t f).rtScheduleInsertThread t) := by
  have hunlink := unlink ht
  have hmodify := hunlink.trans (modify (hunlink.not_mem ht) f)
  refine hmodify.trans (insert (hmodify.not_mem ht) ?_)
  rwa [modify_thread_self]

theorem rtThreadResume (hp : (s.thread t).currentPriority ≠ p) :
    Aside p s (s.rtThreadResume t).2 := by
  unfold Sched.rtThreadResume
  split
  · exact unlink_modify_insert ht hp
  · exact refl s

theorem initThread {tick : ℕ} {systemObject : Bool}
    (hs : s.initThread t priority tick systemObject = some s') : Aside p s s' := by
  obtain ⟨-, hs⟩ := ite_none_left_eq_some.mp hs
  exact some.inj hs ▸ modify ht _

theorem rtThreadStartup (hp : (s.thread t).initPriority ≠ p)
    (hs : s.rtThreadStartup t = some s') : Aside p s s' := by
  obtain ⟨-, hs⟩ := ite_none_right_eq_some.mp hs
  have hstarted : Aside p s (s.setStarted t) := modify ht _
  have hpriority : ((s.setStarted t).thread t).currentPriority ≠ p := by
    rwa [setStarted, modify_thread_self]
  have hresumed := hstarted.trans (rtThreadResume (hstarted.not_mem ht) hpriority)
  unfold scheduleIfRunning at hs
  split at hs
  · exact some.inj hs ▸ hresumed
  · exact hresumed.trans (rtSchedule hs)

theorem rtThreadControl (hp : priority ≠ p)
    (hs : s.rtThreadControl t priority = some s') : Aside p s s' := by
  obtain ⟨-, hs⟩ := ite_none_left_eq_some.mp hs
  split at hs
  · have hremove := remove ht
    have hset := hremove.trans (modify (hremove.not_mem ht)
      ({ · with currentPriority := priority, numberMask := 1#32 <<< priority }))
    refine some.inj hs ▸ hset.trans (insert (hset.not_mem ht) ?_)
    rwa [modify_thread_self]
  · exact some.inj hs ▸ modify ht _

theorem rtThreadTimeout (hp : (s.thread t).currentPriority ≠ p)
    (hs : s.rtThreadTimeout t = some s') : Aside p s s' := by
  obtain ⟨-, hs⟩ := ite_none_right_eq_some.mp hs
  exact Aside.trans (unlink_modify_insert ht hp) (rtSchedule hs)

theorem startTimer (hs : s.startTimer t time = some s') : Aside p s s' := by
  unfold Sched.startTimer at hs
  split at hs
  · exact some.inj hs ▸ refl s
  obtain ⟨-, hs⟩ := ite_none_left_eq_some.mp hs
  exact some.inj hs ▸ modify ht _

theorem rtThreadSleep (hs : s.rtThreadSleep t time = some s') : Aside p s s' := by
  obtain ⟨s₁, hs₁, hs⟩ := bind_eq_some_iff.mp hs
  have hsuspend := rtThreadSuspend ht
  exact (hsuspend.trans (startTimer (hsuspend.not_mem ht) hs₁)).trans (rtSchedule hs)

theorem rtThreadExit (hs : s.rtThreadExit t = some s') : Aside p s s' := by
  unfold Sched.rtThreadExit at hs
  split at hs
  · exact (shut ht).trans (rtSchedule hs)
  · exact ((shut ht).trans (bury _ t)).trans (rtSchedule hs)

end

end Aside

/-- Steps that concern other threads than those of the ready list of priority `p`, none of
which becomes ready with that priority. -/
def Elsewhere (p : ℕ) (s : Sched) : ThreadEvent → Prop
  | .init t _ _ | .create t _ _ _ | .setCleanup t | .detach t | .delete t | .suspend t =>
    t ∉ s.table p
  | .startup t => t ∉ s.table p ∧ (s.thread t).initPriority ≠ p
  | .resume t | .timeout t => t ∉ s.table p ∧ (s.thread t).currentPriority ≠ p
  | .changePriority t priority => t ∉ s.table p ∧ priority ≠ p
  | .yield | .sleep _ | .sleepEnd | .exit | .tick => ∀ t ∈ s.currentThread, t ∉ s.table p ∧
      (s.thread t).currentPriority ≠ p
  | .idle => ∀ t ∈ s.defunct, t ∉ s.table p
  | .schedule | .systemStart | .enterCritical | .exitCritical => True

namespace Aside

variable {p t : ℕ} {s s' : Sched}

section

variable (ht : t ∉ s.table p)
include ht

theorem rtThreadYield (hp : (s.thread t).currentPriority ≠ p)
    (hs : s.rtThreadYield t = some s') : Aside p s s' := by
  unfold Sched.rtThreadYield at hs
  split at hs
  · have hmoved : Aside p s (s.moveToEnd t) :=
      ⟨(update_of_ne hp.symm ..).trans (erase_of_not_mem ht), fun _ _ => ⟨rfl, rfl⟩⟩
    exact hmoved.trans (rtSchedule hs)
  · exact some.inj hs ▸ refl s

theorem rtTickIncrease (hp : (s.thread t).currentPriority ≠ p)
    (hs : s.rtTickIncrease t = some s') : Aside p s s' := by
  have hticked : ∀ f : Thread → Thread, Aside p s (s.countTick.modify t f) := fun f =>
    Aside.trans ⟨rfl, fun _ _ => ⟨rfl, rfl⟩⟩ (modify ht f)
  unfold Sched.rtTickIncrease at hs
  split at hs
  · refine (hticked _).trans (rtThreadYield ht ?_ hs)
    rwa [modify_thread_self]
  · exact some.inj hs ▸ hticked _

theorem rtThreadCreate {priority tick : ℕ} {mask : BitVec 32}
    (hs : s.rtThreadCreate t priority tick mask = some s') : Aside p s s' := by
  have hmask := modify ht ({ · with numberMask := mask })
  exact hmask.trans (initThread (hmask.not_mem ht) hs)

theorem rtThreadDetach : Aside p s (s.rtThreadDetach t) := by
  unfold Sched.rtThreadDetach
  split
  · exact (shut ht).trans (bury _ t)
  · exact shut ht

theorem rtThreadSleepEnd : Aside p s (s.rtThreadSleepEnd t) := by
  unfold Sched.rtThreadSleepEnd
  split
  · exact modify ht _
  · exact refl s

end

theorem rtThreadIdleExcute (hdefunct : ∀ t ∈ s.defunct, t ∉ s.table p) :
    Aside p s s.rtThreadIdleExcute := by
  unfold Sched.rtThreadIdleExcute
  split
  · exact refl s
  · rename_i t _ heq
    exact unlink (hdefunct t (heq ▸ mem_cons_self ..))

theorem rtExitCritical (hs : s.rtExitCritical = some s') : Aside p s s' := by
  have hlock : ∀ nest, Aside p s { s with schedulerLockNest := nest } :=
    fun _ => ⟨rfl, fun _ _ => ⟨rfl, rfl⟩⟩
  unfold Sched.rtExitCritical at hs
  split at hs
  · exact (hlock 0).trans (rtSchedule hs)
  · exact some.inj hs ▸ hlock _

theorem threadStep {e : ThreadEvent} (he : Elsewhere p s e) (hs : s.threadStep e = some s') :
    Aside p s s' := by
  have hif : ∀ {c : Prop} [Decidable c] {a b : Option Sched}, (if c then a else b) = some s' →
      (a = some s' → Aside p s s') → (b = some s' → Aside p s s') → Aside p s s' := by
    intro c _ a b hite ha hb
    split at hite
    · exact ha hite
    · exact hb hite
  have hnone : (none : Option Sched) = some s' → Aside p s s' := fun hn =>
    absurd hn (some_ne_none s').symm
  cases e with
  | init t priority tick => exact hif hs (initThread he) hnone
  | create t priority tick mask => exact hif hs (rtThreadCreate he) hnone
  | setCleanup t => exact hif hs hnone fun hs => some.inj hs ▸ modify he _
  | startup t => exact rtThreadStartup he.1 he.2 hs
  | detach t => exact hif hs hnone fun hs => some.inj hs ▸ rtThreadDetach he
  | delete t => exact hif hs hnone fun hs => some.inj hs ▸ (shut he).trans (bury _ t)
  | suspend t => exact some.inj hs ▸ rtThreadSuspend he
  | resume t => exact some.inj hs ▸ rtThreadResume he.1 he.2
  | changePriority t priority => exact hif hs hnone (rtThreadControl he.1 he.2)
  | timeout t => exact hif hs (rtThreadTimeout he.1 he.2) hnone
  | yield =>
    obtain ⟨t, ht, hs⟩ := bind_eq_some_iff.mp hs
    exact rtThreadYield (he t ht).1 (he t ht).2 hs
  | sleep tick =>
    obtain ⟨t, ht, hs⟩ := bind_eq_some_iff.mp hs
    exact hif hs hnone (rtThreadSleep (he t ht).1)
  | sleepEnd =>
    obtain ⟨t, ht, hs⟩ := bind_eq_some_iff.mp hs
    exact some.inj hs ▸ rtThreadSleepEnd (he t ht).1
  | exit =>
    obtain ⟨t, ht, hs⟩ := bind_eq_some_iff.mp hs
    exact hif hs hnone (rtThreadExit (he t ht).1)
  | tick =>
    obtain ⟨t, ht, hs⟩ := bind_eq_some_iff.mp hs
    exact rtTickIncrease (he t ht).1 (he t ht).2 hs
  | idle => exact some.inj hs ▸ rtThreadIdleExcute he
  | schedule => exact rtSchedule hs
  | systemStart =>
    obtain ⟨t, -, rfl⟩ := map_eq_some_iff.mp hs
    exact ⟨rfl, fun _ _ => ⟨rfl, rfl⟩⟩
  | enterCritical => exact some.inj hs ▸ ⟨rfl, fun _ _ => ⟨rfl, rfl⟩⟩
  | exitCritical => exact rtExitCritical hs

theorem run {events : List ThreadEvent} (hmeets : Meets Sched.threadStep (Elsewhere p) s events)
    (hrun : run Sched.threadStep s events = some s') : Aside p s s' :=
  hmeets.invariant (fun _ _ _ hold he hs => hold.trans (threadStep he hs)) hrun (refl s)

end Aside

/-- The threads of the ready list have the processor again, with the ticks they had. -/
theorem Slicing.resumed {s' : Sched} {p : ℕ} {quantum : ℕ → ℕ} {queue : List (ℕ × ℕ)}
    (h : Slicing s p quantum queue) (haside : Aside p s s') (hqueued : Queued s')
    (hunlocked : s'.schedulerLockNest = 0) (hhigher : ∀ q < p, s'.table q = []) :
    ∃ s'', s'.rtSchedule = some s'' ∧ Slicing s'' p quantum queue := by
  obtain ⟨⟨t, r⟩, rest, rfl⟩ := exists_cons_of_ne_nil h.nonempty
  have htable : s'.table p = t :: rest.map fst := haside.1.trans h.table
  have hswitch := hqueued.group.schedulesFirst p h.priority _ _ htable hhigher hunlocked
  have hticks : ∀ job ∈ (t, r) :: rest,
      (s'.thread job.1).remainingTick = (s.thread job.1).remainingTick ∧
        (s'.thread job.1).initTick = (s.thread job.1).initTick := fun job hin =>
    haside.2 job.1 (h.table ▸ mem_map_of_mem hin)
  exact ⟨_, hswitch, hqueued.rtSchedule hswitch, hunlocked, h.priority, htable, hhigher, rfl,
    fun job hin => (hticks job hin).1.trans (h.remaining job hin),
    fun job hin => (hticks job hin).2.trans (h.initTick job hin), h.left, h.quantum, h.nonempty⟩

/-- **Round robin.**  The threads of a ready list above which nothing is ready run in the
cyclic order of the list: in the first round each for the ticks it had left, then each
for its `init_tick` ticks, after which it is moved to the tail.  A run of other threads
leaves the list and the remaining ticks as they are, and when the list has the processor
again, the round robin goes on from there. -/
theorem round_robin {s : Sched} {p : ℕ} {quantum : ℕ → ℕ} {queue : List (ℕ × ℕ)}
    (h : Slicing s p quantum queue) :
    (∀ n, ∃ s', run threadStep s (List.replicate n .tick) = some s' ∧
      Slicing s' p quantum (turns quantum n queue) ∧
      s'.currentThread = (s'.table p).head? ∧ (∃ k, s'.table p = (s.table p).rotate k) ∧
      s'.currentThread =
        if n < (slices queue).length then (slices queue)[n]?
        else (slices (refill quantum queue))[(n - (slices queue).length) %
          (slices (refill quantum queue)).length]?) ∧
      ∀ events s', Meets threadStep (Elsewhere p) s events → run threadStep s events = some s' →
        (s'.table p = s.table p ∧
          ∀ t ∈ s.table p, (s'.thread t).remainingTick = (s.thread t).remainingTick) ∧
        (Queued s' → s'.schedulerLockNest = 0 → (∀ q < p, s'.table q = []) →
          ∃ s'', s'.rtSchedule = some s'' ∧ Slicing s'' p quantum queue) := by
  refine ⟨fun n => ?_, fun events s' hmeets hrun => ?_⟩
  · obtain ⟨s', hs', h'⟩ := h.ticks n
    refine ⟨s', hs', h', ?_, ?_, ?_⟩
    · rw [h'.current, h'.table, head?_map]
    · rw [h'.table, h.table]
      exact turns_rotate n
    · rw [h'.current]
      exact served_eq (fun job hin => (h.left job hin).1) (fun job hin => (h.quantum job hin).1) n
  · have haside := Aside.run hmeets hrun
    exact ⟨⟨haside.1, fun t ht => (haside.2 t ht).1⟩,
      fun hqueued hunlocked hhigher => h.resumed haside hqueued hunlocked hhigher⟩

/-- Threads 1 and 2 of priority 5 with slices of two and three ticks are started. -/
def twoStarted : List ThreadEvent :=
  [.init 1 5 2, .startup 1, .init 2 5 3, .startup 2, .systemStart]

def twoReady : Sched := (run threadStep boot twoStarted).get (by decide +kernel)

theorem round_robin_two :
    run threadStep boot twoStarted = some twoReady ∧
      Slicing twoReady 5 (· + 1) [(1, 2), (2, 3)] ∧
      ∃ s', run threadStep twoReady (List.replicate 7 .tick) = some s' ∧
        s'.currentThread = some 2 := by
  have hrun : run threadStep boot twoStarted = some twoReady := (some_get _).symm
  have hqueued : Queued twoReady := by
    refine Meets.invariant (fun _ _ _ h hguard => Queued.threadStep h hguard) ?_ hrun queued_boot
    exact fun _ _ => ⟨trivial, fun _ _ => ⟨trivial, fun _ _ => ⟨trivial, fun _ _ => ⟨trivial,
      fun _ _ => ⟨trivial, trivial⟩⟩⟩⟩⟩
  have hslicing : Slicing twoReady 5 (· + 1) [(1, 2), (2, 3)] := by
    refine ⟨hqueued, ?_, ?_, ?_, ?_, ?_, ?_, ?_, ?_, ?_, cons_ne_nil _ _⟩
    all_goals decide +kernel
  obtain ⟨s', hs', -, -, -, hserved⟩ := (round_robin hslicing).1 7
  exact ⟨hrun, hslicing, s', hs', hserved⟩

end Sched

end Easyio.Kernel
