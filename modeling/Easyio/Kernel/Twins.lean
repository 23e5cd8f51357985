import Easyio.Kernel.Absence

/-!
# Two systems, one without a wait

In one system the thread `t` is inside of a call, in the other one it never made it.  `Twins`
are two such systems that agree in all objects and all other threads, and in the lists of
those that wait, but for `t`.  A step of another thread in the first system can be made in the
second one, and they are twins again, if the step does not wake `t` (`Follows`) and if no
thread that has come behind `t` in a list by priority has a higher priority (`Unpassed`).
-/

namespace Easyio.Kernel

open Ipc List Option Sched View

namespace Ipc

/-- The same objects, with other threads. -/
def twin (s : Ipc) (sched : Sched) (pc : ℕ → Pc) : Ipc := { s with sched, pc }

/-- The system `r` is `s` without the call in which `t` is. -/
def Twins (t : ℕ) (s r : Ipc) : Prop :=
  ∃ sched pc, r = s.twin sched pc ∧ Absent t s.sched sched ∧ ∀ u, u ≠ t → pc u = s.pc u

/-- Nobody behind `t` in a list by priority has a higher priority. -/
def Unpassed (t : ℕ) (s : Ipc) : Prop :=
  ∀ w front behind, s.flag w = .prio → s.sched.waiting w = front ++ t :: behind →
    ∀ v ∈ behind, s.sched.view.priority t ≤ s.sched.view.priority v

/-- Whatever happens in the first system, unless `t` is taken out of one of `lists`, also
happens in the second one. -/
def Follows (t : ℕ) (lists : Wait → List ℕ) (x y : Option Ipc) : Prop :=
  ∀ s', x = some s' → (∀ w, t ∈ lists w → t ∈ s'.sched.waiting w) →
    ∃ r', y = some r' ∧ Twins t s' r'

variable {s s' r : Ipc} {t u i : ℕ} {w : Wait} {lists : Wait → List ℕ} {x y : Option Ipc}

end Ipc

namespace Sched

/-- The place of a thread does not depend on one that nobody behind it has passed. -/
theorem insertByPriority_erase {priority : ℕ → ℕ} {t u : ℕ} {front behind : List ℕ} (hu : u ≠ t)
    (hfront : t ∉ front) (hbehind : ∀ v ∈ behind, priority t ≤ priority v) :
    (insertByPriority priority u (front ++ t :: behind)).erase t =
      insertByPriority priority u (front ++ behind) := by
  induction front with
  | nil =>
    change (insertByPriority priority u (t :: behind)).erase t = insertByPriority priority u behind
    rw [insertByPriority]
    split
    · rw [erase_cons_tail (by simpa using hu), erase_cons_head]
      cases behind with
      | nil => rfl
      | cons v rest =>
        have := hbehind v mem_cons_self
        rw [insertByPriority, if_pos (by omega)]
    · rw [erase_cons_head]
  | cons v front ih =>
    rw [mem_cons, not_or] at hfront
    have hv : ¬ (v == t) = true := by simpa using Ne.symm hfront.1
    rw [cons_append, cons_append, insertByPriority, insertByPriority]
    split
    · have htail : (u :: v :: (front ++ t :: behind)).erase t = u :: v :: (front ++ behind) := by
        rw [erase_cons_tail (by simpa using hu), erase_cons_tail hv,
          erase_append_right _ hfront.2, erase_cons_head]
      exact htail
    · rw [erase_cons_tail hv, ih hfront.2]

end Sched

namespace Ipc

variable {s s' r : Ipc} {t u i : ℕ} {w : Wait} {lists : Wait → List ℕ} {x y : Option Ipc}

theorem place_of_not_mem (hu : u ≠ t) (ht : t ∉ s.sched.waiting w) (flag : Flag) :
    (place s.sched.view.priority u (s.sched.waiting w) flag).erase t =
      place s.sched.view.priority u ((s.sched.waiting w).erase t) flag := by
  rw [erase_of_not_mem ht, erase_of_not_mem]
  rw [mem_place, not_or]
  exact ⟨hu.symm, ht⟩

theorem Unpassed.place (h : Unpassed t s) (hqueued : s.sched.Queued) (hu : u ≠ t) (w : Wait) :
    (place s.sched.view.priority u (s.sched.waiting w) (s.flag w)).erase t =
      place s.sched.view.priority u ((s.sched.waiting w).erase t) (s.flag w) := by
  by_cases ht : t ∈ s.sched.waiting w
  swap
  · exact place_of_not_mem hu ht _
  cases hflag : s.flag w with
  | fifo => exact erase_append_left _ ht
  | prio =>
    obtain ⟨front, behind, hlist⟩ := append_of_mem ht
    have hnodup := hqueued.waitingNodup w
    rw [hlist] at hnodup
    have hfront : t ∉ front := fun hin =>
      (nodup_append.mp hnodup).2.2 t hin t mem_cons_self rfl
    have hbehind := h w front behind hflag hlist
    rw [hlist, erase_append_right _ hfront, erase_cons_head]
    exact insertByPriority_erase hu hfront hbehind

namespace Twins

theorem refl {sched : Sched} {pc : ℕ → Pc} (hsched : Absent t s.sched sched)
    (hpc : ∀ u, u ≠ t → pc u = s.pc u) : Twins t s (s.twin sched pc) :=
  ⟨sched, pc, rfl, hsched, hpc⟩

section

variable (h : Twins t s r)
include h

theorem queued : s.sched.Queued := by
  obtain ⟨b, p, rfl, hb, hp⟩ := h
  exact hb.left

theorem expire (hs : s.step (.timeout t) = some s') : Twins t s' r := by
  obtain ⟨b, p, rfl, hb, hp⟩ := h
  obtain ⟨-, hs⟩ := ite_none_right_eq_some.mp hs
  obtain ⟨hsched, hs'⟩ := under_eq hs
  exact ⟨b, p, by rw [hs']; rfl, hb.expire hsched, fun u hu => by rw [hp u hu, hs']⟩

theorem goto (u : ℕ) (pc : Pc) : Twins t (s.goto u pc) (r.goto u pc) := by
  obtain ⟨b, p, rfl, hb, hp⟩ := h
  refine ⟨b, Function.update p u pc, rfl, hb, fun v hv => ?_⟩
  change Function.update p u pc v = Function.update s.pc u pc v
  by_cases hvu : v = u
  · rw [hvu, Function.update_self, Function.update_self]
  · rw [Function.update_of_ne hvu, Function.update_of_ne hvu, hp v hv]

theorem make (hu : u ≠ t) (c : Change) : Twins t (c.make u s) (c.make u r) := by
  have hgoto := h.goto u
  obtain ⟨b, p, rfl, hb, hp⟩ := h
  cases c with
  | error err => exact ⟨b.setError u err, p, rfl, hb.setError hu err, hp⟩
  | wants set option =>
    have hwant := hb.modify hu (f := ({ · with eventSet := set, eventInfo := option }))
      (g := ({ · with eventSet := set, eventInfo := option })) (fun _ => ⟨rfl, rfl, rfl, rfl⟩)
      fun _ => rfl
    exact ⟨_, p, rfl, hwant, hp⟩
  | goto pc => exact hgoto pc
  | _ => exact ⟨b, p, rfl, hb, hp⟩

theorem made (hu : u ≠ t) (p : Plan) : Twins t (p.made s u) (p.made r u) := by
  obtain ⟨changes, deed⟩ := p
  induction changes generalizing s r with
  | nil => exact h
  | cons c changes ih => exact ih (h.make hu c)

end

end Twins

namespace Follows

theorem some (h : Twins t s r) : Follows t lists (.some s) (.some r) := by
  intro s' hs _
  exact ⟨r, rfl, Option.some.inj hs ▸ h⟩

theorem none : Follows t lists .none y := fun s' hs => absurd hs (some_ne_none s').symm

theorem under (h : Twins t s r) {a b : Option Sched}
    (hsched : ∀ a', a = .some a' → (∀ w, t ∈ lists w → t ∈ a'.waiting w) →
      ∃ b', b = .some b' ∧ Absent t a' b') : Follows t lists (s.under a) (r.under b) := by
  intro s' hs hstay
  obtain ⟨_, p, rfl, -, hp⟩ := h
  obtain ⟨ha, hs'⟩ := under_eq hs
  obtain ⟨b', hb, habsent⟩ := hsched _ ha hstay
  refine ⟨s'.twin b' p, ?_, .refl habsent fun u hu => ?_⟩
  · rw [hb, hs']
    rfl
  · rw [hs', hp u hu]

/-- What the scheduler does for a thread in the first system, it does in the second one too. -/
theorem sched {f : Sched → Option Sched} (h : Twins t s r) (hf : ∀ b a', Absent t s.sched b →
      f s.sched = .some a' → ∃ b', f b = .some b' ∧ Absent t a' b') :
    Follows t lists (s.under (f s.sched)) (r.under (f r.sched)) := by
  refine under h fun a' ha' _ => ?_
  obtain ⟨b, p, rfl, hb, hp⟩ := h
  exact hf b a' hb ha'

theorem bind {f g : Ipc → Option Ipc} (h : Follows t (fun _ => []) x y)
    (hnext : ∀ q q', x = .some q → Twins t q q' → Follows t lists (f q) (g q')) :
    Follows t lists (x.bind f) (y.bind g) := by
  intro s' hs hstay
  obtain ⟨q, hq, hs⟩ := bind_eq_some_iff.mp hs
  obtain ⟨q', rfl, htwins⟩ := h q hq fun w hin => absurd hin not_mem_nil
  exact hnext q q' hq htwins s' hs hstay

theorem block (h : Twins t s r) (hu : u ≠ t) (hready : (s.sched.thread u).stat = .ready)
    {flag : Flag} {time : ℤ}
    (hplace : (place s.sched.view.priority u (s.sched.waiting w) flag).erase t =
      place s.sched.view.priority u ((s.sched.waiting w).erase t) flag) :
    Follows t lists (s.under (s.sched.block w flag u time))
      (r.under (r.sched.block w flag u time)) :=
  sched h fun _ _ hb ha' => hb.block hu hready hplace ha'

/-- The first thread of a list is woken, and if `t` stays, this is another one. -/
theorem wake (h : Twins t s r) (hlists : s.sched.waiting = lists) (hne : s.sched.waiting w ≠ [])
    (hs : s.under (s.sched.wake w) = .some s') (hstay : ∀ w, t ∈ lists w → t ∈ s'.sched.waiting w) :
    r.sched.waiting w ≠ [] ∧ ∃ r', r.under (r.sched.wake w) = .some r' ∧ Twins t s' r' := by
  have hsystems := h
  obtain ⟨b, p, rfl, hb, hp⟩ := hsystems
  obtain ⟨v, rest, hlist⟩ := exists_cons_of_ne_nil hne
  have hv : v ≠ t := by
    intro hv
    have hgone : t ∉ s'.sched.waiting w := by
      rw [show s'.sched.waiting w = _ from congrFun (congrArg View.waiting
        (effect_wake hb.left hlist (under_eq hs).1).view) w, hv]
      exact (hb.left.waitingNodup w).not_mem_erase
    exact hgone (hstay w (hlists ▸ hlist ▸ hv ▸ mem_cons_self ..))
  refine ⟨?_, under h (fun a' ha' _ => hb.wake hlist hv ha') s' hs hstay⟩
  change b.waiting w ≠ []
  rw [hb.waiting, hlist, erase_cons_tail (by simpa using hv)]
  exact cons_ne_nil _ _

/-- The lists of both systems have a first thread, or none of them. -/
theorem ifWaiting (h : Twins t s r) (hlists : s.sched.waiting = lists) (w : Wait)
    (hnone : Follows t lists x y) :
    Follows t lists (if s.sched.waiting w ≠ [] then s.under (s.sched.wake w) else x)
      (if r.sched.waiting w ≠ [] then r.under (r.sched.wake w) else y) := by
  by_cases hne : s.sched.waiting w ≠ []
  · rw [if_pos hne]
    intro s' hs hstay
    obtain ⟨hne', hwake⟩ := wake h hlists hne hs hstay
    rw [if_pos hne']
    exact hwake
  · have hnil : r.sched.waiting w = [] := by
      obtain ⟨b, p, rfl, hb, hp⟩ := h
      change b.waiting w = []
      rw [hb.waiting, not_not.mp hne]
      rfl
    rw [if_neg hne, if_neg (not_not.mpr hnil)]
    exact hnone

/-! ### The calls of another thread -/

/-- What the calls of the thread `u` need to be the same in both systems. -/
structure Ready (t u : ℕ) (s : Ipc) : Prop where
  ne : u ≠ t
  queued : s.sched.Queued
  ready : (s.sched.thread u).stat = .ready
  unpassed : Unpassed t s
  outside : ∀ i, t ∉ s.sched.waiting (.mutex i)

theorem Ready.still (hu : Ready t u s) {q : Ipc} (hstill : s.sched.Still q.sched)
    (hflag : q.flag = s.flag) : Ready t u q := by
  have hwaiting : q.sched.waiting = s.sched.waiting := congrArg View.waiting hstill.view
  refine ⟨hu.ne, hstill.queued, hstill.ready hu.ready, fun w front behind hprio hlist => ?_,
    hwaiting ▸ hu.outside⟩
  rw [hstill.view]
  exact hu.unpassed w front behind (hflag ▸ hprio) (hwaiting ▸ hlist)

/-- The owner of a mutex is raised, and another thread waits for it. -/
theorem mutexWait (h : Twins t s r) (hu : Ready t u s) (i o : ℕ) (time : ℤ) :
    Follows t lists ((Deed.mutexWait i o time).run u s) ((Deed.mutexWait i o time).run u r) := by
  refine bind (sched h fun _ _ hb ha' => hb.raise ha') fun q q' hq htwins => ?_
  have hview := (effect_raise hu.queued (under_eq hq).1).view
  have hwaiting : q.sched.waiting = s.sched.waiting :=
    (congrArg View.waiting hview).trans (View.raise_waiting ..)
  have hready : (q.sched.thread u).stat = .ready := by
    refine (congrFun (congrArg stat hview) u).trans ?_
    rw [raise_stat]
    exact hu.ready
  rw [show q'.mutex i = q.mutex i by obtain ⟨b, p, rfl, -⟩ := htwins; rfl]
  exact block htwins hu.ne hready (place_of_not_mem hu.ne (hwaiting ▸ hu.outside i) _)

theorem of_handOver (h : Twins t s r) (hu : u ≠ t) (hout : t ∉ s.sched.waiting (.mutex i)) :
    Follows t lists (s.handOver i) (r.handOver i) := by
  obtain ⟨b, p, rfl, hb, hp⟩ := h
  have hwaiting : b.waiting (.mutex i) = s.sched.waiting (.mutex i) := by
    rw [hb.waiting, erase_of_not_mem hout]
  cases hlist : s.sched.waiting (.mutex i) with
  | nil =>
    rw [handOver, handOver, hlist, show (s.twin b p).sched.waiting (.mutex i) = [] from
      hwaiting.trans hlist]
    exact some ((Twins.refl hb hp).make hu (.mutex i _))
  | cons v rest =>
    have hv : v ≠ t := fun he => hout (he ▸ hlist ▸ mem_cons_self ..)
    rw [handOver, handOver, hlist, show (s.twin b p).sched.waiting (.mutex i) = v :: rest from
      hwaiting.trans hlist]
    change Follows t _ _ (((s.twin b p).setMutex i ({ s.mutex i with hold := 0 }.acquire v
      (b.thread v).currentPriority)).under _)
    rw [hb.currentPriority]
    exact under ((Twins.refl hb hp).make hu (.mutex i _)) fun a' ha' _ => hb.wake hlist hv ha'

theorem mutexPass (h : Twins t s r) (hu : Ready t u s) (i : ℕ) :
    Follows t lists ((Deed.mutexPass i).run u s) ((Deed.mutexPass i).run u r) := by
  have hmutex : r.mutex = s.mutex := by obtain ⟨b, p, rfl, -⟩ := h; rfl
  rw [Deed.run, Deed.run, hmutex]
  refine bind (sched h fun _ _ hb ha' => hb.restore ha') fun q q' hq htwins => ?_
  have hwaiting : q.sched.waiting = s.sched.waiting :=
    congrArg View.waiting (effect_restore hu.queued (under_eq hq).1).view
  exact of_handOver htwins hu.ne (hwaiting ▸ hu.outside i)

theorem eventSend (h : Twins t s r) (hu : u ≠ t) (i : ℕ) (set : BitVec 32) :
    Follows t s.sched.waiting ((Deed.eventSend i set).run u s)
      ((Deed.eventSend i set).run u r) := by
  obtain ⟨b, p, rfl, hb, hp⟩ := h
  intro s' hs hstay
  -- a thread that gets its events is no longer in the list
  have hout : t ∉ (served s.sched.note (s.sched.waiting (.event i))
      ((s.event i).set ||| set)).map Prod.fst := by
    intro hin
    have hwaits := hstay (.event i) ((served_sublist ..).subset hin)
    have hview := (sendEnd_sched hs).1.trans (sent_waiting hb.left (.event i)
      ((s.event i).set ||| set) false).view
    rw [show s'.sched.waiting = _ from congrArg View.waiting hview] at hwaits
    exact ((mem_foldl_resume (hb.left.waitingNodup _)).mp hwaits).2 hin
  obtain ⟨hset, hsent⟩ := hb.sendLoop false hout
  change ∃ r', ((s.twin b p).setEvent i (sendLoop (b.waiting (.event i))
    (b, (s.event i).set ||| set, false)).2.1).under _ = .some r' ∧ Twins t s' r'
  rw [hset]
  exact under ((Twins.refl hb hp).make hu (.event i _)) (fun a' ha' _ => hsent.rtSchedule_if _ ha')
    s' hs hstay

variable {o : Option Obj} {on : Option Wait}

section

variable (h : Twins t s r) (hu : Ready t u s)
include h hu

theorem of_deed {d : Deed} (hd : d.Fits s.flag o on) :
    Follows t s.sched.waiting (d.run u s) (d.run u r) := by
  cases d with
  | nothing => exact some h
  | block w flag time =>
    obtain ⟨-, -, rfl, -⟩ := hd
    exact block h hu.ne hu.ready (hu.unpassed.place hu.queued hu.ne w)
  | wake w => exact ifWaiting h rfl w (some h)
  | semRelease i =>
    have hset := h.make hu.ne (.sem i (((s.sem i).value + 1) % 2 ^ 16))
    refine ifWaiting h rfl (.sem i) (some ?_)
    obtain ⟨b, p, rfl, hb, hp⟩ := h
    exact hset
  | mutexWait i o time => exact mutexWait h hu i o time
  | mutexPass i => exact mutexPass h hu i
  | eventSend i set => exact eventSend h hu.ne i set
  | sleep tick => exact sched h fun _ _ hb ha' => hb.rtThreadSleep hu.ne hu.ready ha'
  | yield => exact sched h fun _ _ hb ha' => hb.rtThreadYield ha'

theorem of_plan {x : Option Plan} (hx : ∀ p ∈ x, p.Fits s.flag o on) :
    Follows t s.sched.waiting (x.bind (Plan.run s u)) (x.bind (Plan.run r u)) := by
  cases x with
  | none => exact none
  | some p =>
    have hp := hx p rfl
    have hstill : s.sched.Still (p.made s u).sched := still_made hu.queued p
    have hflag : (p.made s u).flag = s.flag := flag_made hp
    have hwaiting : (p.made s u).sched.waiting = s.sched.waiting :=
      congrArg View.waiting hstill.view
    rw [← hwaiting]
    exact of_deed (h.made hu.ne p) (hu.still hstill hflag) (hflag.symm ▸ hp.deed)

theorem of_perform (c : Call) : Follows t s.sched.waiting (s.perform u c) (r.perform u c) := by
  have hplan : r.plan u c = s.plan u c := by
    obtain ⟨b, p, rfl, hb, hp⟩ := h
    -- apart from the time and its priority, a thread looks at the object only
    cases c <;> first | rfl | simp only [plan, planMutexTake, planMbSend, planMbSendWait,
      planMbRecv, planMqRecv, twin, hb.currentPriority, hb.tick]
  rw [perform_eq, perform_eq, hplan]
  exact of_plan h hu plan_fits

theorem of_proceed (pc : Pc) : Follows t s.sched.waiting (s.proceed u pc) (r.proceed u pc) := by
  have hplan : r.planNext u pc = s.planNext u pc := by
    obtain ⟨b, p, rfl, hb, hp⟩ := h
    have herror : (b.thread u).error = (s.sched.thread u).error :=
      congrArg Note.error (hb.note u hu.ne)
    have hset : (b.thread u).eventSet = (s.sched.thread u).eventSet :=
      congrArg Note.eventSet (hb.note u hu.ne)
    cases pc <;> first | rfl | simp only [planNext, ifWoken, planMbSend, planMbRecv, planMqRecv,
      twin, herror, hset, hb.tick]
  rw [proceed_eq, proceed_eq, hplan]
  exact of_plan h hu planNext_fits

end

end Follows

/-- A step of another thread, or of the clock. -/
theorem follows_step (h : Twins t s r) (hunpassed : Unpassed t s)
    (houtside : ∀ i, t ∉ s.sched.waiting (.mutex i)) {e : Event} (hactor : e.actor ≠ some t)
    (htimeout : e ≠ .timeout t) : Follows t s.sched.waiting (s.step e) (r.step e) := by
  have hqueued := h.queued
  have hother : ∀ u, u ≠ t → (r.sched.note u = s.sched.note u ∧ r.pc u = s.pc u) := fun u hu => by
    obtain ⟨b, p, rfl, hb, hp⟩ := h
    exact ⟨hb.note u hu, hp u hu⟩
  cases e with
  | call u c =>
    have hu : u ≠ t := fun he => hactor (congrArg some he)
    have hstat : (r.sched.thread u).stat = (s.sched.thread u).stat :=
      congrArg Note.stat (hother u hu).1
    simp only [step]
    rw [hstat, (hother u hu).2]
    split
    · rename_i hcond
      exact .of_perform h ⟨hu, hqueued, hcond.1, hunpassed, houtside⟩ c
    · exact .none
  | resume u =>
    have hu : u ≠ t := fun he => hactor (congrArg some he)
    have hstat : (r.sched.thread u).stat = (s.sched.thread u).stat :=
      congrArg Note.stat (hother u hu).1
    simp only [step]
    rw [hstat, (hother u hu).2]
    split
    · rename_i hready
      exact .of_proceed h ⟨hu, hqueued, hready, hunpassed, houtside⟩ (s.pc u)
    · exact .none
  | timeout u =>
    have hu : u ≠ t := fun he => htimeout (congrArg Event.timeout he)
    have htimer : (r.sched.thread u).timerActive = (s.sched.thread u).timerActive :=
      congrArg Note.timer (hother u hu).1
    simp only [step]
    rw [htimer]
    split
    · exact .sched h fun _ _ hb ha' => hb.rtThreadTimeout hu ha'
    · exact .none
  | tick => exact .sched h fun _ _ hb ha' => hb.rtTickIncrease ha'

end Ipc

end Easyio.Kernel
