import Easyio.Kernel.Twins

/-!
# A wait whose time runs out leaves no trace

Two runs are compared: one in which the thread `t` makes a call that ends with `-RT_ETIMEOUT`,
and the one with the same steps of all others in which it does not make this call.  At the end
all objects are the same, and so are the threads that wait, and their order
(`timeout_leaves_no_trace`).

The steps have to meet a condition.  A list by priority is not sorted again when
`rt_thread_control` raises a thread in it, so a thread that comes later may find its place by
comparison with `t` only (`timeout_reorders`).  And a thread that is woken, but finds nothing,
waits again; its wake-up would have been that of another thread.
-/

namespace Easyio.Kernel

open Err Function Ipc List Option Runs.Partial

namespace Ipc

/-- The list in which a thread inside of a call waits or has waited. -/
def Pc.list : Pc → Option Wait
  | .semTake i => some (.sem i)
  | .mutexTake i => some (.mutex i)
  | .eventRecv i => some (.event i)
  | .mbSend i _ _ _ => some (.mbSend i)
  | .mbRecv i _ _ => some (.mbRecv i)
  | .mqRecv i _ _ _ => some (.mq i)
  | _ => none

/-- A thread that was woken at `pc` finds what it has waited for. -/
def Finds (s : Ipc) : Pc → Prop
  | .mbSend i _ _ _ => (s.mailbox i).entry ≠ (s.mailbox i).size
  | .mbRecv i _ _ => (s.mailbox i).entry ≠ 0
  | .mqRecv i _ _ _ => (s.queue i).entry ≠ 0
  | _ => True

/-- What a step has to find: nobody has passed `t` in a list, and `t` is not woken in vain. -/
def Traceless (t : ℕ) (s : Ipc) (e : Event) : Prop :=
  Unpassed t s ∧ (e = .resume t → (s.sched.thread t).error = .eok → s.Finds (s.pc t))

/-- The steps that the thread `t` makes or that its timer makes. -/
def Event.of (t : ℕ) : Event → Bool
  | .call u _ | .resume u | .timeout u => u = t
  | .tick => false

/-- Where `t` is in a call that will end with its time over. -/
inductive Phase (t : ℕ) (s : Ipc) : Prop
  | waiting (w : Wait) (hlist : (s.pc t).list = some w) (hmutex : ∀ i, w ≠ .mutex i)
      (hin : t ∈ s.sched.waiting w) (herror : (s.sched.note t).error = .eok)
  | expired (w : Wait) (hlist : (s.pc t).list = some w) (hready : (s.sched.note t).stat = .ready)
      (htimer : (s.sched.note t).timer = false) (herror : (s.sched.note t).error = .etimeout)
  | ended (out : Output) (hpc : s.pc t = .returned .etimeout out)
      (hready : (s.sched.note t).stat = .ready) (htimer : (s.sched.note t).timer = false)

/-- The call of `t` will not end with its time over, or has not. -/
inductive Doomed (t : ℕ) (s : Ipc) : Prop
  | woken (w : Wait) (hlist : (s.pc t).list = some w) (hready : (s.sched.note t).stat = .ready)
      (herror : (s.sched.note t).error = .eok)
  | copying (i msg size : ℕ) (hpc : s.pc t = .mqCopy i msg size)
  | copied (i msg : ℕ) (bytes : List ℕ) (hpc : s.pc t = .mqFree i msg bytes)
  | returned (err : Err) (out : Output) (herr : err ≠ .etimeout) (hpc : s.pc t = .returned err out)

/-- The first step of the call: its time will be over, or it will not. -/
def Enters (t : ℕ) (s s' : Ipc) : Prop := Twins t s' s ∧ Phase t s' ∨ Doomed t s'

variable {s s' r q : Ipc} {t i : ℕ} {w : Wait} {e : Event} {pc : Pc} {err : Err} {out : Output}
  {time timeout : ℤ} {flag : Flag} {es : List Event}

/-! ## The first step of the call -/

theorem Doomed.ret (herr : err ≠ .etimeout) : Doomed t (q.ret t err out) :=
  .returned err out herr (update_self ..)

theorem Doomed.map_ret {x : Option Ipc} (herr : err ≠ .etimeout)
    (hs : x.map (Ipc.ret · t err out) = some s') : Doomed t s' := by
  obtain ⟨q, -, rfl⟩ := map_eq_some_iff.mp hs
  exact .ret herr

theorem Twins.of_pc (h : Twins t s r) (pc : Pc) : Twins t (s.goto t pc) r := by
  obtain ⟨b, p, rfl, hb, hp⟩ := h
  refine ⟨b, p, rfl, hb, fun u hu => ?_⟩
  rw [hp u hu]
  exact (update_of_ne hu ..).symm

/-- The thread `t` runs in the system `s`, and its timer does not. -/
structure Calls (t : ℕ) (s : Ipc) : Prop where
  queued : s.sched.Queued
  running : s.sched.currentThread ≠ none
  ready : (s.sched.thread t).stat = .ready
  timer : (s.sched.thread t).timerActive = false

namespace Calls

section

variable (h : Calls t s)
  (hobjects : q = { s with sched := q.sched })
  (hown : Sched.Own t s.sched q.sched)
include h hobjects hown

theorem refused : Twins t (q.ret t .etimeout out) s ∧ Phase t (q.ret t .etimeout out) := by
  have htwins : Twins t q s :=
    ⟨s.sched, s.pc, by rw [hobjects]; rfl, .of_own hown h.queued h.ready h.running,
      fun u _ => by rw [hobjects]⟩
  exact ⟨htwins.of_pc _, .ended out (update_self ..) (hown.ready h.ready)
    (hown.timer.trans h.timer)⟩

theorem waits (herror : (q.sched.note t).error = .eok)
    (hlist : pc.list = some w) (hmutex : ∀ i, w ≠ .mutex i)
    (hs : q.block t w flag time pc = some s') : Twins t s' s ∧ Phase t s' := by
  obtain ⟨hsched, hs'⟩ := under_eq hs
  have heffect := Sched.effect_block hown.queued (hown.ready h.ready) hsched
  have hpc : s'.pc = update s.pc t pc := by
    rw [hs', hobjects]
    rfl
  refine ⟨⟨s.sched, s.pc, ?_, .of_block hown h.queued h.ready h.running hsched, fun u hu => ?_⟩,
    .waiting w ?_ hmutex ?_ ?_⟩
  · rw [hs', hobjects]
    rfl
  · rw [hpc, update_of_ne hu]
  · rw [hpc, update_self, hlist]
  · rw [show s'.sched.waiting w = _ from congrFun (congrArg View.waiting heffect.view) w]
    exact View.mem_suspend.mpr (.inl rfl)
  · rw [heffect.note, update_self]
    exact herror

end

theorem setError_eok (s : Ipc) (t : ℕ) : ((s.setError t .eok).sched.note t).error = .eok := by
  rw [show (s.setError t .eok).sched.note = _ from s.sched.note_setError t .eok, update_self]

theorem waits_eok (h : Calls t s) (hlist : pc.list = some w) (hmutex : ∀ i, w ≠ .mutex i)
    (hs : (s.setError t .eok).block t w flag time pc = some s') : Twins t s' s ∧ Phase t s' :=
  h.waits rfl (.setError h.queued .eok) (setError_eok s t) hlist hmutex hs

theorem of_rtSemTake (h : Calls t s) (hs : s.rtSemTake t i time = some s') : Enters t s s' := by
  unfold rtSemTake at hs
  split at hs
  · exact .inr (some.inj hs ▸ .ret noConfusion)
  split at hs
  · exact .inl (some.inj hs ▸ h.refused rfl (.refl h.queued))
  · exact .inl (h.waits_eok rfl (fun _ => Wait.noConfusion) hs)

theorem of_rtEventRecv (h : Calls t s) {set : BitVec 32} {option : BitVec 8}
    (hs : s.rtEventRecv t i set option timeout = some s') :
    Enters t s s' := by
  have hok : Sched.Own t s.sched (s.setError t .eok).sched := .setError h.queued .eok
  unfold rtEventRecv at hs
  split at hs
  · exact .inr (some.inj hs ▸ .ret noConfusion)
  obtain ⟨-, hs⟩ := ite_none_left_eq_some.mp hs
  split at hs
  · exact .inr (some.inj hs ▸ .ret noConfusion)
  split at hs
  · exact .inl (some.inj hs ▸ h.refused rfl (hok.trans (.setError hok.queued .etimeout)))
  have hwant : Sched.Own t s.sched ((s.setError t .eok).wantEvents t set option).sched :=
    hok.trans (.modify hok.queued (f := ({ · with eventSet := set, eventInfo := option }))
      (fun _ => ⟨rfl, rfl, rfl, rfl⟩) fun _ => rfl)
  have hthread : ((s.setError t .eok).wantEvents t set option).sched.thread t =
      { (s.setError t .eok).sched.thread t with eventSet := set, eventInfo := option } :=
    update_self ..
  exact .inl (h.waits rfl hwant
    ((congrArg Thread.error hthread).trans (setError_eok s t)) rfl (fun _ => Wait.noConfusion) hs)

variable {value : ℕ}

section

variable (h : Calls t s)
include h

theorem of_mbSendLoop (hs : s.mbSendLoop t i value timeout = some s') : Enters t s s' := by
  unfold mbSendLoop at hs
  split at hs
  · split at hs
    · exact .inr (some.inj hs ▸ .ret noConfusion)
    · exact .inl (h.waits_eok rfl (fun _ => Wait.noConfusion) hs)
  · exact .inr (.map_ret noConfusion hs)

theorem of_rtMbSendWait (hs : s.rtMbSendWait t i value timeout = some s') : Enters t s s' := by
  unfold rtMbSendWait at hs
  split at hs
  · exact .inr (some.inj hs ▸ .ret noConfusion)
  · exact h.of_mbSendLoop hs

theorem of_rtMbRecv (hs : s.rtMbRecv t i timeout = some s') : Enters t s s' := by
  unfold rtMbRecv at hs
  split at hs
  · exact .inl (some.inj hs ▸ h.refused rfl (.refl h.queued))
  unfold mbRecvLoop at hs
  split at hs
  · split at hs
    · exact .inl (some.inj hs ▸ h.refused rfl (.setError h.queued .etimeout))
    · exact .inl (h.waits_eok rfl (fun _ => Wait.noConfusion) hs)
  · exact .inr (.map_ret noConfusion hs)

theorem of_rtMqRecv {size : ℕ} (hs : s.rtMqRecv t i size timeout = some s') : Enters t s s' := by
  obtain ⟨-, hs⟩ := ite_none_left_eq_some.mp hs
  split at hs
  · exact .inl (some.inj hs ▸ h.refused rfl (.refl h.queued))
  unfold mqRecvLoop at hs
  split at hs
  · split at hs
    · exact .inl (some.inj hs ▸ h.refused rfl (.setError h.queued .etimeout))
    · exact .inl (h.waits_eok rfl (fun _ => Wait.noConfusion) hs)
  · obtain ⟨msg, -, rfl⟩ := map_eq_some_iff.mp hs
    exact .inr (.copying i msg size (update_self ..))

theorem of_perform {c : Call} (hc : c.waits = some w) (hmutex : ∀ i, w ≠ .mutex i)
    (hs : s.perform t c = some s') : Enters t s s' := by
  cases c with
  | semTake i time | semTrytake i => exact h.of_rtSemTake hs
  | mutexTake i time => exact absurd (some.inj hc).symm (hmutex i)
  | eventRecv i set option timeout => exact h.of_rtEventRecv hs
  | mbSendWait i value timeout | mbSend i value => exact h.of_rtMbSendWait hs
  | mbRecv i timeout => exact h.of_rtMbRecv hs
  | mqRecv i size timeout => exact h.of_rtMqRecv hs
  | _ => cases hc

end

end Calls

/-! ## The next steps of the call -/

theorem proceed_expired (hlist : pc.list = some w) (herror : (s.sched.note t).error ≠ .eok) :
    s.proceed t pc = some (s.waitEnd t) := by
  cases pc with
  | semTake i => rfl
  | mutexTake i => rfl
  | eventRecv i => exact congrArg some (if_pos herror)
  | mbSend i value timeout start | mbRecv i timeout start | mqRecv i size timeout start =>
    exact if_pos herror
  | _ => cases hlist

/-- A thread that was woken and finds what it has waited for. -/
theorem doomed_of_woken (hlist : pc.list = some w) (herror : (s.sched.note t).error = .eok)
    (hfinds : s.Finds pc) (hs : s.proceed t pc = some s') : Doomed t s' := by
  have hend : (s.sched.thread t).error = .eok := herror
  have hok : ¬ (s.sched.thread t).error ≠ .eok := not_not.mpr herror
  cases pc with
  | semTake i | mutexTake i =>
    rw [← some.inj hs, waitEnd, hend]
    exact .ret noConfusion
  | eventRecv i =>
    rw [← some.inj hs, eventRecvEnd, if_neg hok]
    exact .ret noConfusion
  | mbSend i value timeout start =>
    rw [proceed, mbSendResumed, if_neg hok, mbSendLoop, if_neg hfinds] at hs
    exact .map_ret noConfusion hs
  | mbRecv i timeout start =>
    rw [proceed, mbRecvResumed, if_neg hok, mbRecvLoop, if_neg hfinds] at hs
    exact .map_ret noConfusion hs
  | mqRecv i size timeout start =>
    rw [proceed, mqRecvResumed, if_neg hok, mqRecvLoop, if_neg hfinds] at hs
    obtain ⟨msg, -, rfl⟩ := map_eq_some_iff.mp hs
    exact .copying i msg size (update_self ..)
  | _ => cases hlist

/-- What a step of another thread, or of the clock, does to `t`. -/
theorem spared_step (h : s.sched.Queued) (hactor : e.actor ≠ some t) (htimeout : e ≠ .timeout t)
    (hs : s.step e = some s') : s.sched.Spared s'.sched t ∧ s'.pc t = s.pc t := by
  by_cases hexpires : ∃ u, e = .timeout u
  · obtain ⟨u, rfl⟩ := hexpires
    have hu : t ≠ u := fun he => htimeout (by rw [he])
    obtain ⟨-, hs', hwaiting, hnote⟩ := expired_step hs
    refine ⟨.same (by rw [hnote, update_of_ne hu]) fun w hin => ?_, by rw [hs']⟩
    rw [hwaiting]
    exact (mem_erase_of_ne hu).mpr hin
  · have hframed := framed_step h (fun u hu => hexpires ⟨u, hu⟩) hs
    exact ⟨hframed.spared t hactor, hframed.pc t hactor⟩

theorem spared_ready (h : s.sched.Spared s'.sched t) (hready : (s.sched.note t).stat = .ready) :
    (s'.sched.note t).stat = .ready ∧ (s'.sched.note t).error = (s.sched.note t).error ∧
      ((s.sched.note t).timer = false → (s'.sched.note t).timer = false) := by
  cases h with
  | same hnote _ =>
    rw [hnote]
    exact ⟨hready, rfl, id⟩
  | resumed set hnote =>
    rw [hnote]
    exact ⟨rfl, rfl, fun _ => rfl⟩

theorem not_timeout (hready : (s.sched.note t).stat = .ready) : s.step (.timeout t) ≠ some s' := by
  intro hs
  have hnote := (expired_step hs).1
  rw [hnote] at hready
  cases hready

theorem Event.of_eq_true (h : e.of t = true) :
    (∃ c, e = .call t c) ∨ e = .resume t ∨ e = .timeout t := by
  cases e with
  | call u c => exact .inl ⟨c, by rw [of_decide_eq_true h]⟩
  | resume u => exact .inr (.inl (by rw [of_decide_eq_true h]))
  | timeout u => exact .inr (.inr (by rw [of_decide_eq_true h]))
  | tick => cases h

theorem Event.of_eq_false (h : e.of t = false) : e.actor ≠ some t ∧ e ≠ .timeout t := by
  cases e with
  | call u c | resume u => exact ⟨fun he => of_decide_eq_false h (some.inj he), Event.noConfusion⟩
  | timeout u =>
    exact ⟨(some_ne_none t).symm, fun he => of_decide_eq_false h (Event.timeout.inj he)⟩
  | tick => exact ⟨(some_ne_none t).symm, Event.noConfusion⟩

theorem resume_eq (hs : s.step (.resume t) = some s') :
    (s.sched.note t).stat = .ready ∧ s.proceed t (s.pc t) = some s' := by
  simp only [step] at hs
  split at hs
  · exact ⟨‹_›, hs⟩
  · cases hs

theorem Doomed.resume (h : Doomed t s) (hguard : Traceless t s (.resume t))
    (hs : s.step (.resume t) = some s') : Doomed t s' := by
  obtain ⟨-, hs⟩ := resume_eq hs
  cases h with
  | woken w hlist hready herror =>
    exact doomed_of_woken hlist herror (hguard.2 rfl herror) hs
  | copying i msg size hpc =>
    rw [hpc] at hs
    exact some.inj hs ▸ .copied i msg _ (update_self ..)
  | copied i msg bytes hpc =>
    rw [hpc] at hs
    exact some.inj hs ▸ .ret noConfusion
  | returned err out herr hpc =>
    rw [hpc] at hs
    cases hs

theorem Doomed.step (h : Doomed t s) (hqueued : s.sched.Queued) (hcall : ∀ c, e ≠ .call t c)
    (hguard : Traceless t s e) (hs : s.step e = some s') : Doomed t s' := by
  cases hof : e.of t with
  | true =>
    rcases Event.of_eq_true hof with ⟨c, rfl⟩ | rfl | rfl
    · exact absurd rfl (hcall c)
    · exact h.resume hguard hs
    · obtain ⟨-, hs', -⟩ := expired_step hs
      have hpc : s'.pc t = s.pc t := by rw [hs']
      cases h with
      | woken w hlist hready herror => exact absurd hs (not_timeout hready)
      | copying i msg size h => exact .copying i msg size (hpc.trans h)
      | copied i msg bytes h => exact .copied i msg bytes (hpc.trans h)
      | returned err out herr h => exact .returned err out herr (hpc.trans h)
  | false =>
    obtain ⟨hactor, htimeout⟩ := Event.of_eq_false hof
    obtain ⟨hspared, hpc⟩ := spared_step hqueued hactor htimeout hs
    cases h with
    | woken w hlist hready herror =>
      obtain ⟨hready', herror', -⟩ := spared_ready hspared hready
      exact .woken w (hpc ▸ hlist) hready' (herror'.trans herror)
    | copying i msg size h => exact .copying i msg size (hpc.trans h)
    | copied i msg bytes h => exact .copied i msg bytes (hpc.trans h)
    | returned err out herr h => exact .returned err out herr (hpc.trans h)

/-! ## The two runs -/

/-- A step of `t` in its call has no counterpart in the other system. -/
theorem Phase.own_step (h : Phase t s) (htwins : Twins t s r) (hof : e.of t = true)
    (hcall : ∀ c, e ≠ .call t c) (hs : s.step e = some s') : Twins t s' r ∧ Phase t s' := by
  have hqueued := htwins.queued
  rcases Event.of_eq_true hof with ⟨c, rfl⟩ | rfl | rfl
  · exact absurd rfl (hcall c)
  · obtain ⟨hready, hs⟩ := resume_eq hs
    cases h with
    | waiting w hlist hmutex hin herror =>
      exact absurd hin (hqueued.not_waiting hready w)
    | expired w hlist _ htimer herror =>
      have herr : (s.sched.thread t).error = .etimeout := herror
      have hne : (s.sched.note t).error ≠ .eok := fun hok => noConfusion (herr.symm.trans hok)
      rw [proceed_expired hlist hne, waitEnd, herr] at hs
      rw [← some.inj hs]
      exact ⟨htwins.of_pc _, .ended .none (update_self ..) hready htimer⟩
    | ended out hpc _ htimer =>
      rw [hpc] at hs
      cases hs
  · cases h with
    | waiting w hlist hmutex hin herror =>
      obtain ⟨-, hs', -, hnote⟩ := expired_step hs
      have hself : s'.sched.note t = (s.sched.note t).expired := by
        rw [hnote, update_self]
      refine ⟨htwins.expire hs, .expired w ?_ ?_ ?_ ?_⟩
      · rw [hs']
        exact hlist
      · rw [hself]
        rfl
      · rw [hself]
        rfl
      · rw [hself]
        rfl
    | expired w hlist hready htimer herror | ended out hpc hready htimer =>
      exact absurd hs (not_timeout hready)

theorem Phase.outside (h : Phase t s) (hqueued : s.sched.Queued) (i : ℕ) :
    t ∉ s.sched.waiting (.mutex i) := by
  cases h with
  | waiting w hlist hmutex hin herror =>
    exact fun hin' => hmutex i (hqueued.waitingOnce t w (.mutex i) hin hin')
  | expired w hlist hready htimer herror | ended out hpc hready htimer =>
    exact hqueued.not_waiting hready _

/-- A step of another thread or of the clock also happens in the other system, unless it wakes
`t`. -/
theorem Phase.other_step (h : Phase t s) (htwins : Twins t s r) (hunpassed : Unpassed t s)
    (hof : e.of t = false) (hs : s.step e = some s') :
    (∃ r', r.step e = some r' ∧ Twins t s' r' ∧ Phase t s') ∨ Doomed t s' := by
  have hqueued := htwins.queued
  obtain ⟨hactor, htimeout⟩ := Event.of_eq_false hof
  obtain ⟨hspared, hpc⟩ := spared_step hqueued hactor htimeout hs
  have hfollows := follows_step htwins hunpassed (h.outside hqueued) hactor htimeout s' hs
  have hready : (s.sched.note t).stat = .ready → Phase t s' →
      ∃ r', r.step e = some r' ∧ Twins t s' r' ∧ Phase t s' := by
    intro hready hphase
    obtain ⟨r', hr', htwins'⟩ := hfollows fun w hin =>
      absurd hin (hqueued.not_waiting hready w)
    exact ⟨r', hr', htwins', hphase⟩
  cases h with
  | waiting w hlist hmutex hin herror =>
    rw [← hpc] at hlist
    cases hspared with
    | same hnote hstay =>
      obtain ⟨r', hr', htwins'⟩ := hfollows hstay
      exact .inl ⟨r', hr', htwins', .waiting w hlist hmutex (hstay w hin) (hnote ▸ herror)⟩
    | resumed set hnote =>
      refine .inr (.woken w hlist ?_ ?_)
      · rw [hnote]
        rfl
      · rw [hnote]
        exact herror
  | expired w hlist hstat htimer herror =>
    obtain ⟨hstat', herror', htimer'⟩ := spared_ready hspared hstat
    exact .inl (hready hstat
      (.expired w (hpc ▸ hlist) hstat' (htimer' htimer) (herror'.trans herror)))
  | ended out hret hstat htimer =>
    obtain ⟨hstat', -, htimer'⟩ := spared_ready hspared hstat
    exact .inl (hready hstat (.ended out (hpc.trans hret) hstat' (htimer' htimer)))

theorem doomed_run (h : Doomed t s) (hqueued : s.sched.Queued) (hes : ∀ c, .call t c ∉ es)
    (hmeets : Meets step (Traceless t) s es) (hrun : run step s es = some s') : Doomed t s' := by
  have hcalls : Meets step (fun _ e => ∀ c, e ≠ .call t c) s es :=
    meets_of_forall fun _ e he c hc => hes c (hc ▸ he)
  have hstep : ∀ s e s', s.sched.Queued ∧ Doomed t s → Traceless t s e ∧ (∀ c, e ≠ .call t c) →
      s.step e = some s' → s'.sched.Queued ∧ Doomed t s' := fun s e s' h hguard hs =>
    ⟨queued_step h.1 hs, h.2.step h.1 hguard.2 hguard.1 hs⟩
  exact ((meets_and.mpr ⟨hmeets, hcalls⟩).invariant hstep hrun ⟨hqueued, h⟩).2

theorem phase_run (h : Phase t s) (htwins : Twins t s r) (hes : ∀ c, .call t c ∉ es)
    (hmeets : Meets step (Traceless t) s es) (hrun : run step s es = some s') :
    (∃ r', run step r (es.filter (!·.of t)) = some r' ∧ Twins t s' r' ∧ Phase t s') ∨
      Doomed t s' := by
  induction es generalizing s r with
  | nil => exact .inl ⟨r, rfl, some.inj hrun ▸ htwins, some.inj hrun ▸ h⟩
  | cons e rest ih =>
    obtain ⟨s₁, hs₁, hrun⟩ := run_cons hrun
    obtain ⟨hguard, hmeets⟩ := hmeets s₁ hs₁
    have hrest : ∀ c, .call t c ∉ rest := fun c hin => hes c (mem_cons_of_mem _ hin)
    cases hof : e.of t with
    | true =>
      have hcall : ∀ c, e ≠ .call t c := fun c hc => hes c (hc ▸ mem_cons_self ..)
      obtain ⟨htwins₁, h₁⟩ := h.own_step htwins hof hcall hs₁
      rw [filter_cons_of_neg (by simp [hof])]
      exact ih h₁ htwins₁ hrest hmeets hrun
    | false =>
      rcases h.other_step htwins hguard.1 hof hs₁ with ⟨r₁, hr₁, htwins₁, h₁⟩ | hdoomed
      · rw [filter_cons_of_pos (by simp [hof]), Runs.Partial.run, hr₁, bind_some]
        exact ih h₁ htwins₁ hrest hmeets hrun
      · exact .inr (doomed_run hdoomed (queued_step htwins.queued hs₁) hrest hmeets hrun)

/-- Two systems with the same objects and the same threads waiting in them. -/
structure SameObjects (s r : Ipc) : Prop where
  sem : r.sem = s.sem
  mutex : r.mutex = s.mutex
  event : r.event = s.event
  mailbox : r.mailbox = s.mailbox
  queue : r.queue = s.queue
  waiting : r.sched.waiting = s.sched.waiting

theorem Twins.sameObjects (h : Twins t s r) (hout : ∀ w, t ∉ s.sched.waiting w) :
    SameObjects s r := by
  obtain ⟨b, p, rfl, hb, hp⟩ := h
  refine ⟨rfl, rfl, rfl, rfl, rfl, funext fun w => ?_⟩
  change b.waiting w = s.sched.waiting w
  rw [hb.waiting, erase_of_not_mem (hout w)]

/-- A call that may wait for something other than a mutex, and ends with `-RT_ETIMEOUT`: the
objects and all other threads are as in the run without it, and the thread waits for nothing and
has no timer. -/
theorem timeout_leaves_no_trace (h : Calls t s) {c : Call} (hc : c.waits = some w)
    (hmutex : ∀ i, w ≠ .mutex i) {es : List Event} (hes : ∀ c, .call t c ∉ es)
    (hmeets : Meets step (Traceless t) s (.call t c :: es))
    (hrun : run step s (.call t c :: es) = some s') (hend : s'.pc t = .returned .etimeout out) :
    (∃ r, run step s (es.filter (!·.of t)) = some r ∧ SameObjects s' r ∧
      ∀ u, u ≠ t → r.pc u = s'.pc u ∧ r.sched.note u = s'.sched.note u) ∧
    (∀ w, t ∉ s'.sched.waiting w) ∧ (s'.sched.thread t).timerActive = false := by
  obtain ⟨s₁, hs₁, hrun⟩ := run_cons hrun
  obtain ⟨-, hmeets⟩ := hmeets s₁ hs₁
  have hrest : (∃ r, run step s (es.filter (!·.of t)) = some r ∧ Twins t s' r ∧ Phase t s') ∨
      Doomed t s' := by
    rcases h.of_perform hc hmutex (perform_of_step hs₁) with ⟨htwins, hphase⟩ | hdoomed
    · exact phase_run hphase htwins hes hmeets hrun
    · exact .inr (doomed_run hdoomed (queued_step h.queued hs₁) hes hmeets hrun)
  -- the call has ended, and not otherwise
  have hlist : ∀ v, (s'.pc t).list ≠ some v := fun v hv => by
    rw [hend] at hv
    cases hv
  rcases hrest with ⟨r, hr, htwins, hphase⟩ | hdoomed
  · cases hphase with
    | waiting v hv | expired v hv => exact absurd hv (hlist v)
    | ended out hpc hready htimer =>
      have hout : ∀ w, t ∉ s'.sched.waiting w :=
        htwins.queued.not_waiting hready
      refine ⟨⟨r, hr, htwins.sameObjects hout, fun u hu => ?_⟩, hout, htimer⟩
      obtain ⟨b, p, rfl, hb, hp⟩ := htwins
      exact ⟨hp u hu, hb.note u hu⟩
  · cases hdoomed with
    | woken v hv => exact absurd hv (hlist v)
    | copying i msg size hpc | copied i msg bytes hpc => exact Pc.noConfusion (hend.symm.trans hpc)
    | returned err out herr hpc => exact absurd (Pc.returned.inj (hend.symm.trans hpc)).1.symm herr

theorem traceless_of_fifo (hflag : ∀ w, s.flag w = .fifo)
    (herror : e = .resume t → (s.sched.thread t).error ≠ .eok) : Traceless t s e := by
  refine ⟨fun w front behind hprio => ?_, fun he hok => absurd hok (herror he)⟩
  rw [hflag w] at hprio
  cases hprio

/-- Thread 1 waits for a semaphore and times out, and thread 2 waits behind it. -/
theorem timeout_leaves_no_trace_two :
    ∃ s r, run step (fresh (started [(1, 20), (2, 15), (9, 31)]))
        [.call 1 (.semTake 0 5), .call 2 (.semTake 0 (-1)), .timeout 1, .resume 1] = some s ∧
      s.pc 1 = .returned .etimeout .none ∧
      run step (fresh (started [(1, 20), (2, 15), (9, 31)])) [.call 2 (.semTake 0 (-1))] = some r ∧
      SameObjects s r := by
  have hend : (run step (fresh (started [(1, 20), (2, 15), (9, 31)]))
      [.call 1 (.semTake 0 5), .call 2 (.semTake 0 (-1)), .timeout 1, .resume 1]).map (·.pc 1) =
        some (.returned .etimeout .none) := by decide +kernel
  obtain ⟨s, hrun, hend⟩ := map_eq_some_iff.mp hend
  have hqueued := queued_fresh [(1, 20), (2, 15), (9, 31)]
  have hflag : ∀ w, (fresh (started [(1, 20), (2, 15), (9, 31)])).flag w = .fifo := fun w => by
    cases w <;> rfl
  have hcalls : Calls 1 (fresh (started [(1, 20), (2, 15), (9, 31)])) :=
    ⟨hqueued, by decide +kernel, by decide +kernel, by decide +kernel⟩
  have hmeets : Meets step (Traceless 1) (fresh (started [(1, 20), (2, 15), (9, 31)]))
      [.call 1 (.semTake 0 5), .call 2 (.semTake 0 (-1)), .timeout 1, .resume 1] := by
    intro s₁ hs₁
    have hflag₁ : ∀ w, s₁.flag w = .fifo := flag_step hqueued hs₁ ▸ hflag
    have hqueued₁ := queued_step hqueued hs₁
    refine ⟨traceless_of_fifo hflag Event.noConfusion, fun s₂ hs₂ => ?_⟩
    have hflag₂ : ∀ w, s₂.flag w = .fifo := flag_step hqueued₁ hs₂ ▸ hflag₁
    have hqueued₂ := queued_step hqueued₁ hs₂
    refine ⟨traceless_of_fifo hflag₁ Event.noConfusion, fun s₃ hs₃ => ?_⟩
    refine ⟨traceless_of_fifo hflag₂ Event.noConfusion, fun s₄ hs₄ => ⟨?_, trivial⟩⟩
    refine traceless_of_fifo (flag_step hqueued₂ hs₃ ▸ hflag₂) fun _ herror => ?_
    have hnote := congrFun (expired_step hs₃).2.2.2 1
    rw [update_self] at hnote
    exact noConfusion (herror.symm.trans (congrArg Note.error hnote))
  have hes : ∀ c, Event.call 1 c ∉ [Event.call 2 (.semTake 0 (-1)), .timeout 1, .resume 1] :=
    fun c => by simp
  obtain ⟨⟨r, hr, hsame, -⟩, -⟩ := timeout_leaves_no_trace hcalls
    rfl (fun _ => Wait.noConfusion) hes hmeets hrun hend
  exact ⟨s, r, hrun, hend, hr, hsame⟩

/-- What happens while thread 1 waits for the semaphore, and that its time is over. -/
def reordering : List Event :=
  List.replicate 10 .tick ++
    [.call 2 (.mutexTake 0 (-1)), .call 2 (.semTake 0 (-1)), .timeout 4, .resume 4,
      .call 4 (.mutexTake 0 (-1)), .timeout 3, .resume 3, .call 3 (.semTake 0 (-1)),
      .timeout 1, .resume 1]

/-- The threads 1 and 2 have the priority 20, 3 and 4 have 10 and 5, and the semaphore's list is
by priority.  Behind thread 1 waits thread 2, which holds the mutex that thread 4 then wants, and
is raised to 5.  When thread 3 comes, it is put before thread 1 and so before thread 2; without
the call of thread 1 it is put behind thread 2. -/
theorem timeout_reorders :
    ∃ s s' r, Calls 1 s ∧
      run kernelStep
        ((fresh (started [(1, 20), (2, 20), (3, 10), (4, 5), (9, 31)])).rtSemInit 0 0 .prio)
        [.call 4 (.sleep 20), .call 3 (.sleep 30)] = some s ∧
      run kernelStep s (.call 1 (.semTake 0 100) :: reordering) = some s' ∧
      run kernelStep s (reordering.filter (!·.of 1)) = some r ∧
      s'.pc 1 = .returned .etimeout .none ∧ s'.sched.waiting (.sem 0) = [3, 2] ∧
      r.sched.waiting (.sem 0) = [2, 3] := by
  obtain ⟨s, hs, hcurrent, hready, htimer, hwith, hwithout⟩ := exists_of_any
    (fun s => s.sched.currentThread = some 1 ∧ (s.sched.thread 1).stat = .ready ∧
      (s.sched.thread 1).timerActive = false ∧
      (run kernelStep s (.call 1 (.semTake 0 100) :: reordering)).any (fun s =>
        s.pc 1 = .returned .etimeout .none ∧ s.sched.waiting (.sem 0) = [3, 2]) = true ∧
      (run kernelStep s (reordering.filter (!·.of 1))).any
        (·.sched.waiting (.sem 0) = [2, 3]) = true)
    (show (run kernelStep
      ((fresh (started [(1, 20), (2, 20), (3, 10), (4, 5), (9, 31)])).rtSemInit 0 0 .prio)
      [.call 4 (.sleep 20), .call 3 (.sleep 30)]).any _ = true by decide +kernel) fun _ _ h => h
  obtain ⟨s', hs', hpc, hlist⟩ := exists_of_any _ hwith fun _ _ h => h
  obtain ⟨r, hr, hlist'⟩ := exists_of_any _ hwithout fun _ _ h => h
  have hstep : ∀ s e s', s.sched.Queued → kernelStep s e = some s' → s'.sched.Queued :=
    fun _ _ _ h hs => queued_step h (step_of_kernelStep hs)
  have hqueued := run_invariant hstep hs
    ((queued_started [(1, 20), (2, 20), (3, 10), (4, 5), (9, 31)]).empty (.sem 0))
  refine ⟨s, s', r, ⟨hqueued, ?_, hready, htimer⟩, hs, hs', hr, hpc, hlist, hlist'⟩
  rw [hcurrent]
  exact some_ne_none 1

end Ipc

end Easyio.Kernel
