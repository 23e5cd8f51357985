import Easyio.Kernel.Frames

/-!
# Events

`rt_event_send` goes through the threads that wait for the event.  A thread whose condition
is met gets its events and is resumed, and with `RT_EVENT_FLAG_CLEAR` it takes them from the
event, so that the threads after it find fewer.  What the loop does is `Sched.served` and
`Sched.unclaimed`; here are the outcomes of the calls (`EventSent`, `EventReceived`) and the
rule that no thread waits although its condition is met (`no_missed_event`).
-/

namespace Easyio.Kernel

open Function Ipc List Option Runs.Partial Sched

/-! ## Sets of events -/

section Sets

variable {option : BitVec 8} {want set set' a b : BitVec 32}

theorem and_sub (set set' : BitVec 32) : set &&& set' &&& set = set &&& set' := by
  rw [BitVec.and_comm (set &&& set') set, ← BitVec.and_assoc, BitVec.and_self]

theorem sub_trans {c : BitVec 32} (hab : a &&& b = a) (hbc : b &&& c = b) : a &&& c = a := by
  rw [← hab, BitVec.and_assoc, hbc]

theorem sub_or (c : BitVec 32) (hab : a &&& b = a) : a &&& (b ||| c) = a := by
  rw [BitVec.and_or_distrib_left, hab]
  refine BitVec.eq_of_getLsbD_eq fun i _ => ?_
  rw [BitVec.getLsbD_or, BitVec.getLsbD_and]
  cases a.getLsbD i <;> rfl

theorem or_sub_or (c : BitVec 32) (hab : a &&& b = a) : (a ||| c) &&& (b ||| c) = a ||| c := by
  rw [BitVec.and_or_distrib_right, sub_or c hab, BitVec.or_comm b c, sub_or b BitVec.and_self]

theorem eventMet_mono (hsub : set' &&& set = set') (h : eventMet option want set' = true) :
    eventMet option want set = true := by
  unfold eventMet at h ⊢
  split at h
  · rename_i hand
    rw [if_pos hand]
    have hwant : set' &&& want = want := of_decide_eq_true h
    refine decide_eq_true ?_
    rw [← hwant, ← BitVec.and_assoc, BitVec.and_comm set set', hsub]
  · rename_i hand
    rw [if_neg hand]
    obtain ⟨hor, hne⟩ := Bool.and_eq_true_iff.mp h
    refine Bool.and_eq_true_iff.mpr ⟨hor, decide_eq_true fun hzero => of_decide_eq_true hne ?_⟩
    rw [← hsub, BitVec.and_assoc, hzero, BitVec.and_zero]

theorem eventTaken_sub_want (option : BitVec 8) (want set : BitVec 32) :
    eventTaken option want set &&& want = eventTaken option want set := by
  unfold eventTaken
  split
  · exact BitVec.and_self
  · exact and_sub want set

theorem eventTaken_sub_set (h : eventMet option want set = true) :
    eventTaken option want set &&& set = eventTaken option want set := by
  unfold eventMet at h
  unfold eventTaken
  split
  · rename_i hand
    rw [if_pos hand] at h
    rw [BitVec.and_comm]
    exact of_decide_eq_true h
  · rw [BitVec.and_assoc, BitVec.and_self]

theorem eventMet_eventTaken (h : eventMet option want set = true) :
    eventMet option want (eventTaken option want set) = true := by
  unfold eventMet at h ⊢
  unfold eventTaken
  split
  · exact decide_eq_true BitVec.and_self
  · rename_i hand
    rw [if_neg hand, BitVec.and_comm want set, BitVec.and_assoc, BitVec.and_self] at *
    exact h

theorem ne_zero_of_eventMet (hwant : want ≠ 0#32) {got : BitVec 32}
    (h : eventMet option want got = true) : got ≠ 0#32 := by
  rintro rfl
  unfold eventMet at h
  split at h
  · exact hwant ((of_decide_eq_true h).symm.trans BitVec.zero_and)
  · obtain ⟨-, hne⟩ := Bool.and_eq_true_iff.mp h
    exact of_decide_eq_true hne BitVec.zero_and

theorem Note.leaves_sub (n : Note) (set : BitVec 32) : n.leaves set &&& set = n.leaves set := by
  unfold leaves
  split
  · exact and_sub ..
  · exact BitVec.and_self

end Sets

namespace Sched

variable {note : ℕ → Note} {ts : List ℕ} {set : BitVec 32} {t : ℕ}

theorem unclaimed_sub (note : ℕ → Note) (ts : List ℕ) (set : BitVec 32) :
    unclaimed note ts set &&& set = unclaimed note ts set := by
  induction ts generalizing set with
  | nil => exact BitVec.and_self
  | cons t ts ih =>
    rw [unclaimed]
    split
    · exact sub_trans (ih _) ((note t).leaves_sub set)
    · exact ih set

/-- A thread that the loop passes over is not satisfied by what is left. -/
theorem not_met_unclaimed (ht : t ∈ ts) (hout : t ∉ (served note ts set).map Prod.fst) :
    ¬ (note t).met (unclaimed note ts set) = true := by
  induction ts generalizing set with
  | nil => cases ht
  | cons u ts ih =>
    rw [served] at hout
    rw [unclaimed]
    split at hout
    · rename_i hmet
      rw [if_pos hmet]
      rw [map_cons, mem_cons, not_or] at hout
      exact ih ((mem_cons.mp ht).resolve_left hout.1) hout.2
    · rename_i hmet
      rw [if_neg hmet]
      rcases mem_cons.mp ht with rfl | ht
      · exact fun h => hmet (eventMet_mono (unclaimed_sub note ts set) h)
      · exact ih ht hout

end Sched

namespace Ipc

variable {s s' : Ipc} {t i : ℕ} {set want : BitVec 32} {option : BitVec 8} {timeout : ℤ} {e : Event}

/-! ## The calls -/

theorem setEvent_set (s : Ipc) (i : ℕ) (set : BitVec 32) :
    ((s.setEvent i set).event i).set = set := by
  have hevent : (s.setEvent i set).event i = { s.event i with set } := update_self ..
  rw [hevent]

/-- The threads that a send to the event `i` resumes, with the events that they get. -/
def servedBy (s : Ipc) (i : ℕ) (set : BitVec 32) : List (ℕ × BitVec 32) :=
  served s.sched.note (s.sched.waiting (.event i)) ((s.event i).set ||| set)

/-- What `rt_event_send` does. -/
structure EventSent (s : Ipc) (t i : ℕ) (set : BitVec 32) (s' : Ipc) : Prop where
  event : (s'.event i).set =
    unclaimed s.sched.note (s.sched.waiting (.event i)) ((s.event i).set ||| set)
  waiting : ∀ u, u ∈ s'.sched.waiting (.event i) ↔
    u ∈ s.sched.waiting (.event i) ∧ u ∉ (s.servedBy i set).map Prod.fst
  served : ∀ u got, (u, got) ∈ s.servedBy i set →
    s'.sched.note u = { s.sched.note u with eventSet := got }.resumed
  other : ∀ u, u ∉ (s.servedBy i set).map Prod.fst → s'.sched.note u = s.sched.note u
  pc : s'.pc = update s.pc t (.returned .eok .none)

theorem eventSent (h : s.sched.Queued) (hset : set ≠ 0#32) (hs : s.rtEventSend t i set = some s') :
    EventSent s t i set s' := by
  rw [rtEventSend, if_neg hset] at hs
  obtain ⟨r, hr, rfl⟩ := map_eq_some_iff.mp hs
  obtain ⟨-, hunclaimed, hview, hserved, hother, -⟩ :=
    sent_waiting h (.event i) ((s.event i).set ||| set) false
  obtain ⟨-, hr'⟩ := under_eq hr
  have hend := sendEnd_sched hr
  constructor
  case event =>
    rw [← hunclaimed, hr']
    exact setEvent_set s i _
  case waiting =>
    intro u
    have hwaiting : r.sched.waiting = _ := congrArg View.waiting (hend.1.trans hview)
    change u ∈ r.sched.waiting (.event i) ↔ _
    rw [hwaiting]
    exact View.mem_foldl_resume (h.waitingNodup _)
  case served => exact fun u got hin => (congrFun hend.2 u).trans (hserved u got hin)
  case other => exact fun u hu => (congrFun hend.2 u).trans (hother u hu)
  case pc =>
    rw [hr']
    rfl

/-- The outcomes of the first step of `rt_event_recv`. -/
inductive EventReceived (s : Ipc) (t i : ℕ) (want : BitVec 32) (option : BitVec 8) (s' : Ipc) :
    Prop
  /-- no events are wanted -/
  | rejected (hwant : want = 0#32) (hs' : s' = s.ret t .error .none)
  /-- the events are there -/
  | taken (hwant : want ≠ 0#32) (hmet : eventMet option want (s.event i).set = true)
      (hevent : (s'.event i).set =
        if isClear option then (s.event i).set &&& ~~~want else (s.event i).set)
      (hwaiting : s'.sched.waiting = s.sched.waiting)
      (hnote : s'.sched.note =
        update s.sched.note t { s.sched.note t with error := .eok })
      (hpc : s'.pc = update s.pc t (.returned .eok (.set ((s.event i).set &&& want))))
  /-- the caller does not want to wait -/
  | refused (hevent : s'.event = s.event) (hwaiting : s'.sched.waiting = s.sched.waiting)
      (hnote : s'.sched.note =
        update s.sched.note t { s.sched.note t with error := .etimeout })
      (hpc : s'.pc = update s.pc t (.returned .etimeout .none))
  /-- the caller waits -/
  | waited (timed : Bool) (hwant : want ≠ 0#32)
      (hmet : ¬ eventMet option want (s.event i).set = true) (hevent : s'.event = s.event)
      (hwaiting : ∀ u, u ∈ s'.sched.waiting (.event i) ↔ u = t ∨ u ∈ s.sched.waiting (.event i))
      (hnote : s'.sched.note = update s.sched.note t ({ s.sched.note t with
        error := .eok, eventSet := want, eventInfo := option }.suspended timed))
      (hpc : s'.pc = update s.pc t (.eventRecv i))

theorem eventReceived (h : s.sched.Queued) (ht : (s.sched.thread t).stat = .ready)
    (hs : s.rtEventRecv t i want option timeout = some s') :
    EventReceived s t i want option s' := by
  unfold rtEventRecv at hs
  split at hs
  · rename_i hwant
    exact .rejected hwant (some.inj hs).symm
  rename_i hwant
  have hok := note_setError s.sched t .eok
  obtain ⟨-, hs⟩ := ite_none_left_eq_some.mp hs
  split at hs
  · rename_i hmet
    rw [← some.inj hs]
    exact .taken hwant hmet (setEvent_set (s.setError t .eok) i _) rfl hok rfl
  rename_i hmet
  split at hs
  · rw [← some.inj hs]
    refine .refused rfl rfl ?_ rfl
    refine (note_setError ..).trans ?_
    rw [show (s.setError t .eok).sched.note = _ from hok, update_self, update_idem]
  · have hquiet : Quiet s ((s.setError t .eok).wantEvents t want option) :=
      (Quiet.setError h t .eok).trans (.wantEvents (Quiet.setError h t .eok).queued t want option)
    have hready := hquiet.toStill.ready ht
    obtain ⟨hsched, hs'⟩ := under_eq hs
    obtain ⟨-, hview, hnote, -⟩ := effect_block hquiet.queued hready hsched
    refine .waited (decide (0 < timeout)) hwant hmet (by rw [hs']; rfl) (fun u => ?_) ?_
      (by rw [hs']; rfl)
    · have hwaiting := congrFun (congrArg View.waiting hview) (.event i)
      rw [show s'.sched.waiting (.event i) = _ from hwaiting, View.mem_suspend]
      rfl
    · have hwants : ((s.setError t .eok).wantEvents t want option).sched.note =
          update (s.setError t .eok).sched.note t
            { (s.setError t .eok).sched.note t with eventSet := want, eventInfo := option } :=
        note_update rfl rfl
      rw [hnote]
      rw [hwants, show (s.setError t .eok).sched.note = _ from hok]
      rw [update_self, update_self, update_idem, update_idem]

theorem step_event_cases (hs : s.step e = some s') (hobj : s.obj e = some (.event i)) :
    (∃ t set, e = .call t (.eventSend i set) ∧ s.rtEventSend t i set = some s') ∨
      (∃ t want option timeout, e = .call t (.eventRecv i want option timeout) ∧
        (s.sched.thread t).stat = .ready ∧ s.rtEventRecv t i want option timeout = some s') ∨
      ∃ t, e = .resume t ∧ (s.sched.thread t).stat = .ready ∧ s.pc t = .eventRecv i ∧
        s' = s.eventRecvEnd t := by
  cases e with
  | call t c =>
    have ht := ready_of_actor hs rfl
    have hs := perform_of_step hs
    cases c <;> cases hobj
    · exact .inl ⟨t, _, rfl, hs⟩
    · exact .inr (.inl ⟨t, _, _, _, rfl, ht, hs⟩)
  | resume t =>
    have ht := ready_of_actor hs rfl
    simp only [step] at hs
    rw [if_pos ht] at hs
    change (s.pc t).obj = _ at hobj
    cases hpc : s.pc t <;> rw [hpc] at hobj hs <;> cases hobj
    exact .inr (.inr ⟨t, rfl, ht, hpc, (some.inj hs).symm⟩)
  | timeout t => cases hobj
  | tick => cases hobj

/-! ## No missed event -/

/-- No thread waits for an event although its condition is met. -/
def NoMissedEvent (s : Ipc) : Prop :=
  ∀ i, ∀ t ∈ s.sched.waiting (.event i),
    ¬ eventMet (s.sched.thread t).eventInfo (s.sched.thread t).eventSet (s.event i).set = true

/-- Steps that add nobody to the list of the event and no events to it. -/
theorem not_met_of_sub
    (h : ∀ u ∈ s.sched.waiting (.event i), ¬ (s.sched.note u).met (s.event i).set = true)
    (hwaiting : ∀ u ∈ s'.sched.waiting (.event i), u ∈ s.sched.waiting (.event i) ∧
      s'.sched.note u = s.sched.note u)
    (hevent : (s'.event i).set &&& (s.event i).set = (s'.event i).set) :
    ∀ u ∈ s'.sched.waiting (.event i), ¬ (s'.sched.note u).met (s'.event i).set = true := by
  intro u hu hmet
  obtain ⟨hin, hnote⟩ := hwaiting u hu
  rw [hnote] at hmet
  exact h u hin (eventMet_mono hevent hmet)

theorem EventReceived.not_met (hqueued : s.sched.Queued) (ht : (s.sched.thread t).stat = .ready)
    (h : ∀ u ∈ s.sched.waiting (.event i), ¬ (s.sched.note u).met (s.event i).set = true)
    (hreceived : EventReceived s t i want option s') :
    ∀ u ∈ s'.sched.waiting (.event i), ¬ (s'.sched.note u).met (s'.event i).set = true := by
  have hout : t ∉ s.sched.waiting (.event i) :=
    hqueued.not_waiting ht _
  -- the note of the caller changes, which is not in the list
  have hsame {n : Note} (hnote : s'.sched.note = update s.sched.note t n) {u : ℕ}
      (hu : u ∈ s.sched.waiting (.event i)) : s'.sched.note u = s.sched.note u := by
    have hut : u ≠ t := fun he => hout (he ▸ hu)
    rw [hnote, update_of_ne hut]
  cases hreceived with
  | rejected _ hs' =>
    rw [hs']
    exact h
  | taken _ _ hevent hwaiting hnote _ =>
    refine not_met_of_sub h (fun u hu => ?_) ?_
    · rw [hwaiting] at hu
      exact ⟨hu, hsame hnote hu⟩
    · rw [hevent]
      split
      · exact and_sub ..
      · exact BitVec.and_self
  | refused hevent hwaiting hnote _ =>
    refine not_met_of_sub h (fun u hu => ?_) (by rw [hevent]; exact BitVec.and_self)
    rw [hwaiting] at hu
    exact ⟨hu, hsame hnote hu⟩
  | waited timed _ hmet hevent hwaiting hnote _ =>
    intro u hu
    rw [hevent]
    rcases (hwaiting u).mp hu with rfl | hu
    · rw [hnote, update_self]
      exact hmet
    · rw [hsame hnote hu]
      exact h u hu

theorem EventSent.not_met (hsent : EventSent s t i set s') :
    ∀ u ∈ s'.sched.waiting (.event i), ¬ (s'.sched.note u).met (s'.event i).set = true := by
  intro u hu
  obtain ⟨hin, hout⟩ := (hsent.waiting u).mp hu
  rw [hsent.other u hout, hsent.event]
  exact not_met_unclaimed hin hout

theorem noMissedEvent_step (hqueued : s.sched.Queued) (h : NoMissedEvent s)
    (hs : s.step e = some s') : NoMissedEvent s' := by
  intro i
  by_cases htimeout : ∃ t, e = .timeout t
  · obtain ⟨t, rfl⟩ := htimeout
    obtain ⟨-, hs', hwaiting, hnote⟩ := expired_step hs
    refine not_met_of_sub (h i) (fun u hu => ?_) (by rw [hs']; exact BitVec.and_self)
    rw [hwaiting] at hu
    have hut : u ≠ t := ((hqueued.waitingNodup _).mem_erase_iff.mp hu).1
    exact ⟨mem_of_mem_erase hu, by rw [hnote, update_of_ne hut]⟩
  have hframed := framed_step hqueued (fun t he => htimeout ⟨t, he⟩) hs
  by_cases hobj : s.obj e = some (.event i)
  swap
  · refine not_met_of_sub (h i) (fun u hu => ?_)
      (by rw [hframed.event i hobj]; exact BitVec.and_self)
    rw [hframed.waiting (.event i) hobj] at hu
    have hsame := note_of_waiting (w := .event i) hqueued (fun t he => htimeout ⟨t, he⟩) hs hobj hu
    exact ⟨hu, hsame.1⟩
  rcases step_event_cases hs hobj with ⟨t, set, rfl, hsend⟩ |
    ⟨t, want, option, timeout, rfl, ht, hrecv⟩ | ⟨t, rfl, -, -, rfl⟩
  · by_cases hset : set = 0#32
    · rw [rtEventSend, if_pos hset] at hsend
      exact some.inj hsend ▸ h i
    · exact (eventSent hqueued hset hsend).not_met
  · exact (eventReceived hqueued ht hrecv).not_met hqueued ht (h i)
  · unfold eventRecvEnd
    split
    all_goals exact h i

/-- **No missed event.**  Start with nobody waiting for an event.  In every state of every run
of any calls of any threads, with timeouts and clock interrupts in between, no thread that
waits for an event has its condition met by the events that are set. -/
theorem no_missed_event (h : s.sched.Queued) (hempty : ∀ i, s.sched.waiting (.event i) = [])
    (events : List Event) : Always step NoMissedEvent s events := by
  have hstep : ∀ s e s', s.sched.Queued ∧ NoMissedEvent s → True → step s e = some s' →
      s'.sched.Queued ∧ NoMissedEvent s' := fun s e s' h _ hs =>
    ⟨queued_step h.1 hs, noMissedEvent_step h.1 h.2 hs⟩
  have hnone : NoMissedEvent s := fun i t ht => absurd (hempty i ▸ ht) not_mem_nil
  have hmeets : Meets step (fun _ _ => True) s events := meets_of_forall fun _ _ _ => trivial
  exact (hmeets.always hstep ⟨h, hnone⟩).imp fun _ => And.right

/-- Two threads wait for the events 0 and 1 with `RT_EVENT_FLAG_CLEAR`; the second finds one of
them gone. -/
theorem no_missed_event_two :
    Always step NoMissedEvent (fresh (started [(1, 20), (2, 15), (3, 10)]))
      [.call 1 (.eventRecv 0 1#32 6#8 (-1)), .call 2 (.eventRecv 0 3#32 5#8 (-1)),
        .call 3 (.eventSend 0 3#32)] :=
  no_missed_event (queued_started [(1, 20), (2, 15), (3, 10)]) (fun _ => rfl) _

end Ipc

end Easyio.Kernel
