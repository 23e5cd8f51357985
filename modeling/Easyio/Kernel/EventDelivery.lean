import Easyio.Kernel.EventSteps

/-!
# What the receivers of events get

An observer notes the events that are sent, what each receiver asked for, and what it is
given: by `rt_event_recv` itself when the events are there, or by the `rt_event_send` that
resumes it.  A receive that returns with events returns what it was given, and this is part
of what it asked for and of what was sent.  Since a receiver with `RT_EVENT_FLAG_CLEAR` takes
its events from the event, no other is given one of them before it is sent again
(`event_delivery`).
-/

namespace Easyio.Kernel

open Function Ipc Nat Option Prod Runs.Partial Sched

/-- The events with which a thread has returned. -/
def Ipc.Pc.got : Pc → Option (BitVec 32)
  | .returned .eok (.set got) => some got
  | _ => none

/-- A receive that has returned with events. -/
structure Receipt where
  want : BitVec 32
  option : BitVec 8
  got : BitVec 32
  /-- what had been sent to the event -/
  sent : BitVec 32
  /-- what the receiver had been given -/
  given : BitVec 32

/-- The receive got events that it wanted, and that were sent and given to it. -/
structure Receipt.Good (r : Receipt) : Prop where
  nonempty : r.got ≠ 0#32
  wanted : r.got &&& r.want = r.got
  met : eventMet r.option r.want r.got = true
  sent : r.got &&& r.sent = r.got
  given : r.got = r.given

variable {got : BitVec 32}

theorem Receipt.Good.mono {want given sent sent' : BitVec 32} {option : BitVec 8}
    (h : Receipt.Good ⟨want, option, got, sent, given⟩) (hsub : sent &&& sent' = sent) :
    Receipt.Good ⟨want, option, got, sent', given⟩ :=
  ⟨h.nonempty, h.wanted, h.met, sub_trans h.sent hsub, h.given⟩

/-- The notes of the observer. -/
structure EventLog where
  /-- the events sent to each event object -/
  sent : ℕ → BitVec 32
  /-- the events and the option of the last receive of each thread -/
  asked : ℕ → BitVec 32 × BitVec 8
  /-- the events that each thread was given last -/
  given : ℕ → BitVec 32
  /-- for an event object and a bit, how many receivers with `RT_EVENT_FLAG_CLEAR` were given
  the bit since it was sent last -/
  cleared : ℕ → ℕ → ℕ
  receipts : List Receipt

namespace EventLog

def start : EventLog where
  sent _ := 0#32
  asked _ := (0#32, 0#8)
  given _ := 0#32
  cleared _ _ := 0
  receipts := []

/-- The threads that a send to the event `i` takes out of the list, with the events that they
find. -/
def resumed (s s' : Ipc) (i : ℕ) : List (ℕ × BitVec 32) :=
  ((s.sched.waiting (.event i)).filter (· ∉ s'.sched.waiting (.event i))).map
    fun u => (u, (s'.sched.thread u).eventSet)

variable (log : EventLog)

/-- The threads `gifts` are given events of the event `i`. -/
def give (i : ℕ) (gifts : List (ℕ × BitVec 32)) : EventLog :=
  { log with
    given := fun u => (gifts.lookup u).getD (log.given u)
    cleared := update log.cleared i fun b => log.cleared i b +
      gifts.countP fun (u, got) => isClear (log.asked u).2 && got.getLsbD b }

/-- A send of `set` to the event `i` -/
def send (i : ℕ) (set : BitVec 32) : EventLog :=
  { log with
    sent := update log.sent i (log.sent i ||| set)
    cleared := update log.cleared i fun b =>
      if set.getLsbD b then 0 else log.cleared i b }

/-- The thread `t` asks for events. -/
def ask (t : ℕ) (want : BitVec 32) (option : BitVec 8) : EventLog :=
  { log with asked := update log.asked t (want, option) }

/-- The receive of the thread `t` from the event `i` returns with the events `got`. -/
def receive (t i : ℕ) (got : BitVec 32) : EventLog :=
  { log with
    receipts := log.receipts ++
      [⟨(log.asked t).1, (log.asked t).2, got, log.sent i, log.given t⟩] }

/-- What the observer notes of a step.  A send without events is refused. -/
def note (s : Ipc) (e : Event) (s' : Ipc) : EventLog :=
  match e with
  | .call _ (.eventSend i set) =>
    if set = 0#32 then log else (log.send i set).give i (resumed s s' i)
  | .call t (.eventRecv i want option _) =>
    match (s'.pc t).got with
    | some got => ((log.ask t want option).give i [(t, got)]).receive t i got
    | none => log.ask t want option
  | .resume t =>
    match s.pc t with
    | .eventRecv i => (s'.pc t).got.elim log (log.receive t i)
    | _ => log
  | _ => log

end EventLog

/-! ## One send -/

theorem getLsbD_of_sub {a b : BitVec 32} {i : ℕ} (hsub : a &&& b = a) (h : a.getLsbD i = true) :
    b.getLsbD i = true := by
  rw [← hsub, BitVec.getLsbD_and, Bool.and_eq_true] at h
  exact h.2

theorem filter_mem_of_sublist {ts us : List ℕ} (hsub : us.Sublist ts) (hnodup : ts.Nodup) :
    ts.filter (· ∈ us) = us := by
  have hkept : us.filter (· ∈ us) = us := List.filter_eq_self.mpr fun u hu => decide_eq_true hu
  have hin := hsub.filter (· ∈ us)
  rw [hkept] at hin
  have hfilter : (ts.filter (· ∈ us)).Nodup := hnodup.filter _
  have hle := hfilter.length_le_of_subset fun u hu => of_decide_eq_true (List.mem_filter.mp hu).2
  exact (hin.eq_of_length_le hle).symm

variable {gifts : List (ℕ × BitVec 32)} {u : ℕ}

theorem lookup_of_mem (hnodup : (gifts.map fst).Nodup) (h : (u, got) ∈ gifts) :
    gifts.lookup u = some got := by
  obtain ⟨front, behind, rfl⟩ := List.append_of_mem h
  rw [List.map_append, List.nodup_append] at hnodup
  refine List.lookup_eq_some_iff.mpr ⟨front, behind, rfl, fun p hp => bne_iff_ne.mpr fun he => ?_⟩
  exact hnodup.2.2 _ (List.mem_map_of_mem hp) u List.mem_cons_self he.symm

theorem given_of_not_mem {given : BitVec 32} (h : u ∉ gifts.map fst) :
    (gifts.lookup u).getD given = given := by
  rw [List.lookup_eq_none_iff.mpr, getD_none]
  exact fun p hp => bne_iff_ne.mpr fun he => h (he ▸ List.mem_map_of_mem hp)

namespace Sched

theorem mem_served {note : ℕ → Note} {ts : List ℕ} {set : BitVec 32}
    (h : (u, got) ∈ served note ts set) :
    ∃ rest, rest &&& set = rest ∧ (note u).met rest = true ∧ got = (note u).taken rest := by
  induction ts generalizing set with
  | nil => cases h
  | cons t ts ih =>
    rw [served] at h
    split at h
    · rename_i hmet
      rcases List.mem_cons.mp h with heq | h
      · obtain ⟨rfl, rfl⟩ := Prod.mk.inj heq
        exact ⟨set, BitVec.and_self, hmet, rfl⟩
      · obtain ⟨rest, hsub, hrest⟩ := ih h
        exact ⟨rest, sub_trans hsub ((note t).leaves_sub set), hrest⟩
    · exact ih h

/-- A bit that is taken with `RT_EVENT_FLAG_CLEAR` is not there for the threads that follow. -/
theorem countP_served (note : ℕ → Note) (ts : List ℕ) (set : BitVec 32) (b : ℕ) :
    ((served note ts set).countP fun (u, got) => isClear (note u).eventInfo && got.getLsbD b) ≤ 1 ∧
      (set.getLsbD b = false ∨ (unclaimed note ts set).getLsbD b = true →
        ((served note ts set).countP fun (u, got) =>
          isClear (note u).eventInfo && got.getLsbD b) = 0) := by
  induction ts generalizing set with
  | nil => exact ⟨zero_le 1, fun _ => rfl⟩
  | cons t ts ih =>
    rw [served, unclaimed]
    split
    swap
    · exact ih set
    rename_i hmet
    obtain ⟨hle, hzero⟩ := ih ((note t).leaves set)
    rw [List.countP_cons]
    by_cases hclear : (isClear (note t).eventInfo && ((note t).taken set).getLsbD b) = true
    · obtain ⟨hflag, hbit⟩ := Bool.and_eq_true_iff.mp hclear
      have hgone : ((note t).leaves set).getLsbD b = false := by
        rw [Note.leaves, if_pos hflag, BitVec.getLsbD_and, BitVec.getLsbD_not, hbit]
        simp
      rw [hzero (.inl hgone), if_pos hclear]
      refine ⟨le_refl 1, fun hor => ?_⟩
      rcases hor with hset | hleft
      · exact absurd (getLsbD_of_sub (eventTaken_sub_set hmet) hbit) (by rw [hset]; decide)
      · exact absurd (getLsbD_of_sub (unclaimed_sub ..) hleft) (by rw [hgone]; decide)
    · rw [if_neg hclear]
      refine ⟨hle, fun hor => hzero (hor.imp_left fun hset => ?_)⟩
      refine Bool.eq_false_iff.mpr fun hbit => ?_
      exact absurd (getLsbD_of_sub ((note t).leaves_sub set) hbit) (by rw [hset]; decide)

end Sched

namespace Ipc

variable {s s' : Ipc} {log log' : EventLog} {t i : ℕ} {set want got : BitVec 32} {e : Event}
  {option : BitVec 8}

theorem nodup_servedBy (hqueued : s.sched.Queued) (i : ℕ) (set : BitVec 32) :
    ((s.servedBy i set).map fst).Nodup :=
  (hqueued.waitingNodup _).sublist (served_sublist ..)

theorem EventSent.resumed_eq (hqueued : s.sched.Queued) (hsent : EventSent s t i set s') :
    EventLog.resumed s s' i = s.servedBy i set := by
  have hfilter : (s.sched.waiting (.event i)).filter (· ∉ s'.sched.waiting (.event i)) =
      (s.servedBy i set).map fst := by
    refine .trans (List.filter_congr fun u hu => ?_)
      (filter_mem_of_sublist (served_sublist ..) (hqueued.waitingNodup _))
    have hiff := hsent.waiting u
    simp only [hu, true_and] at hiff
    rw [decide_eq_decide, hiff, not_not]
  rw [EventLog.resumed, hfilter, List.map_map]
  refine .trans (List.map_congr_left fun p hp => ?_) (List.map_id _)
  obtain ⟨u, got⟩ := p
  have hnote := congrArg Note.eventSet (hsent.served u got hp)
  exact Prod.ext rfl hnote

/-! ## The invariant -/

/-- Where a thread is that is inside of `rt_event_recv`. -/
inductive Pending (s : Ipc) (log : EventLog) (t i : ℕ) : Prop
  | waiting (hin : t ∈ s.sched.waiting (.event i)) (herror : (s.sched.note t).error = .eok)
      (hset : (s.sched.note t).eventSet = (log.asked t).1)
      (hinfo : (s.sched.note t).eventInfo = (log.asked t).2) (hwant : (log.asked t).1 ≠ 0#32)
  | given (hready : (s.sched.note t).stat = .ready)
      (hset : (s.sched.note t).eventSet = log.given t)
      (hgood : Receipt.Good
        ⟨(log.asked t).1, (log.asked t).2, log.given t, log.sent i, log.given t⟩)
  | expired (hready : (s.sched.note t).stat = .ready) (herror : (s.sched.note t).error ≠ .eok)

structure Delivers (s : Ipc) (log : EventLog) (i : ℕ) : Prop where
  waiting : ∀ t ∈ s.sched.waiting (.event i), s.pc t = .eventRecv i
  sent : (s.event i).set &&& log.sent i = (s.event i).set
  cleared : ∀ b, log.cleared i b ≤ 1 ∧ ((s.event i).set.getLsbD b = true → log.cleared i b = 0)
  pending : ∀ t, s.pc t = .eventRecv i → Pending s log t i

/-- A step that leaves the thread alone and what was noted about it. -/
theorem Pending.of_same (h : Pending s log t i) (hnote : s'.sched.note t = s.sched.note t)
    (hin : t ∈ s.sched.waiting (.event i) → t ∈ s'.sched.waiting (.event i))
    (hasked : log'.asked t = log.asked t) (hgiven : log'.given t = log.given t)
    (hsent : log.sent i &&& log'.sent i = log.sent i) : Pending s' log' t i := by
  cases h with
  | waiting hmem herror hset hinfo hwant =>
    rw [← hnote] at herror hset hinfo
    rw [← hasked] at hset hinfo hwant
    exact .waiting (hin hmem) herror hset hinfo hwant
  | given hready hset hgood =>
    rw [← hnote] at hready hset
    rw [← hgiven] at hset hgood
    rw [← hasked] at hgood
    exact .given hready hset (hgood.mono hsent)
  | expired hready herror =>
    rw [← hnote] at hready herror
    exact .expired hready herror

theorem Pending.of_ready (hqueued : s.sched.Queued) (h : Pending s log t i)
    (ht : (s.sched.thread t).stat = .ready) (herror : (s.sched.note t).error = .eok) :
    (s.sched.note t).eventSet = log.given t ∧
      Receipt.Good ⟨(log.asked t).1, (log.asked t).2, log.given t, log.sent i, log.given t⟩ := by
  cases h with
  | waiting hin => exact absurd hin (hqueued.not_waiting ht _)
  | given _ hset hgood => exact ⟨hset, hgood⟩
  | expired _ hne => exact absurd herror hne

namespace Delivers

section

variable (hqueued : s.sched.Queued) (h : Delivers s log i)
include hqueued h

theorem timeout (hs : s.step (.timeout t) = some s') : Delivers s' log i := by
  obtain ⟨hself, hs', hwaiting, hnote⟩ := expired_step hs
  have hpc : s'.pc = s.pc := by rw [hs']
  have hevent : s'.event = s.event := by rw [hs']
  have hmem : ∀ u, u ∈ s'.sched.waiting (.event i) ↔ u ≠ t ∧ u ∈ s.sched.waiting (.event i) := by
    intro u
    rw [hwaiting]
    exact (hqueued.waitingNodup _).mem_erase_iff
  refine ⟨fun u hu => ?_, hevent ▸ h.sent, hevent ▸ h.cleared, fun u hu => ?_⟩
  · rw [hpc]
    exact h.waiting u ((hmem u).mp hu).2
  rw [hpc] at hu
  by_cases hut : u = t
  · subst hut
    have hexpired : s'.sched.note u = (s.sched.note u).expired := by
      rw [hnote, update_self]
    refine .expired (by rw [hexpired]; rfl) ?_
    rw [hexpired]
    exact Err.noConfusion
  · refine (h.pending u hu).of_same ?_ (fun hin => (hmem u).mpr ⟨hut, hin⟩) rfl rfl
      BitVec.and_self
    rw [hnote, update_of_ne hut]

theorem of_other (he : ∀ t, e ≠ .timeout t)
    (hs : s.step e = some s') (hobj : s.obj e ≠ some (.event i)) (hsent : log'.sent i = log.sent i)
    (hcleared : log'.cleared i = log.cleared i)
    (hasked : ∀ u, e.actor ≠ some u → log'.asked u = log.asked u)
    (hgiven : ∀ u, e.actor ≠ some u → s.pc u = .eventRecv i → log'.given u = log.given u) :
    Delivers s' log' i := by
  have hframed := framed_step hqueued he hs
  have hwaiting := hframed.waiting (.event i) hobj
  constructor
  case waiting =>
    intro u hu
    rw [hwaiting] at hu
    rw [(note_of_waiting (w := .event i) hqueued he hs hobj hu).2]
    exact h.waiting u hu
  case sent =>
    rw [hframed.event i hobj, hsent]
    exact h.sent
  case cleared =>
    rw [hframed.event i hobj, hcleared]
    exact h.cleared
  case pending =>
    intro u hu
    have hpc : s.pc u = .eventRecv i := by
      rw [← pc_of_inside hqueued he hs hobj (by rw [hu]; rfl), hu]
    have ha : e.actor ≠ some u := fun ha =>
      hobj (obj_of_actor hs ha (by rw [hpc]; rfl))
    have hpending := h.pending u hpc
    have hready (hready : (s.sched.note u).stat = .ready) : s'.sched.note u = s.sched.note u :=
      note_of_ready hqueued he hs ha hready
    have hnote : s'.sched.note u = s.sched.note u := by
      cases hpending with
      | waiting hin => exact (note_of_waiting (w := .event i) hqueued he hs hobj hin).1
      | given hstat | expired hstat => exact hready hstat
    refine hpending.of_same hnote (fun hin => ?_) (hasked u ha) (hgiven u ha hpc) ?_
    · rwa [hwaiting]
    · rw [hsent, BitVec.and_self]

theorem asked (hin : t ∈ s.sched.waiting (.event i)) :
    (s.sched.note t).eventSet = (log.asked t).1 ∧ (s.sched.note t).eventInfo = (log.asked t).2 ∧
      (log.asked t).1 ≠ 0#32 := by
  cases h.pending t (h.waiting t hin) with
  | waiting _ _ hset hinfo hwant => exact ⟨hset, hinfo, hwant⟩
  | given hready | expired hready =>
    exact absurd hin (hqueued.not_waiting hready _)

theorem countP_servedBy (set : BitVec 32) (b : ℕ) :
    ((s.servedBy i set).countP fun (u, got) => isClear (log.asked u).2 && got.getLsbD b) ≤ 1 ∧
      (((s.event i).set ||| set).getLsbD b = false ∨ (Sched.unclaimed s.sched.note
          (s.sched.waiting (.event i)) ((s.event i).set ||| set)).getLsbD b = true →
        ((s.servedBy i set).countP fun (u, got) =>
          isClear (log.asked u).2 && got.getLsbD b) = 0) := by
  -- the options of the threads are those with which they asked
  have hasked : ((s.servedBy i set).countP fun (u, got) =>
      isClear (log.asked u).2 && got.getLsbD b) = (s.servedBy i set).countP fun (u, got) =>
        isClear (s.sched.note u).eventInfo && got.getLsbD b := by
    refine List.countP_congr fun p hp => ?_
    have hin : p.1 ∈ s.sched.waiting (.event i) :=
      (served_sublist ..).subset (List.mem_map_of_mem hp)
    simp only [(h.asked hqueued hin).2.1]
  rw [hasked]
  exact countP_served ..

theorem good_of_served (hin : (u, got) ∈ s.servedBy i set) :
    Receipt.Good ⟨(log.asked u).1, (log.asked u).2, got, log.sent i ||| set, got⟩ := by
  have hwaiting : u ∈ s.sched.waiting (.event i) :=
    (served_sublist ..).subset (List.mem_map_of_mem hin)
  obtain ⟨hset, hinfo, hwant⟩ := h.asked hqueued hwaiting
  obtain ⟨rest, hrest, hmet, rfl⟩ := mem_served hin
  rw [Note.met, hset, hinfo] at hmet
  rw [Note.taken, hset, hinfo]
  have htaken := eventMet_eventTaken hmet
  refine ⟨ne_zero_of_eventMet hwant htaken, eventTaken_sub_want .., htaken, ?_, rfl⟩
  exact sub_trans (eventTaken_sub_set hmet) (sub_trans hrest (or_sub_or set h.sent))

theorem send (ht : (s.sched.thread t).stat = .ready) (hsent : EventSent s t i set s') :
    Delivers s' ((log.send i set).give i (EventLog.resumed s s' i)) i := by
  rw [hsent.resumed_eq hqueued]
  have hunclaimed := unclaimed_sub s.sched.note (s.sched.waiting (.event i))
    ((s.event i).set ||| set)
  have hnot : ∀ u ∈ s.sched.waiting (.event i), u ≠ t := hqueued.ne_of_waiting ht
  have hlog : ((log.send i set).give i (s.servedBy i set)).sent i = log.sent i ||| set :=
    update_self ..
  constructor
  case waiting =>
    intro u hu
    have hin := ((hsent.waiting u).mp hu).1
    rw [hsent.pc, update_of_ne (hnot u hin)]
    exact h.waiting u hin
  case sent =>
    rw [hsent.event, hlog]
    exact sub_trans hunclaimed (or_sub_or set h.sent)
  case cleared =>
    intro b
    have hcleared' : ((log.send i set).give i (s.servedBy i set)).cleared i b =
        (if set.getLsbD b then 0 else log.cleared i b) +
          (s.servedBy i set).countP fun (u, got) =>
            isClear (log.asked u).2 && got.getLsbD b := by
      simp only [EventLog.give, EventLog.send, update_self]
    obtain ⟨hle, hzero⟩ := h.countP_servedBy hqueued set b
    obtain ⟨hcleared, hfresh⟩ := h.cleared b
    rw [hcleared', hsent.event]
    -- a bit that is there now was not taken since it was sent
    by_cases hbit : ((s.event i).set ||| set).getLsbD b = true
    · have hbefore : (if set.getLsbD b then 0 else log.cleared i b) = 0 := by
        split
        · rfl
        · rename_i hset
          rw [BitVec.getLsbD_or, Bool.or_eq_true] at hbit
          exact hfresh (hbit.resolve_right hset)
      rw [hbefore, zero_add]
      exact ⟨hle, fun hleft => hzero (.inr hleft)⟩
    · have hnone := Bool.eq_false_iff.mpr hbit
      rw [hzero (.inl hnone)]
      refine ⟨?_, fun hleft => absurd (getLsbD_of_sub hunclaimed hleft) hbit⟩
      split
      · exact zero_le 1
      · exact hcleared
  case pending =>
    intro u hu
    have hut : u ≠ t := by
      rintro rfl
      rw [hsent.pc, update_self] at hu
      exact Pc.noConfusion hu
    rw [hsent.pc, update_of_ne hut] at hu
    by_cases hserved : u ∈ (s.servedBy i set).map fst
    · -- the thread is resumed and finds what it was given
      obtain ⟨⟨v, got⟩, hgot, rfl⟩ := List.mem_map.mp hserved
      have hnote := hsent.served v got hgot
      have hlookup := lookup_of_mem (nodup_servedBy hqueued i set) hgot
      have hgiven : ((log.send i set).give i (s.servedBy i set)).given v = got := by
        change ((s.servedBy i set).lookup v).getD _ = got
        rw [hlookup, getD_some]
      refine .given (by rw [hnote]; rfl) (by rw [hnote, hgiven]; rfl) ?_
      rw [hgiven, hlog]
      exact h.good_of_served hqueued hgot
    · refine (h.pending u hu).of_same (hsent.other u hserved)
        (fun hin => (hsent.waiting u).mpr ⟨hin, hserved⟩) rfl (given_of_not_mem hserved) ?_
      · rw [hlog]
        exact sub_or set BitVec.and_self

end

theorem cleared_take (h : Delivers s log i) (b : ℕ) :
    log.cleared i b +
        (if isClear option && ((s.event i).set &&& want).getLsbD b then 1 else 0) ≤ 1 ∧
      ((if isClear option then (s.event i).set &&& ~~~want else (s.event i).set).getLsbD b = true →
        log.cleared i b +
          (if isClear option && ((s.event i).set &&& want).getLsbD b then 1 else 0) = 0) := by
  obtain ⟨hle, hfresh⟩ := h.cleared b
  split
  · rename_i htaken
    obtain ⟨hclear, hbit⟩ := Bool.and_eq_true_iff.mp htaken
    rw [BitVec.getLsbD_and, Bool.and_eq_true] at hbit
    rw [hfresh hbit.1, if_pos hclear]
    refine ⟨le_refl 1, fun hleft => ?_⟩
    rw [BitVec.getLsbD_and, BitVec.getLsbD_not, hbit.2] at hleft
    simp at hleft
  · refine ⟨hle, fun hleft => hfresh ?_⟩
    split at hleft
    · exact getLsbD_of_sub (and_sub ..) hleft
    · exact hleft

/-- A step of a receiver changes its own note and takes events away. -/
theorem of_caller {pc : Pc} {n : Note} (h : Delivers s log i) (hpc : s'.pc = update s.pc t pc)
    (hnote : s'.sched.note = update s.sched.note t n)
    (hwaiting : ∀ u ≠ t, u ∈ s'.sched.waiting (.event i) ↔ u ∈ s.sched.waiting (.event i))
    (hself : t ∈ s'.sched.waiting (.event i) → pc = .eventRecv i)
    (hpending : pc = .eventRecv i → Pending s' log' t i)
    (hevent : (s'.event i).set &&& (s.event i).set = (s'.event i).set)
    (hlog : ∀ u ≠ t, log'.asked u = log.asked u ∧ log'.given u = log.given u)
    (hsent : log'.sent i = log.sent i) (hcleared : ∀ b, log'.cleared i b ≤ 1 ∧
      ((s'.event i).set.getLsbD b = true → log'.cleared i b = 0)) : Delivers s' log' i := by
  have hother : ∀ u ≠ t, s'.pc u = s.pc u := fun u hu => by rw [hpc, update_of_ne hu]
  have hcaller : s'.pc t = pc := by rw [hpc, update_self]
  refine ⟨fun u hu => ?_, hsent ▸ sub_trans hevent h.sent, hcleared, fun u hu => ?_⟩
  · by_cases hut : u = t
    · rw [hut, hcaller]
      exact hself (hut ▸ hu)
    · rw [hother u hut]
      exact h.waiting u ((hwaiting u hut).mp hu)
  · by_cases hut : u = t
    · rw [hut, hcaller] at hu
      exact hut ▸ hpending hu
    · rw [hother u hut] at hu
      refine (h.pending u hu).of_same ?_ (hwaiting u hut).mpr (hlog u hut).1 (hlog u hut).2 ?_
      · rw [hnote, update_of_ne hut]
      · rw [hsent, BitVec.and_self]

theorem ret (hqueued : s.sched.Queued) (h : Delivers s log i)
    (ht : (s.sched.thread t).stat = .ready) (err : Err) (out : Output) (receipts : List Receipt) :
    Delivers (s.ret t err out) { log with receipts } i :=
  h.of_caller rfl (update_eq_self ..).symm (fun _ _ => Iff.rfl)
    (fun hin => absurd hin (hqueued.not_waiting ht _))
    Pc.noConfusion BitVec.and_self (fun _ _ => ⟨rfl, rfl⟩) rfl h.cleared

end Delivers

theorem got_update {pc : Pc} (hpc : s'.pc = update s.pc t pc) : (s'.pc t).got = pc.got := by
  rw [hpc, update_self]

theorem ret_pc (s : Ipc) (t : ℕ) (err : Err) (out : Output) :
    (s.ret t err out).pc t = .returned err out :=
  update_self ..

theorem note_refused {timeout : ℤ} (hgot : (s'.pc t).got = none) :
    log.note s (.call t (.eventRecv i want option timeout)) s' = log.ask t want option := by
  simp only [EventLog.note, hgot]

theorem note_received {timeout : ℤ} (hgot : (s'.pc t).got = some got) :
    log.note s (.call t (.eventRecv i want option timeout)) s' =
      ((log.ask t want option).give i [(t, got)]).receive t i got := by
  simp only [EventLog.note, hgot]

theorem receipt_of_met (h : Delivers s log i) (hwant : want ≠ 0#32)
    (hmet : eventMet option want (s.event i).set = true) (hgot : got = (s.event i).set &&& want) :
    Receipt.Good ⟨want, option, got, log.sent i, got⟩ := by
  have hsub : got &&& want = got := by rw [hgot, BitVec.and_assoc, BitVec.and_self]
  have hmet' : eventMet option want got = true := by
    unfold eventMet at hmet ⊢
    rw [hsub, hgot]
    exact hmet
  refine ⟨ne_zero_of_eventMet hwant hmet', hsub, hmet', ?_, rfl⟩
  refine sub_trans ?_ h.sent
  rw [hgot]
  exact and_sub ..

theorem delivers_receive {timeout : ℤ}
    (hqueued : s.sched.Queued) (h : Delivers s log i) (ht : (s.sched.thread t).stat = .ready)
    (hreceived : EventReceived s t i want option s') :
    Delivers s' (log.note s (.call t (.eventRecv i want option timeout)) s') i ∧
      ∀ r ∈ (log.note s (.call t (.eventRecv i want option timeout)) s').receipts,
        r ∈ log.receipts ∨ r.Good := by
  have hout : t ∉ s.sched.waiting (.event i) :=
    hqueued.not_waiting ht _
  have hasked : ∀ u ≠ t, (log.ask t want option).asked u = log.asked u ∧
      (log.ask t want option).given u = log.given u := fun u hu =>
    ⟨update_of_ne hu .., rfl⟩
  cases hreceived with
  | rejected _ hs' =>
    have hpc : s'.pc = update s.pc t (.returned .error .none) := by rw [hs']; rfl
    have hsched : s'.sched = s.sched := by rw [hs']; rfl
    rw [note_refused (got_update hpc)]
    refine ⟨h.of_caller (n := s.sched.note t) hpc ?_ (fun _ _ => by rw [hsched]) ?_
      Pc.noConfusion ?_ hasked rfl ?_, fun r hr => .inl hr⟩
    · rw [hsched, update_eq_self]
    · exact fun hin => absurd (hsched ▸ hin) hout
    · rw [hs']
      exact BitVec.and_self
    · rw [hs']
      exact h.cleared
  | taken hwant hmet hevent hwaiting hnote hpc =>
    set got := (s.event i).set &&& want with hgot
    rw [note_received (got_update hpc)]
    have hask : (log.ask t want option).asked t = (want, option) := update_self ..
    have hgiven : ((log.ask t want option).give i [(t, got)]).given t = got := by
      change ([(t, got)].lookup t).getD _ = got
      rw [List.lookup_cons_self, getD_some]
    refine ⟨h.of_caller hpc hnote (fun _ _ => by rw [hwaiting]) ?_ Pc.noConfusion ?_
      (fun u hu => ⟨(hasked u hu).1, given_of_not_mem (by simpa using hu)⟩) rfl (fun b => ?_),
      fun r hr => ?_⟩
    · exact fun hin => absurd (hwaiting ▸ hin) hout
    · rw [hevent]
      split
      · exact and_sub ..
      · exact BitVec.and_self
    · have hcleared : (((log.ask t want option).give i [(t, got)]).receive t i got).cleared i b =
          log.cleared i b + if isClear option && got.getLsbD b then 1 else 0 := by
        simp only [EventLog.receive, EventLog.give, update_self, hask, List.countP_cons,
          List.countP_nil, zero_add]
        rfl
      rw [hcleared, hevent]
      exact h.cleared_take b
    · rcases List.mem_append.mp hr with hr | hr
      · exact .inl hr
      · rw [List.mem_singleton.mp hr]
        right
        change Receipt.Good ⟨((log.ask t want option).asked t).1,
          ((log.ask t want option).asked t).2, got, log.sent i, _⟩
        rw [hask, hgiven]
        exact receipt_of_met h hwant hmet hgot
  | refused hevent hwaiting hnote hpc =>
    rw [note_refused (got_update hpc)]
    refine ⟨h.of_caller hpc hnote (fun _ _ => by rw [hwaiting]) ?_
      Pc.noConfusion ?_ hasked rfl ?_, fun r hr => .inl hr⟩
    · exact fun hin => absurd (hwaiting ▸ hin) hout
    · rw [hevent]
      exact BitVec.and_self
    · rw [hevent]
      exact h.cleared
  | waited timed hwant hmet hevent hwaiting hnote hpc =>
    rw [note_refused (got_update hpc)]
    refine ⟨h.of_caller hpc hnote ?_ (fun _ => rfl) (fun _ => ?_) ?_ hasked rfl ?_,
      fun r hr => .inl hr⟩
    · exact fun u hu => (hwaiting u).trans (or_iff_right hu)
    · have hself : s'.sched.note t = _ := (congrFun hnote t).trans (update_self ..)
      have hask : (log.ask t want option).asked t = (want, option) := update_self ..
      refine .waiting ((hwaiting t).mpr (.inl rfl)) ?_ ?_ ?_ ?_
      · rw [hself]; rfl
      · rw [hself, hask]; rfl
      · rw [hself, hask]; rfl
      · rw [hask]
        exact hwant
    · rw [hevent]
      exact BitVec.and_self
    · rw [hevent]
      exact h.cleared

theorem delivers_resume (hqueued : s.sched.Queued) (h : Delivers s log i)
    (ht : (s.sched.thread t).stat = .ready) (hpc : s.pc t = .eventRecv i) :
    Delivers (s.eventRecvEnd t) (log.note s (.resume t) (s.eventRecvEnd t)) i ∧
      ∀ r ∈ (log.note s (.resume t) (s.eventRecvEnd t)).receipts, r ∈ log.receipts ∨ r.Good := by
  by_cases herror : (s.sched.note t).error = .eok
  · obtain ⟨hset, hgood⟩ := (h.pending t hpc).of_ready hqueued ht herror
    have hend : s.eventRecvEnd t = s.ret t .eok (.set (s.sched.note t).eventSet) :=
      if_neg (not_not.mpr herror)
    have hgot : ((s.eventRecvEnd t).pc t).got = some (s.sched.note t).eventSet := by
      rw [hend, ret_pc]
      rfl
    have hlog : log.note s (.resume t) (s.eventRecvEnd t) =
        log.receive t i (s.sched.note t).eventSet := by
      simp only [EventLog.note, hpc, hgot, Option.elim]
    rw [hlog, hend]
    refine ⟨h.ret hqueued ht .., fun r hr => ?_⟩
    rcases List.mem_append.mp hr with hr | hr
    · exact .inl hr
    · rw [List.mem_singleton.mp hr, hset]
      exact .inr hgood
  · have hend : s.eventRecvEnd t = s.waitEnd t := if_pos herror
    have hgot : ((s.eventRecvEnd t).pc t).got = none := by
      rw [hend, waitEnd, ret_pc]
      cases (s.sched.thread t).error <;> rfl
    have hlog : log.note s (.resume t) (s.eventRecvEnd t) = log := by
      simp only [EventLog.note, hpc, hgot, Option.elim]
    rw [hlog, hend]
    exact ⟨h.ret hqueued ht .., fun r hr => .inl hr⟩

/-! ## Runs -/

theorem note_of_obj (hobj : ∀ i, s.obj e ≠ some (.event i)) : log.note s e s' = log := by
  cases e with
  | call t c =>
    cases c with
    | eventSend i set | eventRecv i want option timeout => exact absurd rfl (hobj i)
    | _ => rfl
  | resume t =>
    cases hpc : s.pc t with
    | eventRecv i => exact absurd (show (s.pc t).obj = some (.event i) by rw [hpc]; rfl) (hobj i)
    | _ => simp only [EventLog.note, hpc]
  | timeout t => rfl
  | tick => rfl

structure Delivering (c : Ipc × EventLog) : Prop where
  queued : c.1.sched.Queued
  delivers : ∀ i, Delivers c.1 c.2 i
  receipts : ∀ r ∈ c.2.receipts, r.Good

/-- What a step on the event `i` has to keep. -/
theorem Delivering.of_event (h : Delivering (s, log)) (hs : s.step e = some s')
    (hobj : s.obj e = some (.event i)) (hself : Delivers s' log' i)
    (hreceipts : ∀ r ∈ log'.receipts, r ∈ log.receipts ∨ r.Good)
    (hlog : ∀ j ≠ i, log'.sent j = log.sent j ∧ log'.cleared j = log.cleared j)
    (hasked : ∀ u, e.actor ≠ some u → log'.asked u = log.asked u)
    (hgiven : ∀ u, e.actor ≠ some u → s.pc u ≠ .eventRecv i → log'.given u = log.given u) :
    Delivering (s', log') := by
  refine ⟨queued_step h.queued hs, fun j => ?_, fun r hr => (hreceipts r hr).elim (h.receipts r) id⟩
  by_cases hj : j = i
  · exact hj ▸ hself
  have he : ∀ t, e ≠ .timeout t := by
    rintro t rfl
    cases hobj
  have hne : s.obj e ≠ some (.event j) := fun heq =>
    hj (Obj.event.inj (some.inj (heq.symm.trans hobj)))
  refine (h.delivers j).of_other h.queued he hs hne (hlog j hj).1 (hlog j hj).2 hasked ?_
  exact fun u ha hpc => hgiven u ha fun heq => hj (Pc.eventRecv.inj (hpc.symm.trans heq))

theorem Delivering.send (h : Delivering (s, log))
    (hs : s.step (.call t (.eventSend i set)) = some s')
    (hobj : s.obj (.call t (.eventSend i set)) = some (.event i))
    (hsend : s.rtEventSend t i set = some s') :
    Delivering (s', log.note s (.call t (.eventSend i set)) s') := by
  have ht := ready_of_actor hs rfl
  by_cases hset : set = 0#32
  · -- the call is refused
    rw [rtEventSend, if_pos hset] at hsend
    obtain rfl := some.inj hsend
    rw [show log.note s (.call t (.eventSend i set)) _ = log from if_pos hset]
    exact h.of_event hs hobj ((h.delivers i).ret h.queued ht ..) (fun r hr => .inl hr)
      (fun _ _ => ⟨rfl, rfl⟩) (fun _ _ => rfl) fun _ _ _ => rfl
  · have hsent := eventSent h.queued hset hsend
    have hself := (h.delivers i).send h.queued ht hsent
    rw [show log.note s (.call t (.eventSend i set)) s' =
      (log.send i set).give i (EventLog.resumed s s' i) from if_neg hset]
    refine h.of_event hs hobj hself (fun r hr => .inl hr) (fun j hj => ?_) (fun _ _ => rfl) ?_
    · exact ⟨update_of_ne hj .., (update_of_ne hj ..).trans (update_of_ne hj ..)⟩
    · intro u _ hpc
      have hnot : u ∉ (s.servedBy i set).map fst := fun hin =>
        hpc ((h.delivers i).waiting u ((served_sublist ..).subset hin))
      exact given_of_not_mem (hsent.resumed_eq h.queued ▸ hnot)

theorem Delivering.step {c c' : Ipc × EventLog} (h : Delivering c)
    (hnoted : observing Ipc.step EventLog.note c e = some c') : Delivering c' := by
  obtain ⟨s, log⟩ := c
  obtain ⟨s', log'⟩ := c'
  obtain ⟨hs, rfl⟩ : s.step e = some s' ∧ log' = log.note s e s' := observing_eq hnoted
  have hqueued := queued_step h.queued hs
  by_cases hobj : ∀ i, s.obj e ≠ some (.event i)
  · rw [note_of_obj hobj]
    refine ⟨hqueued, fun i => ?_, h.receipts⟩
    by_cases htimeout : ∃ t, e = .timeout t
    · obtain ⟨t, rfl⟩ := htimeout
      exact (h.delivers i).timeout h.queued hs
    · exact (h.delivers i).of_other h.queued (fun t he => htimeout ⟨t, he⟩) hs (hobj i) rfl rfl
        (fun _ _ => rfl) fun _ _ _ => rfl
  obtain ⟨i, hobj⟩ := not_forall.mp hobj
  have hobj := not_not.mp hobj
  rcases step_event_cases hs hobj with ⟨t, set, rfl, hsend⟩ |
    ⟨t, want, option, timeout, rfl, ht, hrecv⟩ | ⟨t, rfl, ht, hpc, rfl⟩
  · exact h.send hs hobj hsend
  · obtain ⟨hself, hreceipts⟩ := @delivers_receive s s' log t i want option timeout h.queued
      (h.delivers i) ht (eventReceived h.queued ht hrecv)
    have hasked : ∀ u, some t ≠ some u → (log.ask t want option).asked u = log.asked u :=
      fun u hu => update_of_ne (fun he => hu (congrArg some he.symm)) ..
    cases hgot : (s'.pc t).got with
    | none =>
      rw [note_refused hgot] at hself hreceipts ⊢
      exact h.of_event hs hobj hself hreceipts (fun _ _ => ⟨rfl, rfl⟩) hasked fun _ _ _ => rfl
    | some got =>
      rw [note_received hgot] at hself hreceipts ⊢
      refine h.of_event hs hobj hself hreceipts (fun j hj => ⟨rfl, update_of_ne hj ..⟩)
        hasked fun u hu _ => ?_
      exact given_of_not_mem fun hin => hu (congrArg some (List.mem_singleton.mp hin).symm)
  · obtain ⟨hself, hreceipts⟩ := delivers_resume h.queued (h.delivers i) ht hpc
    have hlog : log.note s (.resume t) (s.eventRecvEnd t) =
        ((s.eventRecvEnd t).pc t).got.elim log (log.receive t i) := by
      simp only [EventLog.note, hpc]
    rw [hlog] at hself hreceipts ⊢
    cases hgot : ((s.eventRecvEnd t).pc t).got <;> rw [hgot] at hself hreceipts <;>
      exact h.of_event hs hobj hself hreceipts (fun _ _ => ⟨rfl, rfl⟩) (fun _ _ => rfl)
        fun _ _ _ => rfl

/-- **Event delivery.**  Start with no events set and nobody receiving.  In every run of any
calls of any threads, with timeouts and clock interrupts in between, a receive that returns
with events got a non-empty part of what it asked for that meets its condition, all of it was
sent before, and it is what the receiver was given.  And at most one receiver with
`RT_EVENT_FLAG_CLEAR` is given a bit before it is sent again. -/
theorem event_delivery (h : s.sched.Queued) (hset : ∀ i, (s.event i).set = 0#32)
    (hempty : ∀ i, s.sched.waiting (.event i) = []) (hpc : ∀ t i, s.pc t ≠ .eventRecv i)
    (events : List Event)
    (hrun : run (observing step EventLog.note) (s, EventLog.start) events = some (s', log)) :
    (∀ r ∈ log.receipts, r.Good) ∧ ∀ i b, log.cleared i b ≤ 1 := by
  have hstart : Delivering (s, EventLog.start) := by
    refine ⟨h, fun i => ⟨fun t ht => ?_, ?_, fun b => ⟨zero_le 1, fun _ => rfl⟩, ?_⟩, ?_⟩
    · exact absurd (hempty i ▸ ht) List.not_mem_nil
    · rw [hset]
      exact BitVec.zero_and
    · exact fun t ht => absurd ht (hpc t i)
    · exact fun r hr => absurd hr List.not_mem_nil
  have hend := run_invariant (fun _ _ _ h hs => Delivering.step h hs) hrun hstart
  exact ⟨hend.receipts, fun i b => ((hend.delivers i).cleared b).1⟩

/-- Thread 1 waits for the events 0 and 1 and is given both, thread 2 waits for one of them and
is given what the next send brings. -/
theorem event_delivery_two :
    ∃ s' log, run (observing step EventLog.note)
        (fresh (started [(1, 20), (2, 15), (3, 10)]), EventLog.start)
        [.call 1 (.eventRecv 0 3#32 5#8 (-1)), .call 2 (.eventRecv 0 3#32 6#8 (-1)),
          .call 3 (.eventSend 0 3#32), .resume 1, .call 3 (.eventSend 0 2#32), .resume 2] =
          some (s', log) ∧
      log.receipts.map Receipt.got = [3#32, 2#32] ∧
      (∀ r ∈ log.receipts, r.Good) ∧ ∀ i b, log.cleared i b ≤ 1 :=
  exists_pair_of_any (fun _ log => log.receipts.map Receipt.got = [3#32, 2#32]) (by decide +kernel)
    fun _ _ hs hgot => ⟨hgot, event_delivery (queued_started [(1, 20), (2, 15), (3, 10)])
      (fun _ => rfl) (fun _ => rfl) (fun _ _ => Pc.noConfusion) _ hs⟩

end Ipc

end Easyio.Kernel
