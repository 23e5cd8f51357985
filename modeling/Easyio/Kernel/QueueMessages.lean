import Easyio.Kernel.QueueNodes

/-!
# The messages of a message queue

An observer numbers the messages in the order in which they are linked, and keeps the queue as
it should be: a message of `rt_mq_send` enters at its end, one of `rt_mq_urgent` in front, and
a receiver takes the first.  Then the node of every message begins with the bytes that were
sent, and what a receiver gets begins with them as well, as far as it asks for them
(`message_delivery`).
-/

namespace Easyio.Kernel

open Function Ipc List Easyio.Lists MessageQueue Nat Prod Runs.Partial

/-- A message that was received: its number, how many bytes the receiver asked for, and what it
got. -/
@[ext]
structure Reception where
  message : ℕ
  size : ℕ
  bytes : List ℕ
  deriving DecidableEq

/-- What an observer of a message queue knows. -/
@[ext]
structure QueueLog where
  /-- what each thread is sending -/
  buffer : ℕ → List ℕ
  /-- the messages, by their numbers -/
  sent : List (List ℕ)
  /-- the numbers of the messages in the queue -/
  queue : List ℕ
  /-- what each thread is receiving, and how many bytes it asked for -/
  taken : ℕ → Option (ℕ × ℕ)
  received : List Reception

namespace QueueLog

def empty : QueueLog where
  buffer _ := []
  sent := []
  queue := []
  taken _ := none
  received := []

variable (log : QueueLog)

def hold (t : ℕ) (buffer : List ℕ) : QueueLog :=
  { log with buffer := update log.buffer t buffer }

def link (t : ℕ) (urgent : Bool) : QueueLog :=
  { log with
    sent := log.sent ++ [log.buffer t]
    queue := entered urgent log.sent.length log.queue }

def take (t size : ℕ) : QueueLog :=
  { log with
    queue := log.queue.tail
    taken := update log.taken t (log.queue.head?.map (·, size)) }

def receive (t : ℕ) (bytes : List ℕ) : QueueLog :=
  match log.taken t with
  | some (message, size) => { log with
      taken := update log.taken t none
      received := log.received ++ [{ message, size, bytes }] }
  | none => log

/-- A thread goes from one stage to another one. -/
def move (t : ℕ) : Stage → Stage → QueueLog
  | .outside, .fill _ buffer _ => log.hold t buffer
  | .link _ urgent, _ => log.link t urgent
  | .outside, .copy _ size => log.take t size
  | .free _ bytes, _ => log.receive t bytes
  | _, _ => log

/-- What an observer of the queue `i` notes of a step. -/
def note (i : ℕ) (log : QueueLog) (s : Ipc) (e : Event) (s' : Ipc) : QueueLog :=
  e.actor.elim log fun t => log.move t (s.stages i t) (s'.stages i t)

variable (mq : MessageQueue)

/-- The node `node` has the message of number `k` in it. -/
def Carries (node k : ℕ) : Prop :=
  ∃ b, log.sent[k]? = some b ∧ b.length ≤ mq.msgSize ∧ b <+: mq.data node

/-- `bytes` were copied out of a node with the message of number `k` in it. -/
def Copied (k size : ℕ) (bytes : List ℕ) : Prop :=
  ∃ b, log.sent[k]? = some b ∧ b.length ≤ mq.msgSize ∧
    ∃ d, b <+: d ∧ bytes = d.take (min size mq.msgSize)

/-- What the observer knows about a thread at a stage. -/
def InHand (t : ℕ) : Stage → Prop
  | .outside => log.taken t = none
  | .fill _ buffer _ => log.taken t = none ∧ log.buffer t = buffer ∧ buffer.length ≤ mq.msgSize
  | .link msg _ =>
    log.taken t = none ∧ (log.buffer t).length ≤ mq.msgSize ∧ log.buffer t <+: mq.data msg
  | .copy msg size => ∃ k, log.taken t = some (k, size) ∧ log.Carries mq msg k
  | .free _ bytes => ∃ k size, log.taken t = some (k, size) ∧ log.Copied mq k size bytes

end QueueLog

/-- The messages of a queue with the nodes `queued` in it. -/
structure Messages (mq : MessageQueue) (stages : ℕ → Stage) (log : QueueLog) (queued : List ℕ) :
    Prop where
  queue : Forall₂ (log.Carries mq) queued log.queue
  hand : ∀ t, log.InHand mq t (stages t)
  received : ∀ r ∈ log.received, log.Copied mq r.message r.size r.bytes
  /-- every message is in the queue, or was received, or somebody is receiving it -/
  custody : Custody (· < log.sent.length) (log.queue ++ log.received.map Reception.message)
    (Option.map fst ∘ log.taken)

namespace Messages

variable {n t msg size k : ℕ} {mq mq' : MessageQueue} {stages : ℕ → Stage} {log log' : QueueLog}
  {free queued buffer bytes : List ℕ} {urgent : Bool} {stage : Stage}

/-- What is true of the messages stays true when nothing that was sent is forgotten. -/
structure Grows (log log' : QueueLog) (mq mq' : MessageQueue) : Prop where
  sent : log.sent <+: log'.sent
  size : mq'.msgSize = mq.msgSize

section

variable (h : Grows log log' mq mq')
include h

theorem Grows.getElem? {b : List ℕ} (hb : log.sent[k]? = some b) : log'.sent[k]? = some b := by
  obtain ⟨rest, hrest⟩ := h.sent
  rw [← hrest, List.getElem?_append_left (List.getElem?_eq_some_iff.mp hb).1]
  exact hb

theorem Grows.carries {node : ℕ} (hdata : mq'.data node = mq.data node)
    (hcarries : log.Carries mq node k) : log'.Carries mq' node k := by
  obtain ⟨b, hb, hlength, hpre⟩ := hcarries
  exact ⟨b, h.getElem? hb, h.size ▸ hlength, hdata ▸ hpre⟩

theorem Grows.copied (hcopied : log.Copied mq k size bytes) : log'.Copied mq' k size bytes := by
  obtain ⟨b, hb, hlength, d, hpre, hbytes⟩ := hcopied
  exact ⟨b, h.getElem? hb, h.size ▸ hlength, d, hpre, h.size ▸ hbytes⟩

theorem Grows.inHand {u : ℕ} (hbuffer : log'.buffer u = log.buffer u)
    (htaken : log'.taken u = log.taken u)
    (hdata : ∀ m, stage.node = some m → mq'.data m = mq.data m) (hhand : log.InHand mq u stage) :
    log'.InHand mq' u stage := by
  cases stage with
  | outside => exact htaken.trans hhand
  | fill msg buffer urgent =>
    obtain ⟨hnone, hself, hlength⟩ := hhand
    exact ⟨htaken.trans hnone, hbuffer.trans hself, h.size ▸ hlength⟩
  | link msg urgent =>
    obtain ⟨hnone, hlength, hpre⟩ := hhand
    refine ⟨htaken.trans hnone, ?_, ?_⟩
    · rw [hbuffer, h.size]
      exact hlength
    · rw [hbuffer, hdata msg rfl]
      exact hpre
  | copy msg size =>
    obtain ⟨k, hk, hcarries⟩ := hhand
    exact ⟨k, htaken.trans hk, h.carries (hdata msg rfl) hcarries⟩
  | free msg bytes =>
    obtain ⟨k, size, hk, hcopied⟩ := hhand
    exact ⟨k, size, htaken.trans hk, h.copied hcopied⟩

/-- The other threads keep their buffers, what they have taken, and the bytes of their nodes. -/
theorem Grows.hand (hhand : ∀ u, log.InHand mq u (stages u)) (hself : log'.InHand mq' t stage)
    (hothers : ∀ u, u ≠ t → log'.buffer u = log.buffer u ∧ log'.taken u = log.taken u ∧
      ∀ m, (stages u).node = some m → mq'.data m = mq.data m) :
    ∀ u, log'.InHand mq' u (update stages t stage u) := by
  intro u
  by_cases hut : u = t
  · rw [hut, update_self]
    exact hself
  · obtain ⟨hbuffer, htaken, hdata⟩ := hothers u hut
    rw [update_of_ne hut]
    exact h.inHand hbuffer htaken hdata (hhand u)

theorem Grows.queue {numbers : List ℕ} (hqueue : Forall₂ (log.Carries mq) queued numbers)
    (hdata : ∀ m ∈ queued, mq'.data m = mq.data m) :
    Forall₂ (log'.Carries mq') queued numbers :=
  ((forall₂_and_left _ _).mpr ⟨hdata, hqueue⟩).imp fun _ _ hm => h.carries hm.1 hm.2

end

theorem inHand_at (h : Messages mq stages log queued) (ht : stages t = stage) :
    log.InHand mq t stage := ht ▸ h.hand t

theorem allocate (h : Messages mq stages log queued) (ht : stages t = .outside)
    (hfit : buffer.length ≤ mq.msgSize) (msg : ℕ) (urgent : Bool) :
    Messages { mq with free := mq.next msg } (update stages t (.fill msg buffer urgent))
      (log.hold t buffer) queued := by
  have hgrows : Grows log (log.hold t buffer) mq { mq with free := mq.next msg } :=
    ⟨prefix_refl _, rfl⟩
  refine ⟨hgrows.queue h.queue fun _ _ => rfl, hgrows.hand h.hand ?_ fun u hut => ?_,
    fun r hr => hgrows.copied (h.received r hr), h.custody⟩
  · exact ⟨h.inHand_at ht, update_self .., hfit⟩
  · exact ⟨update_of_ne hut .., rfl, fun _ _ => rfl⟩

theorem fill (hnodes : Nodes n mq stages free queued) (h : Messages mq stages log queued)
    (ht : stages t = .fill msg buffer urgent) :
    Messages (mq.fill msg buffer urgent) (update stages t (.link msg urgent)) log
      queued := by
  have hnode : (stages t).node = some msg := congrArg Stage.node ht
  have hgrows : Grows log log mq (mq.fill msg buffer urgent) := ⟨prefix_refl _, rfl⟩
  have hdata : ∀ m, m ≠ msg → (mq.fill msg buffer urgent).data m = mq.data m := fun m hm =>
    update_of_ne hm ..
  refine ⟨hgrows.queue h.queue fun m hm => hdata m fun he => ?_, hgrows.hand h.hand ?_
      fun u hut => ?_,
    fun r hr => hgrows.copied (h.received r hr), h.custody⟩
  · exact (hnodes.not_mem hnode).2 (he ▸ hm)
  · obtain ⟨hnone, hbuffer, hfit⟩ := h.inHand_at ht
    have hself : (mq.fill msg buffer urgent).data msg =
        buffer ++ (mq.data msg).drop buffer.length :=
      update_self ..
    refine ⟨hnone, hbuffer ▸ hfit, ?_⟩
    rw [hbuffer, hself]
    exact prefix_append ..
  · exact ⟨rfl, rfl, fun m hm => hdata m (hnodes.ne_of_ne hut hnode hm)⟩

theorem link (h : Messages mq stages log queued) (ht : stages t = .link msg urgent) :
    Messages (mq.link msg urgent) (update stages t .outside) (log.link t urgent)
      (entered urgent msg queued) := by
  have hgrows : Grows log (log.link t urgent) mq (mq.link msg urgent) :=
    ⟨prefix_append .., by cases urgent <;> rfl⟩
  have hdata : (mq.link msg urgent).data = mq.data := by cases urgent <;> rfl
  obtain ⟨hnone, hfit, hpre⟩ := h.inHand_at ht
  have hnew : (log.link t urgent).Carries (mq.link msg urgent) msg log.sent.length := by
    refine ⟨log.buffer t, ?_, hgrows.size ▸ hfit, hdata ▸ hpre⟩
    rw [show (log.link t urgent).sent = log.sent ++ [log.buffer t] from rfl,
      getElem?_append_right (Nat.le_refl _), Nat.sub_self]
    rfl
  refine ⟨?_, hgrows.hand h.hand hnone fun u _ => ⟨rfl, rfl, fun m _ => congrFun hdata m⟩,
    fun r hr => hgrows.copied (h.received r hr), ?_⟩
  · have hold := hgrows.queue h.queue fun m _ => congrFun hdata m
    cases urgent with
    | true => exact .cons hnew hold
    | false => exact rel_append hold (.cons hnew .nil)
  · have hadded : Custody (· < (log.link t urgent).sent.length)
        (log.sent.length :: (log.queue ++ log.received.map Reception.message))
        (Option.map fst ∘ log.taken) := by
      refine h.custody.add (lt_irrefl _) fun k => ?_
      rw [show (log.link t urgent).sent = log.sent ++ [log.buffer t] from rfl, length_append,
        length_singleton]
      omega
    exact hadded.perm ((perm_entered urgent log.sent.length log.queue).append_right _)

theorem take {rest : List ℕ} (h : Messages mq stages log (msg :: rest)) (ht : stages t = .outside)
    (size : ℕ) :
    Messages (mq.unlink msg) (update stages t (.copy msg size)) (log.take t size) rest := by
  have hgrows : Grows log (log.take t size) mq (mq.unlink msg) := ⟨prefix_refl _, rfl⟩
  obtain ⟨k, numbers, hk, hrest, hqueue⟩ := forall₂_cons_left_iff.mp h.queue
  have htail : (log.take t size).queue = numbers := congrArg List.tail hqueue
  have htaken : (log.take t size).taken = update log.taken t (some (k, size)) := by
    rw [QueueLog.take, hqueue]
    rfl
  refine ⟨htail ▸ hgrows.queue hrest fun _ _ => rfl, hgrows.hand h.hand ?_ fun u hut => ?_,
    fun r hr => hgrows.copied (h.received r hr), ?_⟩
  · refine ⟨k, ?_, hgrows.carries rfl hk⟩
    rw [htaken, update_self]
  · refine ⟨rfl, ?_, fun _ _ => rfl⟩
    rw [htaken, update_of_ne hut]
  · have hnone : (Option.map fst ∘ log.taken) t = none := congrArg _ (h.inHand_at ht)
    have hcustody := h.custody
    rw [hqueue] at hcustody
    rw [htaken, htail, comp_update]
    exact hcustody.acquire hnone

theorem copy (h : Messages mq stages log queued) (ht : stages t = .copy msg size) :
    Messages mq
      (update stages t (.free msg ((mq.data msg).take (min size mq.msgSize)))) log
      queued := by
  have hgrows : Grows log log mq mq := ⟨prefix_refl _, rfl⟩
  refine { h with hand := hgrows.hand h.hand ?_ fun u _ => ⟨rfl, rfl, fun _ _ => rfl⟩ }
  obtain ⟨k, hk, b, hb, hlength, hpre⟩ := h.inHand_at ht
  exact ⟨k, size, hk, b, hb, hlength, _, hpre, rfl⟩

theorem release (h : Messages mq stages log queued) (ht : stages t = .free msg bytes) :
    Messages (mq.addFree msg) (update stages t .outside) (log.receive t bytes)
      queued := by
  obtain ⟨k, size, hk, hcopied⟩ := h.inHand_at ht
  have hlog : log.receive t bytes = { log with
      taken := update log.taken t none
      received := log.received ++ [⟨k, size, bytes⟩] } := by
    rw [QueueLog.receive, hk]
  rw [hlog]
  have hgrows : Grows log { log with
      taken := update log.taken t none
      received := log.received ++ [⟨k, size, bytes⟩] } mq (mq.addFree msg) :=
    ⟨prefix_refl _, rfl⟩
  refine ⟨hgrows.queue h.queue fun _ _ => rfl, hgrows.hand h.hand (update_self ..)
    fun u hut => ⟨rfl, update_of_ne hut .., fun _ _ => rfl⟩, fun r hr => ?_, ?_⟩
  · rcases mem_append.mp hr with hr | hr
    · exact hgrows.copied (h.received r hr)
    · rw [mem_singleton.mp hr]
      exact hgrows.copied hcopied
  · have hheld : (Option.map fst ∘ log.taken) t = some k := congrArg (Option.map fst) hk
    rw [comp_update, map_append, ← append_assoc]
    exact (h.custody.release hheld).perm (perm_append_singleton k _).symm

end Messages

/-! ## Runs -/

/-- A queue with `n` nodes and its observer. -/
def Delivered (n : ℕ) (mq : MessageQueue) (stages : ℕ → Stage) (log : QueueLog) : Prop :=
  ∃ free queued, Nodes n mq stages free queued ∧ Messages mq stages log queued

variable {mq mq' : MessageQueue} {log : QueueLog}

theorem QueueStep.delivered {n t : ℕ} {stages : ℕ → Stage} {stage : Stage} (hsmall : n < 2 ^ 16)
    (h : Delivered n mq stages log) (hstep : QueueStep mq (stages t) mq' stage) :
    Delivered n mq' (update stages t stage) (log.move t (stages t) stage) := by
  obtain ⟨free, queued, hnodes, hmessages⟩ := h
  generalize ht : stages t = before at hstep
  cases hstep with
  | pass =>
    rw [← ht, update_eq_self]
    exact ⟨free, queued, hnodes, ht ▸ hmessages⟩
  | allocate msg buffer urgent hfree hfit =>
    obtain ⟨rest, hrest⟩ := hnodes.allocate ht hfree buffer urgent
    exact ⟨rest, queued, hrest, hmessages.allocate ht hfit msg urgent⟩
  | fill msg buffer urgent => exact ⟨free, queued, hnodes.fill ht, hmessages.fill hnodes ht⟩
  | link msg urgent => exact ⟨free, _, hnodes.link hsmall ht, hmessages.link ht⟩
  | take msg size hentry hhead =>
    obtain ⟨rest, rfl, hrest⟩ := hnodes.take ht hhead size
    exact ⟨free, rest, hrest, hmessages.take ht size⟩
  | copy msg size => exact ⟨free, queued, hnodes.copy ht _, hmessages.copy ht⟩
  | release msg bytes => exact ⟨_, queued, hnodes.release ht, hmessages.release ht⟩

theorem QueueStep.msgSize {before after : Stage} (h : QueueStep mq before mq' after) :
    mq'.msgSize = mq.msgSize := by
  cases h with
  | link msg urgent => cases urgent <;> rfl
  | _ => rfl

/-- A receiver gets what was sent, as far as both sizes reach. -/
theorem QueueLog.Copied.take_eq {k size : ℕ} {bytes : List ℕ} (h : log.Copied mq k size bytes) :
    ∃ b, log.sent[k]? = some b ∧ bytes.take b.length = b.take size := by
  obtain ⟨b, hb, hlength, d, hpre, rfl⟩ := h
  refine ⟨b, hb, ?_⟩
  calc (d.take (min size mq.msgSize)).take b.length
      = d.take (min size b.length) := by
        rw [take_take]
        congr 1
        omega
    _ = (d.take b.length).take size := take_take.symm
    _ = b.take size := by rw [← prefix_iff_eq_take.mp hpre]

theorem foldl_addFree (nodes : List ℕ) (mq : MessageQueue) :
    nodes.foldl addFree mq = { mq with
      next := (nodes.foldl addFree mq).next
      free := (nodes.foldl addFree mq).free } := by
  induction nodes generalizing mq with
  | nil => rfl
  | cons a rest ih =>
    exact ih (mq.addFree a)

theorem linked_foldl_addFree (hfree : mq.free = none) (n : ℕ) :
    Linked ((range n).foldl addFree mq).next
      ((range n).foldl addFree mq).free (range n).reverse := by
  induction n with
  | zero => exact hfree
  | succ n ih =>
    rw [range_succ, foldl_concat, reverse_concat]
    refine ih.push fun hin => ?_
    exact not_mem_range_self (mem_reverse.mp hin)

namespace Ipc

variable {s s' : Ipc} {i n : ℕ} {e : Event} {log : QueueLog}

theorem delivered_rtMqInit (hidle : ∀ t, (s.pc t).obj ≠ some (.queue i)) (msgPool : ℕ → ℕ)
    (msgSize poolSize : ℕ) (flag : Flag) :
    Delivered (mqMaxMsgs msgSize poolSize) ((s.rtMqInit i msgPool msgSize poolSize flag).queue i)
      ((s.rtMqInit i msgPool msgSize poolSize flag).stages i) .empty := by
  have houtside : (s.rtMqInit i msgPool msgSize poolSize flag).stages i = fun _ => .outside :=
    funext fun t => Pc.stage_eq_outside (hidle t)
  have hqueue : (s.rtMqInit i msgPool msgSize poolSize flag).queue i = _ := update_self ..
  rw [houtside, hqueue]
  refine ⟨(range (mqMaxMsgs msgSize poolSize)).reverse, [],
    ⟨linked_foldl_addFree rfl _, ?_, ?_, ?_, ?_, fun t msg ht => Stage.noConfusion ht⟩,
    ⟨.nil, fun t => rfl, fun r hr => absurd hr not_mem_nil, ?_⟩⟩
  · rw [foldl_addFree]
    rfl
  · rw [foldl_addFree]
    rfl
  · rw [foldl_addFree]
    rfl
  · refine .of_kept ?_ fun a => ?_
    · rw [append_nil]
      exact nodup_reverse.mpr nodup_range
    · rw [append_nil, mem_reverse, mem_range]
  · exact .of_kept nodup_nil fun a => iff_of_false (not_lt_zero a) not_mem_nil

/-- The invariant of the system and the observer of the queue `i`. -/
structure Observed (i n size : ℕ) (c : Ipc × QueueLog) : Prop where
  queued : c.1.sched.Queued
  msgSize : (c.1.queue i).msgSize = size
  delivered : Delivered n (c.1.queue i) (c.1.stages i) c.2

theorem Observed.step (hsmall : n < 2 ^ 16) {size : ℕ} {c c' : Ipc × QueueLog}
    (h : Observed i n size c) (hnoted : observing Ipc.step (QueueLog.note i) c e = some c') :
    Observed i n size c' := by
  obtain ⟨s, log⟩ := c
  obtain ⟨s', log'⟩ := c'
  obtain ⟨hs, rfl⟩ : s.step e = some s' ∧ log' = log.note i s e s' := observing_eq hnoted
  suffices hnext : (s'.queue i).msgSize = (s.queue i).msgSize ∧
      Delivered n (s'.queue i) (s'.stages i) (log.note i s e s') from
    ⟨queued_step h.queued hs, hnext.1.trans h.msgSize, hnext.2⟩
  rcases queueStep h.queued i hs with ⟨hqueue, hstages, houtside⟩ | ⟨t, stage, ha, hstep, hstages⟩
  · have hlog : log.note i s e s' = log := by
      cases ha : e.actor with
      | none => simp only [QueueLog.note, ha, Option.elim]
      | some t =>
        have ht := houtside t ha
        simp only [QueueLog.note, ha, Option.elim, hstages, ht, QueueLog.move]
    rw [hqueue, hstages, hlog]
    exact ⟨rfl, h.delivered⟩
  · have hlog : log.note i s e s' = log.move t (s.stages i t) stage := by
      simp only [QueueLog.note, ha, Option.elim, hstages, update_self]
    rw [hstages, hlog]
    exact ⟨hstep.msgSize, hstep.delivered hsmall h.delivered⟩

theorem observed_run (h : s.sched.Queued) (hidle : ∀ t, (s.pc t).obj ≠ some (.queue i))
    (msgPool : ℕ → ℕ) (msgSize poolSize : ℕ) (flag : Flag) {events : List Event}
    (hrun : run (observing step (QueueLog.note i))
      (s.rtMqInit i msgPool msgSize poolSize flag, .empty) events = some (s', log)) :
    Observed i (mqMaxMsgs msgSize poolSize) (mqMsgSize msgSize) (s', log) := by
  have hsmall : mqMaxMsgs msgSize poolSize < 2 ^ 16 := mod_lt _ (by decide)
  have hqueue : (s.rtMqInit i msgPool msgSize poolSize flag).queue i = _ := update_self ..
  refine run_invariant (fun _ _ _ h hs => h.step hsmall hs) hrun
    ⟨h.empty (.mq i), ?_, delivered_rtMqInit hidle msgPool msgSize poolSize flag⟩
  rw [hqueue, foldl_addFree]

/-- **Messages are delivered once, in order, and unchanged.**  After `rt_mq_init`, in every run
of any calls of any threads, where the steps of sending and receiving are interleaved with
everything else, each node is in the free list, in the queue, or with one running call, and
`entry` is the number of nodes in the queue.  The queue has the messages that were linked and
not taken, normal ones behind and urgent ones in front of those before them, and every message
is in the queue, being received, or was received once.  A receiver gets the bytes that were
sent, as far as both sizes reach. -/
theorem message_delivery (h : s.sched.Queued) (i : ℕ) (hidle : ∀ t, (s.pc t).obj ≠ some (.queue i))
    (msgPool : ℕ → ℕ) (msgSize poolSize : ℕ) (flag : Flag) (events : List Event)
    (hrun : run (observing step (QueueLog.note i))
      (s.rtMqInit i msgPool msgSize poolSize flag, .empty) events = some (s', log)) :
    (∃ free queued, Nodes (mqMaxMsgs msgSize poolSize) (s'.queue i) (s'.stages i) free queued ∧
      Messages (s'.queue i) (s'.stages i) log queued) ∧
      ∀ r ∈ log.received, ∃ b, log.sent[r.message]? = some b ∧
        r.bytes.take b.length = b.take r.size := by
  obtain ⟨free, queued, hnodes, hmessages⟩ :=
    (observed_run h hidle msgPool msgSize poolSize flag hrun).delivered
  exact ⟨⟨free, queued, hnodes, hmessages⟩, fun r hr => (hmessages.received r hr).take_eq⟩

/-- Thread 2 links its urgent message after thread 1, and thread 3 gets it first. -/
theorem message_delivery_urgent :
    ∃ s' log, run (observing step (QueueLog.note 0))
        ((fresh (started [(1, 20), (2, 15), (3, 10)])).rtMqInit 0 (fun _ => 0) 3 24 .fifo, .empty)
        [.call 1 (.mqSend 0 [1, 2]), .call 2 (.mqUrgent 0 [9]), .resume 1, .resume 1, .resume 2,
          .resume 2, .call 3 (.mqRecv 0 4 0), .resume 3, .resume 3] = some (s', log) ∧
      log.sent = [[1, 2], [9]] ∧ log.queue = [0] ∧ log.received = [⟨1, 4, [9, 0, 0, 0]⟩] ∧
      ∀ r ∈ log.received, ∃ b, log.sent[r.message]? = some b ∧
        r.bytes.take b.length = b.take r.size := by
  refine exists_pair_of_any (fun _ log => log.sent = [[1, 2], [9]] ∧ log.queue = [0] ∧
    log.received = [⟨1, 4, [9, 0, 0, 0]⟩]) (by decide +kernel) ?_
  rintro s' log hs ⟨hsent, hqueue, hreceived⟩
  have hqueued := queued_fresh [(1, 20), (2, 15), (3, 10)]
  refine ⟨hsent, hqueue, hreceived, ?_⟩
  exact (message_delivery hqueued 0 (fun t => (Option.some_ne_none _).symm) _ 3 24 .fifo _ hs).2

end Ipc

end Easyio.Kernel
