import Easyio.Kernel.Frames

/-!
# The stages of sending and receiving a message

`rt_mq_send` and `rt_mq_urgent` take a node, copy the message into it and link it, `rt_mq_recv`
takes the first node out, copies the message and gives the node back, and between these steps
other threads run.  `Stage` says how far a thread is with a queue, and `QueueStep` are the
steps that change the queue or the stage of a thread.  Whatever else happens in the system
leaves the queue and all stages alone (`queueStep`).
-/

namespace Easyio.Kernel

open Function Ipc Option

/-- How far a thread is with a message queue. -/
inductive Stage where
  | outside
  /-- it has a node for its message -/
  | fill (msg : ℕ) (buffer : List ℕ) (urgent : Bool)
  /-- the message is in the node -/
  | link (msg : ℕ) (urgent : Bool)
  /-- it has taken a node out of the queue -/
  | copy (msg size : ℕ)
  /-- it has the bytes -/
  | free (msg : ℕ) (bytes : List ℕ)

/-- The node that a thread holds. -/
def Stage.node : Stage → Option ℕ
  | .outside => none
  | .fill msg _ _ | .link msg _ | .copy msg _ | .free msg _ => some msg

/-- How far a thread at `pc` is with the queue `i`. -/
def Ipc.Pc.stage (i : ℕ) : Pc → Stage
  | .mqFill j msg buffer urgent => if j = i then .fill msg buffer urgent else .outside
  | .mqLink j msg urgent => if j = i then .link msg urgent else .outside
  | .mqCopy j msg size => if j = i then .copy msg size else .outside
  | .mqFree j msg bytes => if j = i then .free msg bytes else .outside
  | _ => .outside

namespace Ipc

/-- How far each thread is with the queue `i`. -/
def stages (s : Ipc) (i : ℕ) : ℕ → Stage := fun t => (s.pc t).stage i

variable {s s' : Ipc} {t i : ℕ} {e : Event} {pc : Pc}

theorem Pc.stage_eq_outside (h : pc.obj ≠ some (.queue i)) : pc.stage i = .outside := by
  have hne {j : ℕ} (hj : pc.obj = some (.queue j)) : j ≠ i := fun he => h (he ▸ hj)
  cases pc with
  | mqFill j msg buffer urgent | mqLink j msg urgent | mqCopy j msg size | mqFree j msg bytes =>
    exact if_neg (hne rfl)
  | _ => rfl

theorem Pc.stage_of_isReturned (h : pc.isReturned = true) : pc.stage i = .outside := by
  cases pc with
  | returned err out => rfl
  | _ => cases h

end Ipc

/-- The steps of a thread on a queue. -/
inductive QueueStep (mq : MessageQueue) : Stage → MessageQueue → Stage → Prop
  /-- nothing is sent or received -/
  | pass : QueueStep mq .outside mq .outside
  | allocate (msg : ℕ) (buffer : List ℕ) (urgent : Bool) (hfree : mq.free = some msg)
      (hfit : buffer.length ≤ mq.msgSize) :
      QueueStep mq .outside { mq with free := mq.next msg } (.fill msg buffer urgent)
  | fill (msg : ℕ) (buffer : List ℕ) (urgent : Bool) :
      QueueStep mq (.fill msg buffer urgent) (mq.fill msg buffer urgent) (.link msg urgent)
  | link (msg : ℕ) (urgent : Bool) : QueueStep mq (.link msg urgent) (mq.link msg urgent) .outside
  | take (msg size : ℕ) (hentry : mq.entry ≠ 0) (hhead : mq.head = some msg) :
      QueueStep mq .outside (mq.unlink msg) (.copy msg size)
  | copy (msg size : ℕ) :
      QueueStep mq (.copy msg size) mq (.free msg ((mq.data msg).take (min size mq.msgSize)))
  | release (msg : ℕ) (bytes : List ℕ) : QueueStep mq (.free msg bytes) (mq.addFree msg) .outside

namespace Ipc

variable {s s' : Ipc} {t i size : ℕ} {timeout : ℤ} {e : Event}

/-- The step of the thread `t` is one of the steps on the queue `i`. -/
def Queues (s : Ipc) (t i : ℕ) (s' : Ipc) : Prop :=
  QueueStep (s.queue i) ((s.pc t).stage i) (s'.queue i) ((s'.pc t).stage i)

namespace Queues

theorem of_eq {stage : Stage} {mq : MessageQueue} {pc : Pc} (hstage : (s.pc t).stage i = stage)
    (hqueue : s'.queue i = mq) (hpc : s'.pc t = pc)
    (h : QueueStep (s.queue i) stage mq (pc.stage i)) : Queues s t i s' := by
  rw [Queues, hstage, hqueue, hpc]
  exact h

theorem of_ret (hstage : (s.pc t).stage i = .outside) (hqueue : s'.queue = s.queue) (err : Err)
    (out : Output) : Queues s t i (s'.ret t err out) :=
  of_eq hstage (congrFun hqueue i) (update_self ..) .pass

variable {urgent : Bool}

theorem of_mqSendStart {buffer : List ℕ} (hstage : (s.pc t).stage i = .outside)
    (hs : s.mqSendStart t i buffer urgent = some s') : Queues s t i s' := by
  obtain ⟨-, hs⟩ := ite_none_left_eq_some.mp hs
  split at hs
  · exact some.inj hs ▸ of_ret hstage rfl ..
  rename_i hfit
  split at hs
  · exact some.inj hs ▸ of_ret hstage rfl ..
  · rename_i msg hfree
    rw [← some.inj hs]
    refine of_eq hstage (update_self ..) (update_self ..) ?_
    rw [Pc.stage, if_pos rfl]
    exact .allocate msg buffer urgent hfree (Nat.le_of_not_lt hfit)

theorem of_mqSendEnd {msg : ℕ} (hpc : s.pc t = .mqLink i msg urgent)
    (hs : s.mqSendEnd t i msg urgent = some s') : Queues s t i s' := by
  obtain ⟨r, hr, rfl⟩ := map_eq_some_iff.mp hs
  have hqueue : r.queue i = (s.queue i).link msg urgent := by
    unfold wakeIfAny at hr
    split at hr
    · rw [(under_eq hr).2]
      exact update_self ..
    · rw [← some.inj hr]
      exact update_self ..
  have hstage : (s.pc t).stage i = .link msg urgent := by
    rw [hpc]
    exact if_pos rfl
  exact of_eq hstage hqueue (update_self ..) (.link msg urgent)

section

variable (hstage : (s.pc t).stage i = .outside)
include hstage

theorem of_mqRecvLoop (hs : s.mqRecvLoop t i size timeout = some s') : Queues s t i s' := by
  unfold mqRecvLoop at hs
  split at hs
  · split at hs
    · exact some.inj hs ▸ of_ret hstage rfl ..
    · obtain ⟨-, hs'⟩ := under_eq hs
      have hqueue : s'.queue = s.queue := by rw [hs']; rfl
      have hpc : s'.pc t = .mqRecv i size timeout s.sched.tick := by
        rw [hs']
        exact update_self ..
      exact of_eq hstage (congrFun hqueue i) hpc .pass
  · rename_i hentry
    obtain ⟨msg, hhead, rfl⟩ := map_eq_some_iff.mp hs
    refine of_eq hstage (update_self ..) (update_self ..) ?_
    rw [Pc.stage, if_pos rfl]
    exact .take msg size hentry hhead

theorem of_rtMqRecv (hs : s.rtMqRecv t i size timeout = some s') : Queues s t i s' := by
  obtain ⟨-, hs⟩ := ite_none_left_eq_some.mp hs
  split at hs
  · exact some.inj hs ▸ of_ret hstage rfl ..
  · exact of_mqRecvLoop hstage hs

theorem of_mqRecvResumed {start : ℕ}
    (hs : s.mqRecvResumed t i size timeout start = some s') : Queues s t i s' := by
  unfold mqRecvResumed at hs
  split at hs
  · exact some.inj hs ▸ of_ret hstage rfl ..
  · exact of_mqRecvLoop hstage hs

end

theorem of_proceed (hobj : (s.pc t).obj = some (.queue i)) (hs : s.proceed t (s.pc t) = some s') :
    Queues s t i s' := by
  cases hpc : s.pc t with
  | mqRecv j size timeout start =>
    rw [hpc] at hobj hs
    cases hobj
    exact of_mqRecvResumed (by rw [hpc]; rfl) hs
  | mqFill j msg buffer urgent =>
    rw [hpc] at hobj hs
    cases hobj
    rw [← some.inj hs]
    refine of_eq (by rw [hpc, Pc.stage, if_pos rfl]) (update_self ..)
      (update_self ..) ?_
    rw [Pc.stage, if_pos rfl]
    exact .fill msg buffer urgent
  | mqLink j msg urgent =>
    rw [hpc] at hobj hs
    cases hobj
    exact of_mqSendEnd hpc hs
  | mqCopy j msg size =>
    rw [hpc] at hobj hs
    cases hobj
    rw [← some.inj hs]
    refine of_eq (by rw [hpc, Pc.stage, if_pos rfl]) rfl (update_self ..) ?_
    rw [Pc.stage, if_pos rfl]
    exact .copy msg size
  | mqFree j msg bytes =>
    rw [hpc] at hobj hs
    cases hobj
    rw [← some.inj hs]
    exact of_eq (by rw [hpc, Pc.stage, if_pos rfl]) (update_self ..)
      (update_self ..) (.release msg bytes)
  | _ =>
    rw [hpc] at hobj
    cases hobj

end Queues

theorem queues_of_obj (hs : s.step e = some s') (hobj : s.obj e = some (.queue i)) :
    ∃ t, e.actor = some t ∧ Queues s t i s' := by
  cases e with
  | call t c =>
    have hstage := Pc.stage_of_isReturned (i := i) (returned_of_call hs)
    have hs := perform_of_step hs
    refine ⟨t, rfl, ?_⟩
    cases c with
    | mqSend j buffer | mqUrgent j buffer =>
      cases hobj
      exact .of_mqSendStart hstage hs
    | mqRecv j size timeout =>
      cases hobj
      exact .of_rtMqRecv hstage hs
    | _ => cases hobj
  | resume t =>
    have ht := ready_of_actor hs rfl
    simp only [step] at hs
    rw [if_pos ht] at hs
    exact ⟨t, rfl, .of_proceed hobj hs⟩
  | timeout t => cases hobj
  | tick => cases hobj

/-- A step of the system is a step of one thread on the queue, or it leaves the queue and all
stages alone. -/
theorem queueStep (h : s.sched.Queued) (i : ℕ) (hs : s.step e = some s') :
    (s'.queue i = s.queue i ∧ s'.stages i = s.stages i ∧
        ∀ t, e.actor = some t → s.stages i t = .outside) ∨
      ∃ t stage, e.actor = some t ∧ QueueStep (s.queue i) (s.stages i t) (s'.queue i) stage ∧
        s'.stages i = update (s.stages i) t stage := by
  by_cases htimeout : ∃ t, e = .timeout t
  · obtain ⟨t, rfl⟩ := htimeout
    have hs' := (expired_step hs).2.1
    exact .inl ⟨by rw [hs'], by rw [hs']; rfl, fun u hu => by cases hu⟩
  have he : ∀ t, e ≠ .timeout t := fun t he => htimeout ⟨t, he⟩
  have hframed := framed_step h he hs
  by_cases hobj : s.obj e = some (.queue i)
  · obtain ⟨t, ha, hstep⟩ := queues_of_obj hs hobj
    refine .inr ⟨t, _, ha, hstep, (eq_update_iff.mpr ⟨rfl, fun u hu => ?_⟩)⟩
    have hpc := hframed.pc u (ha ▸ fun hut => hu (some.inj hut).symm)
    exact congrArg (Pc.stage i) hpc
  · have houtside : ∀ t, e.actor = some t → s.stages i t = .outside := fun t ha =>
      Pc.stage_eq_outside fun hpc => hobj (obj_of_actor hs ha hpc)
    refine .inl ⟨hframed.queue i hobj, funext fun u => ?_, houtside⟩
    by_cases ha : e.actor = some u
    · rw [houtside u ha]
      refine Pc.stage_eq_outside fun hpc => ?_
      have hsame := pc_of_inside h he hs hobj hpc
      exact hobj (obj_of_actor hs ha (hsame ▸ hpc))
    · exact congrArg (Pc.stage i) (hframed.pc u ha)

end Ipc

end Easyio.Kernel
