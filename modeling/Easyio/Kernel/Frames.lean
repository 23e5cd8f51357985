import Easyio.Kernel.Steps

/-!
# What a step leaves alone

A step of a call concerns one object.  It leaves the other objects alone, the threads that
wait for them, and of the other threads it changes only those that it takes out of the
lists of its own object (`framed_step`).  A timer that runs out concerns no object and one
thread (`expired_step`).
-/

namespace Easyio.Kernel

open Ipc List Option Runs.Partial Sched View
open Function (update update_of_ne update_self)

namespace Ipc

/-- The object that a step concerns. -/
def obj (s : Ipc) : Event → Option Obj
  | .call _ c => c.obj
  | .resume t => (s.pc t).obj
  | .timeout _ | .tick => none

/-- The thread that makes a step. -/
def Event.actor : Event → Option ℕ
  | .call t _ | .resume t => some t
  | .timeout _ | .tick => none

theorem sendEnd_sched {s s' : Ipc} {i : ℕ} {state : Sched × BitVec 32 × Bool}
    (hs : s.sendEnd i state = some s') :
    s'.sched.view = state.1.view ∧ s'.sched.note = state.1.note := by
  obtain ⟨hsched, -⟩ := under_eq hs
  split at hsched
  · obtain ⟨-, hview, hnote, -⟩ := effect_rtSchedule hsched
    exact ⟨hview, hnote⟩
  · rw [some.inj hsched]
    exact ⟨rfl, rfl⟩

/-- What a step of the thread `a` on the object `o` leaves alone. -/
structure Framed (o : Option Obj) (a : Option ℕ) (s s' : Ipc) : Prop where
  sem : ∀ i, o ≠ some (.sem i) → s'.sem i = s.sem i
  mutex : ∀ i, o ≠ some (.mutex i) → s'.mutex i = s.mutex i
  event : ∀ i, o ≠ some (.event i) → s'.event i = s.event i
  mailbox : ∀ i, o ≠ some (.mailbox i) → s'.mailbox i = s.mailbox i
  queue : ∀ i, o ≠ some (.queue i) → s'.queue i = s.queue i
  pc : ∀ u, a ≠ some u → s'.pc u = s.pc u
  inside : ∀ u, s'.pc u = s.pc u ∨ (s'.pc u).obj = none ∨ (s'.pc u).obj = o
  waiting : ∀ w, o ≠ some w.obj → s'.sched.waiting w = s.sched.waiting w
  note : ∀ u, a ≠ some u → (∀ w, o = some w.obj → u ∉ s.sched.waiting w) →
    s'.sched.note u = s.sched.note u
  spared : ∀ u, a ≠ some u → s.sched.Spared s'.sched u

namespace Framed

variable {s s' r : Ipc} {o : Option Obj} {a : Option ℕ} {t i : ℕ} {w : Wait} {flag : Flag}
  {time timeout : ℤ} {f : Wait → Flag} {p : Plan} {on : Option Wait}

theorem refl (s : Ipc) : Framed o a s s where
  sem _ _ := rfl
  mutex _ _ := rfl
  event _ _ := rfl
  mailbox _ _ := rfl
  queue _ _ := rfl
  pc _ _ := rfl
  inside _ := .inl rfl
  waiting _ _ := rfl
  note _ _ _ := rfl
  spared _ _ := .of_eq rfl rfl

theorem trans (h₁ : Framed o a s r) (hwaiting : r.sched.waiting = s.sched.waiting)
    (h₂ : Framed o a r s') : Framed o a s s' where
  sem i hi := (h₂.sem i hi).trans (h₁.sem i hi)
  mutex i hi := (h₂.mutex i hi).trans (h₁.mutex i hi)
  event i hi := (h₂.event i hi).trans (h₁.event i hi)
  mailbox i hi := (h₂.mailbox i hi).trans (h₁.mailbox i hi)
  queue i hi := (h₂.queue i hi).trans (h₁.queue i hi)
  pc u hu := (h₂.pc u hu).trans (h₁.pc u hu)
  inside u := by
    rcases h₂.inside u with heq | hpc
    · rw [heq]
      exact h₁.inside u
    · exact .inr hpc
  waiting w hw := (h₂.waiting w hw).trans (h₁.waiting w hw)
  note u hu hout := (h₂.note u hu (hwaiting ▸ hout)).trans (h₁.note u hu hout)
  spared u hu := (h₁.spared u hu).trans (h₂.spared u hu)

/-! ### Changes of one thing -/

section

variable (hs : s' = { s with sched := s'.sched })
include hs

theorem of_sched (hwaiting : ∀ w, o ≠ some w.obj → s'.sched.waiting w = s.sched.waiting w)
    (hnote : ∀ u, a ≠ some u → (∀ w, o = some w.obj → u ∉ s.sched.waiting w) →
      s'.sched.note u = s.sched.note u)
    (hspared : ∀ u, a ≠ some u → s.sched.Spared s'.sched u) : Framed o a s s' where
  sem _ _ := by rw [hs]
  mutex _ _ := by rw [hs]
  event _ _ := by rw [hs]
  mailbox _ _ := by rw [hs]
  queue _ _ := by rw [hs]
  pc _ _ := by rw [hs]
  inside _ := .inl (by rw [hs])
  waiting := hwaiting
  note := hnote
  spared := hspared

theorem of_same
    (hwaiting : s'.sched.waiting = s.sched.waiting) (hnote : s'.sched.note = s.sched.note) :
    Framed o a s s' :=
  of_sched hs (fun w _ => congrFun hwaiting w) (fun u _ _ => congrFun hnote u)
    fun u _ => .of_eq hwaiting (congrFun hnote u)

theorem of_note {n : Note} (hwaiting : s'.sched.waiting = s.sched.waiting)
    (hnote : s'.sched.note = update s.sched.note t n) : Framed o (some t) s s' := by
  have hother : ∀ u, some t ≠ some u → s'.sched.note u = s.sched.note u := fun u hu => by
    rw [hnote, update_of_ne fun he => hu (congrArg some he.symm)]
  exact of_sched hs (fun w _ => congrFun hwaiting w) (fun u hu _ => hother u hu)
    fun u hu => .of_eq hwaiting (hother u hu)

end

theorem make {c : Change} (hc : c.Fits f o) : Framed o (some t) s (c.make t s) := by
  cases c with
  | error err => exact of_note rfl rfl (note_setError ..)
  | wants set option => exact of_note rfl rfl (note_update rfl rfl)
  | sem i value =>
    refine { refl s with sem := fun k hk => update_of_ne (fun he => hk ?_) .. }
    rw [he]
    exact hc
  | mutex i m =>
    refine { refl s with mutex := fun k hk => update_of_ne (fun he => hk ?_) .. }
    rw [he]
    exact hc.1
  | event i set =>
    refine { refl s with event := fun k hk => update_of_ne (fun he => hk ?_) .. }
    rw [he]
    exact hc
  | mailbox i mb =>
    refine { refl s with mailbox := fun k hk => update_of_ne (fun he => hk ?_) .. }
    rw [he]
    exact hc.1
  | queue i mq =>
    refine { refl s with queue := fun k hk => update_of_ne (fun he => hk ?_) .. }
    rw [he]
    exact hc.1
  | goto pc =>
    have hother : ∀ u ≠ t, (s.goto t pc).pc u = s.pc u := fun u hu => update_of_ne hu ..
    refine { refl s with
      pc := fun u hu => hother u fun he => hu (congrArg some he.symm)
      inside := fun u => ?_ }
    by_cases hu : u = t
    · have hself : (s.goto t pc).pc u = pc := hu ▸ update_self ..
      exact .inr (hself.symm ▸ hc)
    · exact .inl (hother u hu)

theorem waiting_make (t : ℕ) (s : Ipc) (c : Change) :
    (c.make t s).sched.waiting = s.sched.waiting := by
  cases c <;> rfl

theorem made (hp : p.Fits s.flag o on) :
    Framed o (some t) s (p.made s t) ∧ (p.made s t).sched.waiting = s.sched.waiting := by
  refine foldlRecOn p.changes (Change.make t)
    (motive := fun r => Framed o (some t) s r ∧ r.sched.waiting = s.sched.waiting) ⟨refl s, rfl⟩ ?_
  intro r hr c hc
  exact ⟨hr.1.trans hr.2 (make (hp.changes c hc)), (waiting_make t r c).trans hr.2⟩

/-! ### Threads that wait and are woken -/

section

variable (h : s.sched.Queued)
include h

theorem of_block (ht : (s.sched.thread t).stat = .ready)
    (hs : s.under (s.sched.block w flag t time) = some s') : Framed (some w.obj) (some t) s s' := by
  obtain ⟨hsched, hs'⟩ := under_eq hs
  have heffect := effect_block h ht hsched
  have hview := congrArg View.waiting heffect.view
  have hnote : ∀ u, some t ≠ some u → s'.sched.note u = s.sched.note u := fun u hu => by
    rw [heffect.note, update_of_ne fun he => hu (congrArg some he.symm)]
  refine of_sched hs' (fun w' hw' => ?_) (fun u hu _ => hnote u hu)
    fun u hu => .same (hnote u hu) fun w' hin => ?_
  · have hne : w' ≠ w := fun he => hw' (by rw [he])
    exact (congrFun hview w').trans (update_of_ne hne ..)
  · rw [show s'.sched.waiting = _ from hview]
    by_cases hw' : w' = w
    · rw [hw']
      rw [hw'] at hin
      exact mem_suspend.mpr (.inr hin)
    · have hsame : (s.sched.view.suspend w t flag).waiting w' = s.sched.waiting w' :=
        update_of_ne hw' ..
      rwa [hsame]

theorem of_wake (hne : s.sched.waiting w ≠ [])
    (hs : s.under (s.sched.wake w) = some s') : Framed (some w.obj) a s s' := by
  obtain ⟨v, rest, hlist⟩ := exists_cons_of_ne_nil hne
  obtain ⟨hsched, hs'⟩ := under_eq hs
  have heffect := effect_wake h hlist hsched
  have hview := congrArg View.waiting heffect.view
  have hnote := heffect.note
  refine of_sched hs' (fun w' hw' => ?_) (fun u _ hout => ?_) fun u _ => ?_
  · have hne : w' ≠ w := fun he => hw' (by rw [he])
    rw [show s'.sched.waiting = _ from hview, resume_head h hlist, update_of_ne hne]
  · have huv : u ≠ v := fun he => hout w rfl (he ▸ hlist ▸ mem_cons_self ..)
    rw [hnote, update_of_ne huv]
  · by_cases huv : u = v
    · refine .resumed (s.sched.note u).eventSet ?_
      rw [hnote, huv, update_self]
    · refine .same (by rw [hnote, update_of_ne huv]) fun w' hin => ?_
      rw [show s'.sched.waiting = _ from hview]
      exact (mem_erase_of_ne huv).mpr hin

theorem of_mutexWait (ht : (s.sched.thread t).stat = .ready) {v : ℕ}
    (hs : (Deed.mutexWait i v time).run t s = some s') :
    Framed (some (.mutex i)) (some t) s s' := by
  obtain ⟨r, hr, hs⟩ := bind_eq_some_iff.mp hs
  obtain ⟨hraise, hr'⟩ := under_eq hr
  obtain ⟨hqueued, hview, hnote, -⟩ := effect_raise h hraise
  have hwaiting : r.sched.waiting = s.sched.waiting :=
    (congrArg View.waiting hview).trans (View.raise_waiting ..)
  have hready : (r.sched.thread t).stat = .ready := by
    refine (congrFun (congrArg stat hview) t).trans ?_
    rw [raise_stat]
    exact ht
  exact (of_same hr' hwaiting hnote).trans hwaiting
    (of_block (hqueued h) hready hs)

theorem of_mutexPass (hs : (Deed.mutexPass i).run t s = some s') :
    Framed (some (.mutex i)) (some t) s s' := by
  obtain ⟨r, hr, hhand⟩ := bind_eq_some_iff.mp hs
  obtain ⟨hrestore, hr⟩ := under_eq hr
  obtain ⟨hqueued, hview, hnote, -⟩ := effect_restore h hrestore
  have hwaiting : r.sched.waiting = s.sched.waiting := congrArg View.waiting hview
  have hset : ∀ m : Mutex, m.flag = (r.mutex i).flag →
      Framed (some (.mutex i)) (some t) s (r.setMutex i m) := fun m hm =>
    (of_same hr hwaiting hnote).trans hwaiting
      (make (f := r.flag) (c := .mutex i m) ⟨rfl, hm⟩)
  unfold handOver at hhand
  split at hhand
  · exact some.inj hhand ▸ hset _ rfl
  · rename_i u rest hlist
    refine (hset _ ?_).trans hwaiting (of_wake (w := .mutex i) (hqueued h) ?_ hhand)
    · rfl
    · exact fun hnil => cons_ne_nil u rest (hlist.symm.trans hnil)

theorem of_eventSend {set : BitVec 32} (hs : (Deed.eventSend i set).run t s = some s') :
    Framed (some (.event i)) (some t) s s' := by
  obtain ⟨-, -, hview, hserved, hnote, -⟩ :=
    sent_waiting h (.event i) ((s.event i).set ||| set) false
  obtain ⟨-, hs'⟩ := under_eq hs
  have hend := sendEnd_sched hs
  have hsub := served_sublist s.sched.note (s.sched.waiting (.event i))
    ((s.event i).set ||| set)
  refine (make (f := s.flag) (c := .event i _) rfl).trans rfl (of_sched hs' (fun w hw => ?_)
    (fun u _ hout => ?_) fun u _ => ?_)
  · -- the threads that are resumed are in no other list
    have hwaiting := congrFun (congrArg View.waiting (hend.1.trans hview)) w
    refine hwaiting.trans (foldl_resume_of_not_mem fun u hu hin => hw ?_)
    rw [h.waitingOnce u w (.event i) hin (hsub.subset hu)]
    rfl
  · rw [hend.2, hnote u fun hin => hout (.event i) rfl (hsub.subset hin)]
    rfl
  · by_cases hin : u ∈ (Sched.served s.sched.note (s.sched.waiting (.event i))
        ((s.event i).set ||| set)).map Prod.fst
    · obtain ⟨⟨v, got⟩, hgot, rfl⟩ := mem_map.mp hin
      exact .resumed got ((congrFun hend.2 v).trans (hserved v got hgot))
    · refine .same ((congrFun hend.2 u).trans (hnote u hin)) fun w hw => ?_
      have hwaiting := congrFun (congrArg View.waiting (hend.1.trans hview)) w
      rw [show s'.sched.waiting w = _ from hwaiting]
      exact (mem_foldl_resume (h.waitingNodup w)).mpr ⟨hw, hin⟩

/-! ### The calls -/

theorem of_deed (ht : (s.sched.thread t).stat = .ready) {d : Deed}
    (hd : d.Fits f o on) (hs : d.run t s = some s') : Framed o (some t) s s' := by
  cases d with
  | nothing => exact some.inj hs ▸ refl s
  | block w flag time =>
    obtain ⟨rfl, -⟩ := hd
    exact of_block h ht hs
  | wake w =>
    obtain ⟨rfl, -⟩ := hd
    simp only [Deed.run, wakeIfAny] at hs
    split at hs
    · rename_i hne
      exact of_wake h hne hs
    · exact some.inj hs ▸ refl s
  | semRelease i =>
    obtain rfl := hd
    simp only [Deed.run, rtSemRelease] at hs
    split at hs
    · rename_i hne
      exact of_wake h hne hs
    · exact some.inj hs ▸ make (f := f) (c := .sem i _) rfl
  | mutexWait i v time => exact hd ▸ of_mutexWait h ht hs
  | mutexPass i => exact hd ▸ of_mutexPass h hs
  | eventSend i set => exact hd ▸ of_eventSend h hs
  | sleep tick =>
    obtain ⟨hsched, hs'⟩ := under_eq hs
    have heffect := effect_rtThreadSleep h ht hsched
    exact of_note hs' (congrArg View.waiting heffect.view) heffect.note
  | yield =>
    obtain ⟨hsched, hs'⟩ := under_eq hs
    have heffect := effect_rtThreadYield h hsched
    exact of_same hs' (congrArg View.waiting heffect.view) heffect.note

theorem of_plan (ht : (s.sched.thread t).stat = .ready)
    (hp : p.Fits s.flag o on) (hs : p.run s t = some s') : Framed o (some t) s s' :=
  have hstill : s.sched.Still (p.made s t).sched := still_made h p
  (made hp).1.trans (made hp).2 (of_deed hstill.queued (hstill.ready ht) hp.deed hs)

end

end Framed

variable {s s' : Ipc} {t : ℕ} {e : Event} {o : Obj}

/-- What a step leaves alone that is not the end of a time. -/
theorem framed_step (h : s.sched.Queued) (he : ∀ t, e ≠ .timeout t) (hs : s.step e = some s') :
    Framed (s.obj e) e.actor s s' := by
  cases e with
  | call t c =>
    obtain ⟨⟨ht, -⟩, hs⟩ := ite_none_right_eq_some.mp hs
    obtain ⟨p, hp, hs⟩ := perform_cases hs
    exact .of_plan h ht hp hs
  | resume t =>
    obtain ⟨ht, hs⟩ := ite_none_right_eq_some.mp hs
    obtain ⟨p, hp, hs⟩ := proceed_cases hs
    exact .of_plan h ht hp hs
  | timeout t => exact absurd rfl (he t)
  | tick =>
    obtain ⟨hsched, hs'⟩ := under_eq hs
    obtain ⟨t, -, hsched⟩ := bind_eq_some_iff.mp hsched
    have heffect := effect_rtTickIncrease h hsched
    exact .of_same hs' (congrArg View.waiting heffect.view) heffect.note

theorem ready_of_actor (hs : s.step e = some s') (ha : e.actor = some t) :
    (s.sched.thread t).stat = .ready := by
  cases e with
  | call u c =>
    obtain rfl : u = t := some.inj ha
    exact (ite_none_right_eq_some.mp hs).1.1
  | resume u =>
    obtain rfl : u = t := some.inj ha
    exact (ite_none_right_eq_some.mp hs).1
  | timeout u => cases ha
  | tick => cases ha

theorem returned_of_call {c : Call} (hs : s.step (.call t c) = some s') :
    (s.pc t).isReturned = true :=
  (ite_none_right_eq_some.mp hs).1.2

/-- A thread inside of a call makes a step of this call. -/
theorem obj_of_actor (hs : s.step e = some s') (ha : e.actor = some t)
    (hpc : (s.pc t).obj = some o) : s.obj e = some o := by
  cases e with
  | call u c =>
    obtain rfl : u = t := some.inj ha
    have hret := returned_of_call hs
    cases h : s.pc u with
    | returned err out => rw [h] at hpc; cases hpc
    | _ => rw [h] at hret; cases hret
  | resume u =>
    obtain rfl : u = t := some.inj ha
    exact hpc
  | timeout u => cases ha
  | tick => cases ha

section

variable (h : s.sched.Queued) (he : ∀ t, e ≠ .timeout t) (hs : s.step e = some s')
include h he hs

/-- A step lets nobody enter a call on another object. -/
theorem pc_of_inside
    (hobj : s.obj e ≠ some o) (hpc : (s'.pc t).obj = some o) : s'.pc t = s.pc t := by
  rcases (framed_step h he hs).inside t with heq | hnone | hsome
  · exact heq
  · exact absurd (hpc.symm.trans hnone) (some_ne_none o)
  · exact absurd (hsome.symm.trans hpc) hobj

/-- A thread that does not wait is left alone by the steps of the others. -/
theorem note_of_ready (ha : e.actor ≠ some t) (ht : (s.sched.thread t).stat = .ready) :
    s'.sched.note t = s.sched.note t :=
  (framed_step h he hs).note t ha fun w _ => h.not_waiting ht w

/-- A thread that waits for another object is left alone. -/
theorem note_of_waiting {w : Wait} (hw : s.obj e ≠ some w.obj) (ht : t ∈ s.sched.waiting w) :
    s'.sched.note t = s.sched.note t ∧ s'.pc t = s.pc t := by
  have hframed := framed_step h he hs
  have ha : e.actor ≠ some t := fun ha =>
    h.not_waiting (ready_of_actor hs ha) w ht
  refine ⟨hframed.note t ha fun w' hw' hin => hw ?_, hframed.pc t ha⟩
  rw [h.waitingOnce t w w' ht hin, hw']

end

theorem expired_step (hs : s.step (.timeout t) = some s') :
    s.sched.note t = { s.sched.note t with stat := .suspend, timer := true } ∧
      s' = { s with sched := s'.sched } ∧
      s'.sched.waiting = (fun w => (s.sched.waiting w).erase t) ∧
      s'.sched.note = update s.sched.note t (s.sched.note t).expired := by
  obtain ⟨htimer, hs⟩ := ite_none_right_eq_some.mp hs
  obtain ⟨hsched, hs'⟩ := under_eq hs
  have heffect := effect_rtThreadTimeout hsched
  obtain ⟨hsuspend, -⟩ := ite_none_right_eq_some.mp hsched
  refine ⟨?_, hs', congrArg View.waiting heffect.view, heffect.note⟩
  rw [← show (s.sched.note t).stat = .suspend from hsuspend,
    ← show (s.sched.note t).timer = true from htimer]

/-! ## Runs -/

def SameObject (s s' : Ipc) : Obj → Prop
  | .sem i => s'.sem i = s.sem i
  | .mutex i => s'.mutex i = s.mutex i
  | .event i => s'.event i = s.event i
  | .mailbox i => s'.mailbox i = s.mailbox i
  | .queue i => s'.queue i = s.queue i

/-- The object `o` is as it was, and nobody has come to wait for it. -/
structure Untouched (o : Obj) (s s' : Ipc) : Prop where
  queued : s'.sched.Queued
  same : SameObject s s' o
  waiting : ∀ w : Wait, w.obj = o → (s'.sched.waiting w).Sublist (s.sched.waiting w)

/-- **Objects do not interfere.** -/
theorem untouched_of_others {events : List Event} (h : s.sched.Queued)
    (hrun : run step s events = some s')
    (hothers : Meets step (fun s e => s.obj e ≠ some o) s events) : Untouched o s s' := by
  refine hothers.invariant ?_ hrun ⟨h, by cases o <;> rfl, fun w _ => .refl _⟩
  intro r e r' ⟨hqueued, hsame, hwaiting⟩ hobj hs
  by_cases htimeout : ∃ t, e = .timeout t
  · obtain ⟨t, rfl⟩ := htimeout
    obtain ⟨-, hobjects, hleft, -⟩ := expired_step hs
    refine ⟨queued_step hqueued hs, hobjects ▸ hsame, fun w hw => ?_⟩
    rw [hleft]
    exact erase_sublist.trans (hwaiting w hw)
  · have hframed := framed_step hqueued (not_exists.mp htimeout) hs
    refine ⟨queued_step hqueued hs, ?_, fun w hw => ?_⟩
    · cases o with
      | sem i => exact (hframed.sem i hobj).trans hsame
      | mutex i => exact (hframed.mutex i hobj).trans hsame
      | event i => exact (hframed.event i hobj).trans hsame
      | mailbox i => exact (hframed.mailbox i hobj).trans hsame
      | queue i => exact (hframed.queue i hobj).trans hsame
    · rw [hframed.waiting w (hw ▸ hobj)]
      exact hwaiting w hw

/-- Thread 1 holds the mutex 0.  Thread 3 waits for a semaphore, and thread 2 gives up waiting
for the mutex. -/
theorem untouched_of_others_timeout : ∃ s, run step (fresh (started [(1, 20), (2, 15), (3, 25)]))
      [.call 1 (.mutexTake 0 (-1)), .call 2 (.mutexTake 0 10)] = some s ∧
    (s.mutex 0).owner = some 1 ∧ s.sched.waiting (.mutex 0) = [2] ∧
    ∃ s', run step s [.call 3 (.semTake 0 (-1)), .timeout 2] = some s' ∧
      s'.sched.waiting (.mutex 0) = [] ∧ Untouched (.mutex 0) s s' := by
  have hreturns : ∃ s, run step (fresh (started [(1, 20), (2, 15), (3, 25)]))
        [.call 1 (.mutexTake 0 (-1)), .call 2 (.mutexTake 0 10)] = some s ∧
      (s.mutex 0).owner = some 1 ∧ s.sched.waiting (.mutex 0) = [2] ∧
      (run step s [.call 3 (.semTake 0 (-1)), .timeout 2]).any
        (·.sched.waiting (.mutex 0) = []) = true :=
    exists_of_any _ (by decide +kernel) fun _ _ h => h
  obtain ⟨s, hs, howner, hwaiting, hlater⟩ := hreturns
  have hqueued := (untouched_of_others (o := .sem 0) (queued_fresh _) hs
    (meets_of_forall (by simp [obj, Call.obj]))).queued
  exact ⟨s, hs, howner, hwaiting, exists_of_any _ hlater fun s' hrun hgone =>
    ⟨hgone, untouched_of_others hqueued hrun (meets_of_forall (by simp [obj, Call.obj]))⟩⟩

end Ipc

end Easyio.Kernel
