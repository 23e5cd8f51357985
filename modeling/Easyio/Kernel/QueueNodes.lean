import Easyio.Kernel.QueueSteps
import Easyio.Lists.Custody
import Easyio.Lists.Linked
import Mathlib.Data.List.Perm.Subperm

/-!
# The nodes of a message queue

Every node is in the free list, in the queue, or with one thread that is sending or receiving
(`Nodes`).  A thread may write the link and the bytes of its node outside of all critical
sections because nobody else has the node.
-/

namespace Easyio.Kernel

open Function List Ipc Easyio.Lists Stage

/-- An urgent one comes first, another one last. -/
def entered {α : Type*} (urgent : Bool) (a : α) (xs : List α) : List α :=
  if urgent then a :: xs else xs ++ [a]

theorem perm_entered {α : Type*} (urgent : Bool) (a : α) (xs : List α) :
    (a :: xs).Perm (entered urgent a xs) := by
  cases urgent with
  | true => exact .refl _
  | false => exact (perm_append_singleton a xs).symm

/-- The nodes of a queue with `n` nodes: those in the list `free`, those in the list `queued`,
and those that the threads hold. -/
structure Nodes (n : ℕ) (mq : MessageQueue) (stages : ℕ → Stage) (free queued : List ℕ) : Prop where
  freeLinked : Linked mq.next mq.free free
  queueLinked : Linked mq.next mq.head queued
  tail : mq.tail = queued.getLast?
  entry : mq.entry = queued.length
  custody : Custody (· < n) (free ++ queued) (node ∘ stages)
  /-- `rt_mq_send` has cleared the link of its node -/
  ended : ∀ t msg, stages t = .link msg false → mq.next msg = none

namespace Nodes

variable {n t msg size m : ℕ} {mq : MessageQueue} {stages : ℕ → Stage}
  {free queued buffer bytes : List ℕ} {urgent : Bool} {stage : Stage}

theorem node_eq (hstage : stages t = stage) : (node ∘ stages) t = stage.node :=
  congrArg node hstage

theorem not_mem (h : Nodes n mq stages free queued) (ht : (stages t).node = some msg) :
    msg ∉ free ∧ msg ∉ queued := by
  have := h.custody.apart t msg ht
  rwa [mem_append, not_or] at this

theorem ne_of_ne (h : Nodes n mq stages free queued) {u : ℕ} (hut : u ≠ t)
    (ht : (stages t).node = some msg) (hu : (stages u).node = some m) : m ≠ msg := fun he =>
  hut (h.custody.once u t msg (he ▸ hu) ht)

theorem length_le {held : ℕ → Option ℕ} (h : Custody (· < n) (free ++ queued) held) :
    queued.length ≤ n := by
  have hsub : queued ⊆ range n := fun a ha =>
    mem_range.mpr ((h.mem a).mpr (.inl (mem_append_right _ ha)))
  have hnodup := (nodup_append.mp h.nodup).2.1
  exact (hnodup.subperm hsub).length_le.trans_eq length_range

section

variable (h : Nodes n mq stages free queued)
include h

theorem custody_of_node_eq (hnode : stage.node = (stages t).node) :
    Custody (· < n) (free ++ queued) (node ∘ update stages t stage) := by
  rw [comp_update, hnode]
  exact (update_eq_self t (node ∘ stages)).symm ▸ h.custody

/-- What `rt_mq_send` has done to its link stays, when the step of the thread `t` leaves the
links of the others alone. -/
theorem ended_update {next : ℕ → Option ℕ} (hself : ∀ m, stage = .link m false → next m = none)
    (hothers : ∀ u m, u ≠ t → (stages u).node = some m → next m = mq.next m) :
    ∀ u m, update stages t stage u = .link m false → next m = none := by
  intro u m hu
  by_cases hut : u = t
  · rw [hut, update_self] at hu
    exact hself m hu
  · rw [update_of_ne hut] at hu
    rw [hothers u m hut (congrArg node hu)]
    exact h.ended u m hu

theorem allocate (ht : stages t = .outside)
    (hfree : mq.free = some msg) (buffer : List ℕ) (urgent : Bool) :
    ∃ rest, Nodes n { mq with free := mq.next msg }
      (update stages t (.fill msg buffer urgent)) rest queued := by
  have hlinked := h.freeLinked
  rw [hfree] at hlinked
  obtain ⟨rest, rfl, hrest⟩ := hlinked.cons_of_eq_some
  refine ⟨rest, hrest, h.queueLinked, h.tail, h.entry, ?_, ?_⟩
  · rw [comp_update]
    exact h.custody.acquire (node_eq ht)
  · exact h.ended_update (fun _ hm => Stage.noConfusion hm) fun _ _ _ _ => rfl

theorem fill (ht : stages t = .fill msg buffer urgent) :
    Nodes n (mq.fill msg buffer urgent) (update stages t (.link msg urgent)) free
      queued := by
  have hnode : (stages t).node = some msg := congrArg node ht
  obtain ⟨hfree, hqueued⟩ := h.not_mem hnode
  have hnext : ∀ {first nodes}, Linked mq.next first nodes → msg ∉ nodes →
      Linked (mq.fill msg buffer urgent).next first nodes := by
    intro first nodes hlinked hout
    cases urgent with
    | true => exact hlinked
    | false => exact hlinked.update hout none
  refine ⟨hnext h.freeLinked hfree, hnext h.queueLinked hqueued, h.tail, h.entry,
    h.custody_of_node_eq hnode.symm, h.ended_update (fun m hm => ?_) fun u m hut hu => ?_⟩
  · obtain ⟨rfl, rfl⟩ := Stage.link.inj hm
    exact update_self ..
  · cases urgent with
    | true => rfl
    | false => exact update_of_ne (h.ne_of_ne hut hnode hu) ..

/-- The tail is the last node, and a queue without a last node has no first one. -/
theorem head_eq_none (htail : mq.tail = none) : queued = [] ∧ mq.head = none := by
  have hnil : queued = [] := getLast?_eq_none_iff.mp (h.tail ▸ htail)
  exact ⟨hnil, h.queueLinked.eq_nil_iff.mp hnil⟩

theorem linked_urgent (hqueued : msg ∉ queued) :
    Linked (mq.link msg true).next (mq.link msg true).head (msg :: queued) ∧
      (mq.link msg true).tail = (msg :: queued).getLast? := by
  refine ⟨h.queueLinked.push hqueued, ?_⟩
  change (mq.tail.orElse fun _ => some msg) = (msg :: queued).getLast?
  rw [h.tail]
  cases queued with
  | nil => rfl
  | cons a rest => rfl

theorem linked_normal (hqueued : msg ∉ queued) (hend : mq.next msg = none) :
    Linked (mq.link msg false).next (mq.link msg false).head (queued ++ [msg]) ∧
      (mq.link msg false).tail = (queued ++ [msg]).getLast? := by
  refine ⟨?_, getLast?_concat.symm⟩
  cases htail : mq.tail with
  | none =>
    obtain ⟨rfl, hhead⟩ := h.head_eq_none htail
    simp only [MessageQueue.link, htail, hhead]
    exact ⟨rfl, hend⟩
  | some last =>
    have hne : mq.head ≠ none := fun hnone => by
      rw [h.queueLinked.eq_nil_iff.mpr hnone] at h
      exact Option.some_ne_none last (htail.symm.trans h.tail)
    obtain ⟨first, hhead⟩ := Option.ne_none_iff_exists'.mp hne
    have hlinked := h.queueLinked.append (nodup_append.mp h.custody.nodup).2.1
      (h.tail.symm.trans htail) hqueued hend
    simp only [MessageQueue.link, htail]
    rw [hhead] at hlinked ⊢
    exact hlinked

/-- Linking changes no link but that of the node and that of the last one in the queue. -/
theorem next_link (hmsg : m ≠ msg) (hm : m ∉ queued) : (mq.link msg urgent).next m = mq.next m := by
  cases urgent with
  | true => exact update_of_ne hmsg ..
  | false =>
    cases htail : mq.tail with
    | none => simp only [MessageQueue.link, htail, Bool.false_eq_true, if_false]
    | some last =>
      have hne : m ≠ last := fun he =>
        hm (he ▸ mem_of_getLast? (h.tail.symm.trans htail))
      simp only [MessageQueue.link, htail]
      exact update_of_ne hne ..

end

theorem link (hsmall : n < 2 ^ 16) (h : Nodes n mq stages free queued)
    (ht : stages t = .link msg urgent) :
    Nodes n (mq.link msg urgent) (update stages t .outside) free
      (entered urgent msg queued) := by
  have hnode : (stages t).node = some msg := congrArg node ht
  obtain ⟨hfree, hqueued⟩ := h.not_mem hnode
  have hcustody : Custody (· < n) (free ++ entered urgent msg queued)
      (node ∘ update stages t .outside) := by
    rw [comp_update]
    have hreleased := (h.custody.release hnode).perm perm_middle.symm
    exact hreleased.perm ((perm_entered urgent msg queued).append_left free)
  have hlinked : Linked (mq.link msg urgent).next (mq.link msg urgent).head
      (entered urgent msg queued) ∧
      (mq.link msg urgent).tail = (entered urgent msg queued).getLast? := by
    cases urgent with
    | true => exact h.linked_urgent hqueued
    | false => exact h.linked_normal hqueued (h.ended t msg ht)
  refine ⟨?_, hlinked.1, hlinked.2, ?_, hcustody,
    h.ended_update (fun _ hm => Stage.noConfusion hm) fun u m hut hu =>
      h.next_link (h.ne_of_ne hut hnode hu) (h.not_mem hu).2⟩
  · have hsame : (mq.link msg urgent).free = mq.free := by cases urgent <;> rfl
    rw [hsame]
    refine h.freeLinked.congr fun m hm => ?_
    refine h.next_link (fun he => hfree (he ▸ hm)) fun hin => ?_
    exact (nodup_append.mp h.custody.nodup).2.2 m hm m hin rfl
  · have hcount : (mq.link msg urgent).entry = (mq.entry + 1) % 2 ^ 16 := by cases urgent <;> rfl
    have hlength := (perm_entered urgent msg queued).length_eq
    have hle := length_le hcustody
    rw [hcount, h.entry, ← hlength]
    rw [← hlength, length_cons] at hle
    exact Nat.mod_eq_of_lt (by omega)

section

variable (h : Nodes n mq stages free queued)
include h

theorem take (ht : stages t = .outside) (hhead : mq.head = some msg) (size : ℕ) :
    ∃ rest, queued = msg :: rest ∧
      Nodes n (mq.unlink msg) (update stages t (.copy msg size)) free rest := by
  have hlinked := h.queueLinked
  rw [hhead] at hlinked
  obtain ⟨rest, rfl, hrest⟩ := hlinked.cons_of_eq_some
  refine ⟨rest, rfl, h.freeLinked, hrest, ?_, ?_, ?_,
    h.ended_update (fun _ hm => Stage.noConfusion hm) fun _ _ _ _ => rfl⟩
  · change (if mq.tail = some msg then none else mq.tail) = rest.getLast?
    rw [h.tail]
    cases rest with
    | nil => exact if_pos rfl
    | cons a rest =>
      have hmsg := (nodup_cons.mp (nodup_append.mp h.custody.nodup).2.1).1
      exact if_neg fun hlast => hmsg (mem_of_getLast? hlast)
  · change mq.entry - 1 = rest.length
    rw [h.entry, length_cons, Nat.add_sub_cancel]
  · rw [comp_update]
    exact (h.custody.perm perm_middle).acquire (node_eq ht)

theorem copy (ht : stages t = .copy msg size)
    (bytes : List ℕ) : Nodes n mq (update stages t (.free msg bytes)) free queued :=
  { h with
    custody := h.custody_of_node_eq (congrArg node ht).symm
    ended := h.ended_update (fun _ hm => Stage.noConfusion hm) fun _ _ _ _ => rfl }

theorem release (ht : stages t = .free msg bytes) :
    Nodes n (mq.addFree msg) (update stages t .outside) (msg :: free) queued := by
  have hnode : (stages t).node = some msg := congrArg node ht
  obtain ⟨hfree, hqueued⟩ := h.not_mem hnode
  refine ⟨h.freeLinked.push hfree, h.queueLinked.update hqueued _, h.tail, h.entry, ?_,
    h.ended_update (fun _ hm => Stage.noConfusion hm) fun u m hut hu =>
      update_of_ne (h.ne_of_ne hut hnode hu) ..⟩
  rw [comp_update]
  exact h.custody.release hnode

end

end Nodes

end Easyio.Kernel
