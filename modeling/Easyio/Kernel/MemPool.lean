import Easyio.Kernel.Words
import Easyio.Runs.Guarded
import Mathlib.Data.List.Nodup

/-!
# Memory pools

`rt_mp_init`, `rt_mp_alloc` and `rt_mp_free` of `src/mempool.c` with the parts of
`rt_thread_suspend`, `rt_thread_resume` and `rt_thread_timeout` that concern a pool.

A section with interrupts disabled is one step, so `rt_mp_alloc` has two: the
attempt, which may end with the thread waiting, and, once the thread runs again,
the rest (`Event.wake`).  Any thread that is not waiting may take the next
step; that covers every choice of priorities.

Blocks are numbered.  The word in front of a block's data is the link of the free
list or, in an allocated block, the address of the pool.  `rt_mp_free` takes the
first waiting thread from the list whenever `suspend_thread_count` is positive.
When the list is empty at that time, the list head itself is taken for a thread,
and `thread->error = RT_EOK` writes behind the control block: a fault.
-/

namespace Easyio.Kernel.MemPool

open Crash Function List Nat Prod Runs

/-- A pointer in the free list: `RT_NULL`, a block or the control block. -/
inductive Word where
  | null
  | block (b : ℕ)
  | pool

/-- What stops the system: the first block taken from an empty free list, or the
list head of the pool taken for a waiting thread. -/
inductive Fault where
  | emptyPop
  | strayResume
  deriving DecidableEq

/-- `struct rt_mempool` and the threads that are inside `rt_mp_alloc`. -/
structure Pool where
  blockTotalCount : ℕ
  blockFreeCount : ℕ
  blockList : Word
  /-- the word in front of the data of each block -/
  header : ℕ → Word
  /-- the waiting threads, first in the list first -/
  suspendThread : List ℕ
  suspendThreadCount : ℕ
  /-- threads whose timer is running -/
  timed : ℕ → Bool
  /-- threads resumed by `rt_mp_free` (`error` is `RT_EOK`) that have not run yet -/
  resumed : List ℕ
  /-- threads resumed by their timer (`error` is `-RT_ETIMEOUT`) that have not run yet -/
  expired : List ℕ
  /-- the blocks handed out and not given back, each with the thread it went to -/
  owned : List (ℕ × ℕ)
  fault : Option Fault

/-- The headers `rt_mp_init` writes: block after block, the last one `RT_NULL`. -/
def initialHeader (total b : ℕ) : Word := if b + 1 = total then .null else .block (b + 1)

/-- The number of blocks in `size` bytes. -/
def blockCount (size blockSize : ℕ) : ℕ := rtAlignDown size / ((rtAlign blockSize + 4) % 2 ^ 32)

/-- `rt_mp_init` -/
def rtMpInit (size blockSize : ℕ) : Pool where
  blockTotalCount := blockCount size blockSize
  blockFreeCount := blockCount size blockSize
  blockList := .block 0
  header := initialHeader (blockCount size blockSize)
  suspendThread := []
  suspendThreadCount := 0
  timed _ := false
  resumed := []
  expired := []
  owned := []
  fault := none

section

variable (s : Pool)

/-- Decrease the counter and take the first block, without a check of either. -/
def Pool.pop (t : ℕ) : Pool :=
  let s := { s with blockFreeCount := sub32 s.blockFreeCount 1 }
  match s.blockList with
  | .block b => { s with
      blockList := s.header b
      header := update s.header b .pool
      owned := (t, b) :: s.owned }
  | .null => { s with fault := some .emptyPop }
  | .pool => { s with fault := some .emptyPop }

/-- `rt_mp_alloc` up to the point where the thread waits or returns. -/
def Pool.rtMpAlloc (t : ℕ) (time : ℤ) : Pool :=
  if s.blockFreeCount ≠ 0 then s.pop t
  else if time = 0 then s
  else { s with
    suspendThread := t :: s.suspendThread
    suspendThreadCount := s.suspendThreadCount + 1
    timed := update s.timed t (0 < time) }

/-- The rest of `rt_mp_alloc` when the thread runs again: it returns `RT_NULL` if
its timer had expired and takes a block otherwise. -/
def Pool.allocContinue (t : ℕ) : Pool :=
  if t ∈ s.expired then { s with expired := s.expired.erase t }
  else Pool.pop { s with resumed := s.resumed.erase t } t

/-- `rt_thread_resume` for the thread at the front of the waiting list. -/
def Pool.resumeFirst : Pool :=
  match s.suspendThread with
  | t :: rest => { s with
      suspendThread := rest
      timed := update s.timed t false
      resumed := t :: s.resumed }
  | [] => { s with fault := some .strayResume }

/-- Increase the counter and link the block `b` into the free list. -/
def Pool.push (b : ℕ) : Pool := { s with
  blockFreeCount := s.blockFreeCount + 1
  header := update s.header b s.blockList
  blockList := .block b
  owned := s.owned.filter fun o => o.2 != b }

/-- `rt_mp_free` -/
def Pool.rtMpFree (b : ℕ) : Pool :=
  if 0 < s.suspendThreadCount then
    { (s.push b).resumeFirst with suspendThreadCount := s.suspendThreadCount - 1 }
  else s.push b

/-- `rt_thread_timeout` for a thread that waits for a block. -/
def Pool.rtThreadTimeout (t : ℕ) : Pool := { s with
  suspendThread := s.suspendThread.erase t
  timed := update s.timed t false
  expired := t :: s.expired }

end

inductive Event where
  | alloc (t : ℕ) (time : ℤ)
  | wake (t : ℕ)
  | free (t b : ℕ)
  | timeout (t : ℕ)
  deriving DecidableEq

def step (s : Pool) : Event → Pool
  | .alloc t time => s.rtMpAlloc t time
  | .wake t => s.allocContinue t
  | .free _ b => s.rtMpFree b
  | .timeout t => s.rtThreadTimeout t

/-- The thread is not inside `rt_mp_alloc`. -/
def Pool.Running (s : Pool) (t : ℕ) : Prop := t ∉ s.suspendThread ∧ t ∉ s.resumed ∧ t ∉ s.expired

/-- The steps that can happen: calls come from threads that run, a block is given
back only while it is handed out, a timer expires only where it was started. -/
def Allowed (s : Pool) (e : Event) : Prop :=
  s.fault = none ∧ match e with
    | .alloc t _ => s.Running t
    | .wake t => t ∈ s.resumed ∨ t ∈ s.expired
    | .free t b => s.Running t ∧ b ∈ s.owned.map snd
    | .timeout t => t ∈ s.suspendThread ∧ s.timed t = true

instance (s : Pool) (t : ℕ) : Decidable (s.Running t) := by
  unfold Pool.Running
  infer_instance

instance (s : Pool) : (e : Event) → Decidable (Allowed s e)
  | .alloc t _ => inferInstanceAs (Decidable (_ ∧ s.Running t))
  | .wake t => inferInstanceAs (Decidable (_ ∧ (t ∈ s.resumed ∨ t ∈ s.expired)))
  | .free t b => inferInstanceAs (Decidable (_ ∧ s.Running t ∧ b ∈ s.owned.map snd))
  | .timeout t => inferInstanceAs (Decidable (_ ∧ t ∈ s.suspendThread ∧ s.timed t = true))

/-! ## The free list -/

/-- The links lead from `w` through the blocks of `bs` to `RT_NULL`. -/
def Linked (header : ℕ → Word) : Word → List ℕ → Prop
  | w, [] => w = .null
  | w, b :: bs => w = .block b ∧ Linked header (header b) bs

theorem Linked.update {header : ℕ → Word} {w : Word} {bs : List ℕ} (h : Linked header w bs)
    {b : ℕ} (hb : b ∉ bs) (v : Word) : Linked (update header b v) w bs := by
  induction bs generalizing w with
  | nil => exact h
  | cons c bs ih =>
    rw [mem_cons, not_or] at hb
    refine ⟨h.1, ?_⟩
    rw [update_of_ne (Ne.symm hb.1)]
    exact ih h.2 hb.2

theorem linked_initialHeader {total k : ℕ} (hk : k < total) :
    Linked (initialHeader total) (.block k) (range' k (total - k)) := by
  obtain ⟨n, rfl⟩ : ∃ n, total = k + n + 1 := ⟨total - k - 1, by omega⟩
  -- the rest of the list is the list from the next block on
  induction n generalizing k with
  | zero => simp [Linked, initialHeader]
  | succ n ih =>
    have hrest := ih (k := k + 1) (by omega)
    rw [show k + 1 + n + 1 = k + (n + 1) + 1 by omega,
      show k + (n + 1) + 1 - (k + 1) = n + 1 by omega] at hrest
    rw [show k + (n + 1) + 1 - k = n + 1 + 1 by omega, range'_succ]
    refine ⟨rfl, ?_⟩
    rwa [initialHeader, if_neg (by omega)]

/-! ## Exclusive ownership -/

/-- The counter tells the length of the free list, no block has two owners and
nothing was ever taken from an empty list. -/
structure Exclusive (s : Pool) : Prop where
  noFault : s.fault = none
  counted : ∃ free, Linked s.header s.blockList free ∧ s.blockFreeCount = free.length
  unshared : (s.owned.map snd).Nodup

/-- A call of `rt_mp_alloc` that finds blocks leaves one for every thread that was
resumed and has not run yet, and a call of `rt_mp_free` that counts a waiting
thread finds one. -/
def Considerate (s : Pool) : Event → Prop
  | .alloc _ _ => s.blockFreeCount ≠ 0 → s.resumed.length < s.blockFreeCount
  | .wake _ => True
  | .free _ _ => 0 < s.suspendThreadCount → s.suspendThread ≠ []
  | .timeout _ => True

/-- What considerate steps keep: free and owned blocks together are the blocks of
the pool, and there is a free block for each resumed thread. -/
structure Reserved (total : ℕ) (s : Pool) (free : List ℕ) : Prop where
  noFault : s.fault = none
  linked : Linked s.header s.blockList free
  counted : s.blockFreeCount = free.length
  blocks : (free ++ s.owned.map snd).Perm (List.range total)
  reserved : s.resumed.length ≤ free.length

namespace Reserved

variable {total : ℕ} {s : Pool} {free : List ℕ}

section

variable (h : Reserved total s free)
include h

theorem nodup : (free ++ s.owned.map snd).Nodup := h.blocks.nodup_iff.mpr nodup_range

theorem exclusive : Exclusive s where
  noFault := h.noFault
  counted := ⟨free, h.linked, h.counted⟩
  unshared := (nodup_append.mp h.nodup).2.1

theorem length_le : free.length ≤ total := by
  have := h.blocks.length_eq
  rw [length_append, length_range] at this
  omega

/-- Taking a block while one more is free than threads are resumed. -/
theorem pop (htotal : total < 2 ^ 32) (t : ℕ)
    (hfree : s.resumed.length < free.length) : ∃ free, Reserved total (s.pop t) free := by
  cases free with
  | nil => cases hfree
  | cons b free =>
    have hcount : sub32 s.blockFreeCount 1 = free.length := by
      have := h.length_le
      rw [length_cons] at this
      rw [h.counted, sub32_of_le] <;> rw [length_cons] <;> omega
    have hb : b ∉ free := by
      have := h.nodup
      simp only [cons_append, nodup_cons, mem_append, not_or] at this
      exact this.1.1
    have hpop : s.pop t = { s with
        blockFreeCount := sub32 s.blockFreeCount 1
        blockList := s.header b
        header := update s.header b .pool
        owned := (t, b) :: s.owned } := by
      unfold Pool.pop
      simp only [h.linked.1]
    rw [hpop]
    refine ⟨free, h.noFault, h.linked.2.update hb _, hcount, ?_, Nat.lt_succ_iff.mp hfree⟩
    exact perm_middle.trans h.blocks

theorem push {b : ℕ} (hb : b ∈ s.owned.map snd) : Reserved total (s.push b) (b :: free) := by
  obtain ⟨-, howned, hdisjoint⟩ := nodup_append.mp h.nodup
  have hfresh : b ∉ free := fun hmem => hdisjoint b hmem b hb rfl
  have hrest : (s.push b).owned.map snd = (s.owned.map snd).erase b := by
    rw [howned.erase_eq_filter, filter_map]
    rfl
  refine ⟨h.noFault, ⟨rfl, ?_⟩, congrArg (· + 1) h.counted, ?_, ?_⟩
  · have hheader : (s.push b).header b = s.blockList := update_self ..
    rw [hheader]
    exact h.linked.update hfresh _
  · rw [hrest]
    refine Perm.trans ?_ h.blocks
    exact perm_middle.symm.trans (Perm.append_left free (perm_cons_erase hb).symm)
  · exact h.reserved.trans (le_succ _)

/-- Resuming a thread after a block was given back. -/
theorem resumeFirst (hfree : s.resumed.length < free.length) (hfound : s.suspendThread ≠ []) :
    Reserved total s.resumeFirst free := by
  unfold Pool.resumeFirst
  split
  · exact ⟨h.noFault, h.linked, h.counted, h.blocks, hfree⟩
  · exact absurd ‹_› hfound

theorem step (htotal : total < 2 ^ 32) {e : Event}
    (hallowed : Allowed s e) (hconsiderate : Considerate s e) :
    ∃ free, Reserved total (step s e) free := by
  cases e with
  | alloc t time =>
    change ∃ free, Reserved total (s.rtMpAlloc t time) free
    unfold Pool.rtMpAlloc
    split
    · rename_i hcount
      exact h.pop htotal t (h.counted ▸ hconsiderate hcount)
    split
    · exact ⟨free, h⟩
    · exact ⟨free, h.noFault, h.linked, h.counted, h.blocks, h.reserved⟩
  | wake t =>
    change ∃ free, Reserved total (s.allocContinue t) free
    unfold Pool.allocContinue
    split
    · exact ⟨free, h.noFault, h.linked, h.counted, h.blocks, h.reserved⟩
    · -- the thread gives up its place among the resumed ones and takes its block
      have hmem : t ∈ s.resumed := hallowed.2.resolve_right ‹_›
      have hlength := length_erase_of_mem hmem
      have hpos := length_pos_of_mem hmem
      have hreserved := h.reserved
      have herased : Reserved total { s with resumed := s.resumed.erase t } free :=
        ⟨h.noFault, h.linked, h.counted, h.blocks, by simp only; omega⟩
      exact herased.pop htotal t (by simp only; omega)
  | free t b =>
    change ∃ free, Reserved total (s.rtMpFree b) free
    have hpush := h.push hallowed.2.2
    unfold Pool.rtMpFree
    split
    · rename_i hcount
      have hresumed := hpush.resumeFirst (lt_succ_of_le h.reserved) (hconsiderate hcount)
      exact ⟨_, hresumed.noFault, hresumed.linked, hresumed.counted, hresumed.blocks,
        hresumed.reserved⟩
    · exact ⟨_, hpush⟩
  | timeout t => exact ⟨free, h.noFault, h.linked, h.counted, h.blocks, h.reserved⟩

end

end Reserved

variable {size : ℕ} {s : Pool}

theorem reserved_rtMpInit {blockSize : ℕ} (hpos : 0 < blockCount size blockSize) :
    Reserved (blockCount size blockSize) (rtMpInit size blockSize)
      (range (blockCount size blockSize)) where
  noFault := rfl
  linked := by
    have := linked_initialHeader hpos
    rwa [Nat.sub_zero, ← range_eq_range'] at this
  counted := length_range.symm
  blocks := by
    rw [rtMpInit, map_nil, append_nil]
  reserved := zero_le _

theorem blockCount_lt (hsize : size < 2 ^ 32) (blockSize : ℕ) :
    blockCount size blockSize < 2 ^ 32 := by
  have hdiv := div_le_self (rtAlignDown size) ((rtAlign blockSize + 4) % 2 ^ 32)
  have hdown : rtAlignDown size ≤ size := div_mul_le_self size 4
  unfold blockCount
  omega

/-- **Exclusive blocks.**  In every run of a pool with at least one block in which no
call takes the block that a resumed thread was woken for and no call of `rt_mp_free`
counts a waiting thread that is gone, the counter tells the length of the free list,
no block has two owners and no block is taken from an empty list. -/
theorem pool_exclusive (size blockSize : ℕ) (hsize : size < 2 ^ 32)
    (hpos : 0 < blockCount size blockSize) (events : List Event)
    (hrun : Meets step (fun s e => Allowed s e ∧ Considerate s e) (rtMpInit size blockSize)
      events) :
    Exclusive (replay step (rtMpInit size blockSize) events) := by
  have hstep : ∀ s e, (∃ free, Reserved (blockCount size blockSize) s free) →
      Allowed s e ∧ Considerate s e →
      ∃ free, Reserved (blockCount size blockSize) (step s e) free :=
    fun s e ⟨_, h⟩ hmeets => h.step (blockCount_lt hsize blockSize) hmeets.1 hmeets.2
  obtain ⟨_, hfree⟩ := hrun.invariant hstep ⟨_, reserved_rtMpInit hpos⟩
  exact hfree.exclusive

/-- A pool of one block of 4 bytes whose block goes from thread 1 to thread 2, which
has waited for it without a limit. -/
def handover : List Event := [.alloc 1 0, .alloc 2 (-1), .free 1 0, .wake 2]

instance (s : Pool) : (e : Event) → Decidable (Considerate s e)
  | .alloc _ _ => inferInstanceAs (Decidable (_ → _))
  | .wake _ => inferInstanceAs (Decidable True)
  | .free _ _ => inferInstanceAs (Decidable (_ → _))
  | .timeout _ => inferInstanceAs (Decidable True)

theorem pool_exclusive_handover :
    Exclusive (replay step (rtMpInit 8 4) handover) ∧
      (replay step (rtMpInit 8 4) handover).owned = [(2, 0)] :=
  ⟨pool_exclusive 8 4 (by decide) (by decide) handover (by decide), by decide⟩

/-- Thread 1, of a higher priority than thread 2, gives the only block back and
takes it again before thread 2, resumed for it, has run.  Thread 2 then takes a
block from the empty list. -/
def overtaking : List Event := [.alloc 1 0, .alloc 2 (-1), .free 1 0, .alloc 1 0, .wake 2]

theorem empty_pop_after_overtaking :
    Meets step Allowed (rtMpInit 8 4) overtaking ∧
      (replay step (rtMpInit 8 4) overtaking).fault = some .emptyPop ∧
      (replay step (rtMpInit 8 4) overtaking).blockFreeCount = 2 ^ 32 - 1 ∧
      ¬ Exclusive (replay step (rtMpInit 8 4) overtaking) := by
  have hfault : (replay step (rtMpInit 8 4) overtaking).fault = some .emptyPop := by decide
  refine ⟨by decide, hfault, by decide, fun hexclusive => ?_⟩
  rw [hexclusive.noFault] at hfault
  cases hfault

/-! ## The number of waiting threads -/

/-- The counter tells how many threads are linked in the waiting list, so that
`rt_mp_free` finds a thread there whenever the counter is positive. -/
structure Tallied (s : Pool) : Prop where
  count : s.suspendThreadCount = s.suspendThread.length
  found : 0 < s.suspendThreadCount → s.suspendThread ≠ []

theorem tallied_iff : Tallied s ↔ s.suspendThreadCount = s.suspendThread.length := by
  refine ⟨Tallied.count, fun h => ⟨h, fun hpos hnil => ?_⟩⟩
  rw [h, hnil] at hpos
  exact lt_irrefl 0 hpos

theorem suspend_pop (s : Pool) (t : ℕ) : (s.pop t).suspendThread = s.suspendThread ∧
      (s.pop t).suspendThreadCount = s.suspendThreadCount := by
  unfold Pool.pop
  dsimp only
  split <;> exact ⟨rfl, rfl⟩

/-- Every step but the expiry of a timer keeps the count. -/
theorem Tallied.step (h : Tallied s) {e : Event} (he : ∀ t, e ≠ .timeout t) :
    Tallied (step s e) := by
  rw [tallied_iff] at h ⊢
  cases e with
  | alloc t time =>
    change (s.rtMpAlloc t time).suspendThreadCount = (s.rtMpAlloc t time).suspendThread.length
    unfold Pool.rtMpAlloc
    split
    · rw [(suspend_pop s t).1, (suspend_pop s t).2, h]
    split
    · exact h
    · exact congrArg (· + 1) h
  | wake t =>
    change (s.allocContinue t).suspendThreadCount = (s.allocContinue t).suspendThread.length
    unfold Pool.allocContinue
    split
    · exact h
    · rw [(suspend_pop _ t).1, (suspend_pop _ t).2, h]
  | free t b =>
    change (s.rtMpFree b).suspendThreadCount = (s.rtMpFree b).suspendThread.length
    unfold Pool.rtMpFree
    split
    · -- the list is not empty, because it is as long as the count says
      rename_i hpos
      cases hlist : s.suspendThread with
      | nil => rw [h, hlist] at hpos; exact absurd hpos (lt_irrefl 0)
      | cons first rest =>
        rw [h]
        simp [Pool.resumeFirst, Pool.push, hlist]
    · exact h
  | timeout t => exact absurd rfl (he t)

/-- The expiry of the timer of a waiting thread breaks it. -/
theorem Tallied.not_timeout (h : Tallied s) {t : ℕ} (ht : t ∈ s.suspendThread) :
    ¬ Tallied (s.rtThreadTimeout t) := by
  intro hafter
  have hcount : s.suspendThreadCount = (s.suspendThread.erase t).length := hafter.count
  rw [h.count, length_erase_of_mem ht] at hcount
  have := length_pos_of_mem ht
  omega

theorem tallied_run_iff (h : Tallied s) {events : List Event} (hrun : Meets step Allowed s events) :
    (∀ done, done <+: events → Tallied (replay step s done)) ↔
      ∀ e ∈ events, ∀ t, e ≠ .timeout t := by
  induction events generalizing s with
  | nil =>
    refine ⟨fun _ e he => absurd he not_mem_nil, fun _ done hdone => ?_⟩
    rw [prefix_nil.mp hdone]
    exact h
  | cons e rest ih =>
    by_cases he : ∀ t, e ≠ .timeout t
    · have hrest := ih (h.step he) hrun.2
      rw [forall_mem_cons, ← hrest]
      constructor
      · exact fun hall => ⟨he, fun done hdone =>
          hall (e :: done) (cons_prefix_cons.mpr ⟨rfl, hdone⟩)⟩
      · rintro ⟨-, hall⟩ done hdone
        rcases prefix_cons_iff.mp hdone with rfl | ⟨tail, rfl, htail⟩
        · exact h
        · exact hall tail htail
    · obtain ⟨t, rfl⟩ : ∃ t, e = .timeout t := by simpa using he
      refine ⟨fun hall => ?_, fun hall => absurd rfl (hall _ mem_cons_self t)⟩
      have hfirst := hall [.timeout t] (cons_prefix_cons.mpr ⟨rfl, nil_prefix⟩)
      exact absurd hfirst (h.not_timeout hrun.1.2.1)

/-- **The waiter count.**  In every run of every pool the counter tells the number
of waiting threads in all states exactly if no waiting thread's timer expires:
`rt_thread_timeout` takes the thread from the list and leaves the counter. -/
theorem waiter_count_iff (size blockSize : ℕ) (events : List Event)
    (hrun : Meets step Allowed (rtMpInit size blockSize) events) :
    (∀ done, done <+: events → Tallied (replay step (rtMpInit size blockSize) done)) ↔
      ∀ e ∈ events, ∀ t, e ≠ .timeout t :=
  tallied_run_iff (tallied_iff.mpr rfl) hrun

theorem waiter_count_iff_handover :
    Meets step Allowed (rtMpInit 8 4) handover ∧
      ∀ done, done <+: handover → Tallied (replay step (rtMpInit 8 4) done) :=
  ⟨by decide, (waiter_count_iff 8 4 handover (by decide)).mpr (by simp [handover])⟩

/-- Thread 2 waits 10 ticks for the only block and gives up.  When thread 1 gives
the block back, the counter still says that a thread is waiting. -/
theorem waiter_count_stale :
    Meets step Allowed (rtMpInit 8 4) [.alloc 1 0, .alloc 2 10, .timeout 2] ∧
      ¬ Tallied (replay step (rtMpInit 8 4) [.alloc 1 0, .alloc 2 10, .timeout 2]) := by
  refine ⟨by decide, fun h => ?_⟩
  have hcount := h.count
  exact absurd hcount (by decide)

end Easyio.Kernel.MemPool
