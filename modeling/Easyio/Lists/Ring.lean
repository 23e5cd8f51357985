import Mathlib.Algebra.Group.Nat.Defs
import Mathlib.Data.List.Nodup
import Mathlib.Data.Set.Insert

/-!
# Circular doubly linked lists

Intrusive lists as C kernels use them: every node has a `next` and a `prev` link,
a list is a ring through a head node that carries no data, and an empty list is a
head that points to itself.  The operations do the pointer assignments one after
the other, so that they also say what happens to a node that is inserted twice.

`Chain l a xs b` says that the links lead from `a` through `xs` to `b` and back;
chains are cut and joined at a node (`chain_append`) and only depend on the links
they pass (`Chain.congr`).  `Ring l h xs` is a chain from the head to itself
without a repeated node.  Insertion and removal are shown on chains first, where
the place of the operation is the front of the chain, and then on rings.
-/

namespace Easyio.Lists

open Function List

variable {ν : Type*}

/-- The link fields of every node. -/
structure Links (ν : Type*) where
  next : ν → ν
  prev : ν → ν

namespace Links

/-- The same links read backwards. -/
def flip (l : Links ν) : Links ν := ⟨l.prev, l.next⟩

/-- The list with head `h` is empty. -/
def IsEmpty (l : Links ν) (h : ν) : Prop := l.next h = h

variable [DecidableEq ν]

instance (l : Links ν) (h : ν) : Decidable (l.IsEmpty h) :=
  inferInstanceAs (Decidable (l.next h = h))

variable (l : Links ν)

def setNext (n m : ν) : Links ν := { l with next := update l.next n m }

def setPrev (n m : ν) : Links ν := { l with prev := update l.prev n m }

/-- Make `h` the head of an empty list. -/
def init (h : ν) : Links ν := (l.setNext h h).setPrev h h

/-- Insert the node `n` after `a`. -/
def insertAfter (a n : ν) : Links ν :=
  let l₁ := l.setPrev (l.next a) n
  let l₂ := l₁.setNext n (l₁.next a)
  let l₃ := l₂.setNext a n
  l₃.setPrev n a

/-- Take the node `n` out of its list and make it point to itself. -/
def remove (n : ν) : Links ν :=
  let l₁ := l.setPrev (l.next n) (l.prev n)
  let l₂ := l₁.setNext (l₁.prev n) (l₁.next n)
  (l₂.setNext n n).setPrev n n

/-! ## What the operations change -/

theorem next_insertAfter (a n m : ν) :
    (l.insertAfter a n).next m = if m = a then n else if m = n then l.next a else l.next m := by
  simp [insertAfter, setNext, setPrev, update_apply]

theorem prev_insertAfter (a n m : ν) :
    (l.insertAfter a n).prev m = if m = n then a else if m = l.next a then n else l.prev m := by
  simp [insertAfter, setNext, setPrev, update_apply]

theorem next_remove (n m : ν) (hn : l.next n ≠ n) :
    (l.remove n).next m = if m = n then n else if m = l.prev n then l.next n else l.next m := by
  simp [remove, setNext, setPrev, update_apply, hn.symm]

theorem prev_remove (n m : ν) :
    (l.remove n).prev m = if m = n then n else if m = l.next n then l.prev n else l.prev m := by
  simp [remove, setNext, setPrev, update_apply]

/-- Nothing happens to a node that is in no list. -/
theorem remove_of_next_eq {n : ν} (hnext : l.next n = n) (hprev : l.prev n = n) :
    l.remove n = l := by
  have hn : update l.next n n = l.next := update_eq_self_iff.mpr hnext.symm
  have hp : update l.prev n n = l.prev := update_eq_self_iff.mpr hprev.symm
  simp [remove, setNext, setPrev, hnext, hprev, hn, hp]

end Links

/-! ## Chains -/

/-- The links lead from `a` through `xs` to `b`, and back. -/
def Chain (l : Links ν) : ν → List ν → ν → Prop
  | a, [], b => l.next a = b ∧ l.prev b = a
  | a, x :: xs, b => l.next a = x ∧ l.prev x = a ∧ Chain l x xs b

variable {l l' : Links ν} {a b n x : ν} {xs ys : List ν}

theorem chain_append : Chain l a (xs ++ x :: ys) b ↔ Chain l a xs x ∧ Chain l x ys b := by
  induction xs generalizing a with
  | nil => simp only [nil_append, Chain, and_assoc]
  | cons y xs ih => simp only [cons_append, Chain, ih, and_assoc]

section

variable (h : Chain l a xs b)
include h

theorem Chain.congr (hnext : ∀ m ∈ a :: xs, l'.next m = l.next m)
    (hprev : ∀ m ∈ xs ++ [b], l'.prev m = l.prev m) : Chain l' a xs b := by
  induction xs generalizing a with
  | nil =>
    obtain ⟨hab, hba⟩ := h
    exact ⟨(hnext a (by simp)).trans hab, (hprev b (by simp)).trans hba⟩
  | cons y xs ih =>
    obtain ⟨hay, hya, hrest⟩ := h
    refine ⟨(hnext a (by simp)).trans hay, (hprev y (by simp)).trans hya, ih hrest ?_ ?_⟩
    · exact fun m hm => hnext m (mem_cons_of_mem _ hm)
    · exact fun m hm => hprev m (mem_cons_of_mem _ hm)

theorem Chain.flip : Chain l.flip b xs.reverse a := by
  induction xs generalizing a with
  | nil => exact ⟨h.2, h.1⟩
  | cons y xs ih =>
    obtain ⟨hay, hya, hrest⟩ := h
    rw [reverse_cons]
    exact chain_append.mpr ⟨ih hrest, hya, hay⟩

theorem Chain.next_eq : (xs ++ [b]).head? = some (l.next a) := by
  cases xs with
  | nil | cons y xs => rw [← h.1]; rfl

theorem Chain.next_mem : l.next a ∈ xs ++ [b] := mem_of_mem_head? h.next_eq

theorem Chain.unique (h' : Chain l a ys b) (hxs : b ∉ xs) (hys : b ∉ ys) : xs = ys := by
  induction xs generalizing a ys with
  | nil =>
    cases ys with
    | nil => rfl
    | cons y ys => simp [← h'.1, h.1] at hys
  | cons x xs ih =>
    cases ys with
    | nil => simp [← h.1, h'.1] at hxs
    | cons y ys =>
      obtain ⟨rfl, -, hrest⟩ := h
      obtain ⟨rfl, -, hrest'⟩ := h'
      rw [ih hrest hrest' (not_mem_of_not_mem_cons hxs) (not_mem_of_not_mem_cons hys)]

end

/-- A chain given another first node: the second node gets a new link back, and all
others keep their links. -/
theorem Chain.replaceFirst {a' : ν} (h : Chain l a xs b) (hnodup : (xs ++ [b]).Nodup)
    (hfirst : l'.next a' = l.next a) (hback : l'.prev (l.next a) = a')
    (hnext : ∀ m ∈ xs, l'.next m = l.next m)
    (hprev : ∀ m ∈ xs ++ [b], m ≠ l.next a → l'.prev m = l.prev m) : Chain l' a' xs b := by
  cases xs with
  | nil => exact ⟨hfirst.trans h.1, h.1 ▸ hback⟩
  | cons y xs =>
    obtain ⟨rfl, -, hrest⟩ := h
    refine ⟨hfirst, hback, hrest.congr hnext fun m hm => hprev m (mem_cons_of_mem _ hm) ?_⟩
    rintro rfl
    exact (nodup_cons.mp hnodup).1 hm

section Operations

variable [DecidableEq ν]

instance Chain.decidable (l : Links ν) (b : ν) : (a : ν) → (xs : List ν) →
    Decidable (Chain l a xs b)
  | _, [] => inferInstanceAs (Decidable (_ ∧ _))
  | _, x :: xs =>
    have := decidable l b x xs
    inferInstanceAs (Decidable (_ ∧ _ ∧ _))

theorem Chain.insertAfter (h : Chain l a xs b) (hsources : n ∉ a :: xs)
    (htargets : n ∉ xs ++ [b]) (ha : a ∉ xs) (hnodup : (xs ++ [b]).Nodup) :
    Chain (l.insertAfter a n) a (n :: xs) b := by
  have hna : n ≠ a := fun he => hsources (he ▸ mem_cons_self ..)
  have hne : l.next a ≠ n := fun he => htargets (he ▸ h.next_mem)
  refine ⟨by simp [Links.next_insertAfter], by simp [Links.prev_insertAfter],
    h.replaceFirst hnodup ?_ ?_ ?_ ?_⟩
  · rw [Links.next_insertAfter, if_neg hna, if_pos rfl]
  · rw [Links.prev_insertAfter, if_neg hne, if_pos rfl]
  · intro m hm
    have hma : m ≠ a := fun he => ha (he ▸ hm)
    have hmn : m ≠ n := fun he => hsources (mem_cons_of_mem _ (he ▸ hm))
    rw [Links.next_insertAfter, if_neg hma, if_neg hmn]
  · intro m hm hfirst
    have hmn : m ≠ n := fun he => htargets (he ▸ hm)
    rw [Links.prev_insertAfter, if_neg hmn, if_neg hfirst]

theorem Chain.remove (h : Chain l a (n :: xs) b) (hsources : n ∉ a :: xs)
    (htargets : n ∉ xs ++ [b]) (ha : a ∉ xs) (hnodup : (xs ++ [b]).Nodup) :
    Chain (l.remove n) a xs b := by
  obtain ⟨-, hna, hrest⟩ := h
  have hne : l.next n ≠ n := fun he => htargets (he ▸ hrest.next_mem)
  have hnea : a ≠ n := fun he => hsources (he ▸ mem_cons_self ..)
  refine hrest.replaceFirst hnodup ?_ ?_ ?_ ?_
  · rw [Links.next_remove _ _ _ hne, if_neg hnea, if_pos hna.symm]
  · rw [Links.prev_remove, if_neg hne, if_pos rfl, hna]
  · intro m hm
    have hmn : m ≠ n := fun he => hsources (mem_cons_of_mem _ (he ▸ hm))
    have hma : m ≠ a := fun he => ha (he ▸ hm)
    rw [Links.next_remove _ _ _ hne, if_neg hmn, hna, if_neg hma]
  · intro m hm hfirst
    have hmn : m ≠ n := fun he => htargets (he ▸ hm)
    rw [Links.prev_remove, if_neg hmn, if_neg hfirst]

end Operations

/-! ## Rings -/

/-- The list with head `h` holds the nodes `xs` in this order. -/
structure Ring (l : Links ν) (h : ν) (xs : List ν) : Prop where
  chain : Chain l h xs h
  nodup : (h :: xs).Nodup

variable {h : ν}

theorem Ring.congr (hring : Ring l h xs)
    (hagree : ∀ m ∈ h :: xs, l'.next m = l.next m ∧ l'.prev m = l.prev m) : Ring l' h xs where
  chain := hring.chain.congr (fun m hm => (hagree m hm).1) fun m hm => (hagree m (by
    simpa [or_comm] using hm)).2
  nodup := hring.nodup

theorem Ring.notMem_head (hring : Ring l h xs) : h ∉ xs := (nodup_cons.mp hring.nodup).1

/-- Both links of a node of the ring lead to nodes of the ring. -/
theorem Ring.next_mem (hring : Ring l h xs) (hx : x ∈ h :: xs) : l.next x ∈ h :: xs := by
  rcases mem_cons.mp hx with rfl | hx
  · simpa [or_comm] using hring.chain.next_mem
  · obtain ⟨front, back, rfl⟩ := append_of_mem hx
    have := (chain_append.mp hring.chain).2.next_mem
    simp only [mem_append, mem_cons] at this ⊢
    tauto

/-- A ring seen from one of its nodes. -/
theorem Ring.rotate (hring : Ring l h (xs ++ a :: ys)) : Ring l a (ys ++ h :: xs) where
  chain := chain_append.mpr (chain_append.mp hring.chain).symm
  nodup := by
    have hnodup : ((h :: xs) ++ (a :: ys)).Nodup := hring.nodup
    exact nodup_append_comm.mp hnodup

theorem Ring.flip (hring : Ring l h xs) : Ring l.flip h xs.reverse where
  chain := hring.chain.flip
  nodup := by simpa using hring.nodup

theorem Ring.prev_mem (hring : Ring l h xs) (hx : x ∈ h :: xs) : l.prev x ∈ h :: xs := by
  have := hring.flip.next_mem (by simpa using hx)
  simpa [Links.flip] using this

/-- A set that following `next` does not leave holds the head as soon as it holds
the first node: every walk over a ring comes back. -/
theorem Ring.mem_of_closed (hring : Ring l h xs) {S : Set ν} (hclosed : ∀ m ∈ S, l.next m ∈ S)
    (hfirst : l.next h ∈ S) : h ∈ S := by
  have hchain := hring.chain
  -- the last node of a chain is in the set when the second is
  have hlast : ∀ {a : ν} {xs : List ν}, Chain l a xs h → l.next a ∈ S → h ∈ S := by
    intro a xs
    induction xs generalizing a with
    | nil => exact fun hc ha => hc.1 ▸ ha
    | cons y xs ih => exact fun hc ha => ih hc.2.2 (hclosed y (hc.1 ▸ ha))
  exact hlast hchain hfirst

/-- Following `next` from the head never comes back to it. -/
def Adrift (l : Links ν) (h : ν) : Prop := ∃ S : Set ν, l.next h ∈ S ∧ h ∉ S ∧ ∀ m ∈ S, l.next m ∈ S

theorem Adrift.not_ring (hadrift : Adrift l h) : ¬ Ring l h xs := by
  obtain ⟨S, hfirst, hhead, hclosed⟩ := hadrift
  exact fun hring => hhead (hring.mem_of_closed hclosed hfirst)

theorem ring_isEmpty (hring : Ring l h xs) : l.IsEmpty h ↔ xs = [] := by
  cases xs with
  | nil => simp [Links.IsEmpty, hring.chain.1]
  | cons y xs =>
    have hne : y ≠ h := fun he => hring.notMem_head (by simp [he])
    simp [Links.IsEmpty, hring.chain.1, hne]

theorem Ring.next_ne_self (hring : Ring l h xs) (hx : x ∈ xs) : l.next x ≠ x := by
  obtain ⟨front, back, rfl⟩ := append_of_mem hx
  intro hself
  have := (ring_isEmpty hring.rotate).mp hself
  simp at this

section Operations

variable [DecidableEq ν] {ns : List ν}

theorem Ring.insertAfter_head (hring : Ring l h xs) (hn : n ∉ h :: xs) :
    Ring (l.insertAfter h n) h (n :: xs) where
  chain := hring.chain.insertAfter hn (by simpa [or_comm] using hn) hring.notMem_head
    (nodup_append_comm.mpr hring.nodup)
  nodup := by
    have := hring.nodup
    simp only [nodup_cons, mem_cons] at hn this ⊢
    tauto

theorem Ring.insertAfter (hring : Ring l h (xs ++ a :: ys)) (hn : n ∉ h :: (xs ++ a :: ys)) :
    Ring (l.insertAfter a n) h (xs ++ a :: n :: ys) := by
  have hfront := hring.rotate.insertAfter_head (by
    simp only [mem_cons, mem_append] at hn ⊢
    tauto)
  exact hfront.rotate

theorem Ring.remove_first (hring : Ring l h (n :: xs)) : Ring (l.remove n) h xs := by
  have hnodup := hring.nodup
  simp only [nodup_cons, mem_cons, not_or] at hnodup
  obtain ⟨⟨hhn, hhxs⟩, hnxs, hxs⟩ := hnodup
  have hnh : n ∉ h :: xs := by simp [Ne.symm hhn, hnxs]
  have hnodup : (h :: xs).Nodup := nodup_cons.mpr ⟨hhxs, hxs⟩
  exact ⟨hring.chain.remove hnh (by simpa [or_comm] using hnh) hhxs
    (nodup_append_comm.mpr hnodup), hnodup⟩

theorem Ring.remove (hring : Ring l h (xs ++ n :: ys)) : Ring (l.remove n) h (xs ++ ys) := by
  rcases eq_nil_or_concat xs with rfl | ⟨front, p, rfl⟩
  · exact hring.remove_first
  · -- seen from the node before it, the removed node is the first
    rw [concat_eq_append, append_assoc] at hring ⊢
    exact hring.rotate.remove_first.rotate

/-! ## Inserting nodes at the front

A node that is in the ring already and is inserted again closes a loop without
the head, and what is inserted later only lengthens the way into the loop. -/

theorem Ring.adrift_insertAfter (hring : Ring l h xs) (hn : n ∈ xs) :
    Adrift (l.insertAfter h n) h := by
  obtain ⟨front, back, rfl⟩ := append_of_mem hn
  have hhead := hring.notMem_head
  simp only [mem_append, mem_cons, not_or] at hhead
  have hfront := (chain_append.mp hring.chain).1
  refine ⟨{m | m ∈ front ++ [n]}, by simp [Links.next_insertAfter], by simp [hhead], ?_⟩
  intro m hm
  rw [Links.next_insertAfter, if_neg fun he => by simp [he, hhead] at hm]
  split
  · exact hfront.next_mem
  · have hm : m ∈ front := by simpa [*] using hm
    obtain ⟨before, after, rfl⟩ := append_of_mem hm
    have hnext := (chain_append.mp hfront).2.next_mem
    simp only [mem_append] at hnext ⊢
    tauto

theorem Adrift.insertAfter (hadrift : Adrift l h) (hn : n ≠ h) : Adrift (l.insertAfter h n) h := by
  obtain ⟨S, hfirst, hhead, hclosed⟩ := hadrift
  refine ⟨insert n S, by simp [Links.next_insertAfter], by simp [hn.symm, hhead], ?_⟩
  intro m hm
  have hmh : m ≠ h := by
    rintro rfl
    exact hm.elim (fun he => hn he.symm) hhead
  rw [Links.next_insertAfter, if_neg hmh]
  split
  · exact Set.mem_insert_of_mem n hfirst
  · exact Set.mem_insert_of_mem n (hclosed m (hm.resolve_left ‹_›))

/-- `ns` inserted at the front of the list, one after the other. -/
def Links.insertAll (l : Links ν) (h : ν) (ns : List ν) : Links ν :=
  ns.foldl (fun l n => l.insertAfter h n) l

theorem Adrift.insertAll (hadrift : Adrift l h) (hns : h ∉ ns) : Adrift (l.insertAll h ns) h := by
  induction ns generalizing l with
  | nil => exact hadrift
  | cons n ns ih =>
    rw [mem_cons, not_or] at hns
    exact ih (hadrift.insertAfter (Ne.symm hns.1)) hns.2

theorem Ring.insertAll (hring : Ring l h xs) (hns : h ∉ ns) (hnodup : (ns ++ xs).Nodup) :
    Ring (l.insertAll h ns) h (ns.reverse ++ xs) := by
  induction ns generalizing l xs with
  | nil => exact hring
  | cons n ns ih =>
    rw [mem_cons, not_or] at hns
    rw [cons_append, nodup_cons, mem_append, not_or] at hnodup
    have hmiddle : (ns ++ n :: xs).Nodup :=
      perm_middle.nodup_iff.mpr (nodup_cons.mpr ⟨by simp [hnodup.1], hnodup.2⟩)
    have := ih (hring.insertAfter_head (by simp [Ne.symm hns.1, hnodup.1])) hns.2 hmiddle
    rwa [reverse_cons, append_assoc]

/-- Inserting nodes at the front keeps a ring exactly if none of them is inserted
twice or was there before. -/
theorem ring_insertAll_iff (hring : Ring l h xs) (hns : h ∉ ns) :
    (∃ ys, Ring (l.insertAll h ns) h ys) ↔ (ns ++ xs).Nodup := by
  refine ⟨?_, fun hnodup => ⟨_, hring.insertAll hns hnodup⟩⟩
  induction ns generalizing l xs with
  | nil => exact fun _ => (nodup_cons.mp hring.nodup).2
  | cons n ns ih =>
    rintro ⟨ys, hys⟩
    rw [mem_cons, not_or] at hns
    by_cases hn : n ∈ xs
    · exact absurd hys ((hring.adrift_insertAfter hn).insertAll hns.2).not_ring
    · have hfresh : n ∉ h :: xs := by simp [Ne.symm hns.1, hn]
      exact perm_middle.nodup_iff.mp (ih (hring.insertAfter_head hfresh) hns.2 ⟨ys, hys⟩)

end Operations

end Easyio.Lists
