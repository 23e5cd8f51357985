import Easyio.Kernel.HeapRealloc
import Easyio.Runs.Partial

/-!
# Runs of the kernel heap

The heap in use: any calls of `rt_malloc`, `rt_realloc` and `rt_free`, the last two with
addresses that are live, and in between the owners write into their blocks.  A run stops
when a call does not return, which it does not do (`Valid.step_isSome`), or when the users
break their side.

`Valid` is the invariant: the heap is sound, and the live addresses are those of its blocks
in use.  `Valid.step` says besides when a step keeps `lfree` at the lowest free block.
-/

namespace Easyio.Kernel.Heap

open List Option Bytes Nor Blocks Runs.Partial

/-- The heap, and the addresses that its users have got and not yet given back. -/
structure Session where
  heap : Heap
  live : List ℕ

/-- What the users do. -/
inductive Use where
  | malloc (size : UInt32)
  | realloc (rmem : ℕ) (newsize : UInt32)
  | free (rmem : ℕ)
  /-- the owner writes `byte` to `rmem[i]` -/
  | store (rmem i : ℕ) (byte : UInt8)

namespace Session

/-- The users keep to their blocks. -/
def Allowed (s : Session) : Use → Prop
  | .malloc _ => True
  | .realloc rmem _ | .free rmem => rmem ∈ s.live
  | .store rmem i _ => rmem ∈ s.live ∧ i < s.heap.usable rmem

instance (s : Session) : DecidablePred s.Allowed
  | .malloc _ => inferInstanceAs (Decidable True)
  | .realloc rmem _ | .free rmem => inferInstanceAs (Decidable (rmem ∈ s.live))
  | .store _ _ _ => inferInstanceAs (Decidable (_ ∧ _))

/-- The call of `e`, or the write. -/
def perform (s : Session) : Use → Option Session
  | .malloc size => (s.heap.rtMalloc size.toNat).map fun (p, h) => ⟨h, p.toList ++ s.live⟩
  | .realloc rmem newsize => (s.heap.rtRealloc (some rmem) newsize.toNat).map fun
      | (none, h) => ⟨h, s.live⟩
      | (some p, h) => ⟨h, p :: s.live.erase rmem⟩
  | .free rmem => (s.heap.rtFree (some rmem)).map fun h => ⟨h, s.live.erase rmem⟩
  | .store rmem i byte =>
    some { s with heap := s.heap.write (rmem - s.heap.heapPtr + i) [byte] }

def step (s : Session) (e : Use) : Option Session := if s.Allowed e then s.perform e else none

/-- What a step has to find for `lfree` to stay the lowest free block: if `rt_realloc` cuts
a block, `lfree` is in front of it or is the next one. -/
def LowestGuard (s : Session) : Use → Prop
  | .realloc rmem newsize =>
    rtAlign newsize.toNat ≤ s.heap.memSizeAligned →
      rtAlign newsize.toNat + 24 < s.heap.usable rmem →
      s.heap.addr s.heap.lfree < rmem ∨
        s.heap.addr s.heap.lfree = rmem + s.heap.usable rmem + 12 ∧ s.heap.lfree ≠ s.heap.heapEnd
  | _ => True

structure Valid (s : Session) (bs : List Block) : Prop where
  sound : Sound s.heap bs
  live : s.live.Perm ((inUse 12 0 bs).map fun r => s.heap.addr r.1)
  large : s.live ≠ [] → 12 ≤ s.heap.memSizeAligned

variable {s s' : Session} {e : Use} {bs bs' : List Block} {others : List (ℕ × Block)} {p : ℕ}

namespace Valid

theorem block (hv : Valid s bs) (hp : p ∈ s.live) :
    ∃ ptr b, p = s.heap.addr ptr ∧ (ptr, b) ∈ inUse 12 0 bs ∧ s.heap.usable p = b.size := by
  obtain ⟨⟨ptr, b⟩, hb, rfl⟩ := List.mem_map.mp (hv.live.mem_iff.mp hp)
  exact ⟨ptr, b, rfl, hb, hv.sound.usable_eq (mem_inUse.mp hb).1⟩

variable {h' : Heap} {ptr : ℕ} {b : Block}

theorem addr_eq {h : Heap} (hptr : h'.heapPtr = h.heapPtr) (ptr : ℕ) :
    h'.addr ptr = h.addr ptr := by rw [addr, addr, hptr]

theorem of_perm {live : List ℕ} (hsound : Sound h' bs') (hptr : h'.heapPtr = s.heap.heapPtr)
    (hlive : live.Perm ((inUse 12 0 bs').map fun r => s.heap.addr r.1))
    (hlarge : live ≠ [] → 12 ≤ h'.memSizeAligned) : Valid ⟨h', live⟩ bs' := by
  refine ⟨hsound, hlive.trans (.of_eq ?_), hlarge⟩
  exact map_congr_left fun r _ => (addr_eq hptr r.1).symm

theorem erase (hv : Valid s bs) (hperm : (inUse 12 0 bs).Perm ((ptr, b) :: others)) :
    (s.live.erase (s.heap.addr ptr)).Perm (others.map fun r => s.heap.addr r.1) := by
  have hmap := hv.live.trans (hperm.map fun r => s.heap.addr r.1)
  have := hmap.erase (s.heap.addr ptr)
  rwa [map_cons, erase_cons_head] at this

theorem trade (hv : Valid s bs) {r : ℕ × Block}
    (hbefore : (inUse 12 0 bs).Perm ((ptr, b) :: others))
    (hafter : (inUse 12 0 bs').Perm (r :: others)) :
    (s.heap.addr r.1 :: s.live.erase (s.heap.addr ptr)).Perm
      ((inUse 12 0 bs').map fun r => s.heap.addr r.1) :=
  ((hv.erase hbefore).cons _).trans (hafter.map fun r : ℕ × Block => s.heap.addr r.1).symm

end Valid

structure Follows (s : Session) (bs : List Block) (e : Use) (s' : Session) (bs' : List Block) :
    Prop where
  valid : Valid s' bs'
  heapPtr : s'.heap.heapPtr = s.heap.heapPtr
  memSizeAligned : s'.heap.memSizeAligned = s.heap.memSizeAligned
  lowest : Lowest s.heap bs → (Lowest s'.heap bs' ↔ s.LowestGuard e)

theorem Follows.of_leaves {h' : Heap} {live : List ℕ} (hleaves : Leaves others s.heap bs h' bs')
    (hlive : live.Perm ((inUse 12 0 bs').map fun r => s.heap.addr r.1))
    (hlarge : live ≠ [] → 12 ≤ s.heap.memSizeAligned) (hguard : s.LowestGuard e) :
    Follows s bs e ⟨h', live⟩ bs' where
  valid := .of_perm hleaves.sound hleaves.keeps.heapPtr hlive
    (hleaves.keeps.memSizeAligned.symm ▸ hlarge)
  heapPtr := hleaves.keeps.heapPtr
  memSizeAligned := hleaves.keeps.memSizeAligned
  lowest hlow := iff_of_true (hleaves.lowest hlow) hguard

namespace Valid

section

variable (hv : Valid s bs)
include hv

theorem malloc (size : UInt32) :
    s.perform (.malloc size) = none ∧ s.heap.memSizeAligned < 12 ∨
      ∃ s' bs', s.perform (.malloc size) = some s' ∧ Follows s bs (.malloc size) s' bs' := by
  by_cases hserves : s.heap.Serves size.toNat
  · obtain ⟨x, g, h', bs', heq, -, -, hperm, hleaves⟩ := hv.sound.rtMalloc hserves
    have hperform : s.perform (.malloc size) = some ⟨h', s.heap.addr x :: s.live⟩ := by
      rw [perform, heq]
      rfl
    refine .inr ⟨_, bs', hperform, .of_leaves hleaves ?_ (fun _ => ?_) trivial⟩
    · exact (hv.live.cons _).trans (hperm.map fun r : ℕ × Block => s.heap.addr r.1).symm
    · obtain ⟨-, -, r, -, hfit⟩ := hserves
      simp only [fits, decide_eq_true_eq] at hfit
      omega
  · rcases hv.sound.rtMalloc_fails hserves with hnull | ⟨hnone, htiny⟩
    · have hperform : s.perform (.malloc size) = some s := by
        rw [perform, hnull]
        rfl
      exact .inr ⟨s, bs, hperform, .of_leaves (.refl hv.sound []) hv.live hv.large trivial⟩
    · refine .inl ⟨?_, htiny⟩
      rw [perform, hnone]
      rfl

theorem free (hp : p ∈ s.live) :
    ∃ s' bs', s.perform (.free p) = some s' ∧ Follows s bs (.free p) s' bs' := by
  obtain ⟨ptr, b, rfl, hb, -⟩ := hv.block hp
  obtain ⟨h', bs', heq, hperm, hleaves⟩ := hv.sound.rtFree_leaves hb
  have hperform : s.perform (.free (s.heap.addr ptr)) =
      some ⟨h', s.live.erase (s.heap.addr ptr)⟩ := by
    rw [perform, heq]
    rfl
  exact ⟨_, bs', hperform, .of_leaves hleaves (hv.erase hperm)
    (fun _ => hv.large (ne_nil_of_mem hp)) trivial⟩

theorem store (hp : p ∈ s.live) {i : ℕ} (hi : i < s.heap.usable p) (byte : UInt8) :
    ∃ s' bs', s.perform (.store p i byte) = some s' ∧ Follows s bs (.store p i byte) s' bs' := by
  obtain ⟨ptr, b, rfl, hb, hsize⟩ := hv.block hp
  have hoffset : s.heap.addr ptr - s.heap.heapPtr + i = ptr + 12 + i := by
    rw [addr]
    omega
  have hroom : ptr + 12 + i + [byte].length ≤ ptr + 12 + b.size := by
    rw [length_singleton]
    omega
  have hleaves : Leaves [] s.heap bs (s.heap.write (ptr + 12 + i) [byte]) bs :=
    hv.sound.write_leaves hb (Nat.le_add_right ..) hroom fun r hr => absurd hr not_mem_nil
  refine ⟨_, bs, rfl, ?_⟩
  rw [hoffset]
  exact .of_leaves hleaves hv.live hv.large trivial

theorem realloc (hp : p ∈ s.live) (newsize : UInt32) :
    ∃ s' bs', s.perform (.realloc p newsize) = some s' ∧
      Follows s bs (.realloc p newsize) s' bs' := by
  obtain ⟨ptr, b, rfl, hb, husable⟩ := hv.block hp
  have hmin := hv.large (ne_nil_of_mem hp)
  obtain ⟨result, h', bs', heq, hcases⟩ := hv.sound.rtRealloc hb hmin newsize.toNat
  have hnull (hperform : s.heap.rtRealloc (some (s.heap.addr ptr)) newsize.toNat =
      some (none, s.heap)) (hguard : s.LowestGuard (.realloc (s.heap.addr ptr) newsize)) :
      ∃ s' bs', s.perform (.realloc (s.heap.addr ptr) newsize) = some s' ∧
        Follows s bs (.realloc (s.heap.addr ptr) newsize) s' bs' := by
    refine ⟨s, bs, ?_, .of_leaves (.refl hv.sound []) hv.live hv.large hguard⟩
    rw [perform, hperform]
    rfl
  have hsome {q : ℕ} {h' : Heap} (hperform : s.heap.rtRealloc (some (s.heap.addr ptr))
      newsize.toNat = some (some q, h')) : s.perform (.realloc (s.heap.addr ptr) newsize) =
        some ⟨h', q :: s.live.erase (s.heap.addr ptr)⟩ := by
    rw [perform, hperform]
    rfl
  cases hcases with
  | tooLarge hn => exact hnull heq fun hle => absurd hle (by omega)
  | same hn hsize =>
    refine ⟨_, bs, hsome heq, .of_leaves (.refl hv.sound []) ?_ (fun _ => hmin) fun _ hlt => ?_⟩
    · exact (perm_cons_erase hp).symm.trans hv.live
    · omega
  | cut others hn hsize hbefore hafter hsound hkeeps hsmall hlowest =>
    refine ⟨_, bs', hsome heq, ⟨.of_perm hsound hkeeps.heapPtr ?_ fun _ => ?_, hkeeps.heapPtr,
      hkeeps.memSizeAligned, fun hlow => (hlowest hlow).trans ?_⟩⟩
    · exact hv.trade hbefore hafter
    · rw [hkeeps.memSizeAligned]
      exact hmin
    · rw [LowestGuard, husable]
      have hlfree : s.heap.addr s.heap.lfree < s.heap.addr ptr ↔ s.heap.lfree < ptr := by
        rw [addr, addr]
        omega
      have hnext : s.heap.addr s.heap.lfree = s.heap.addr ptr + b.size + 12 ↔
          s.heap.lfree = ptr + 12 + b.size := by
        rw [addr, addr]
        omega
      rw [hlfree, hnext]
      exact ⟨fun h _ _ => h, fun h => h hn hsize⟩
  | noRoom hn hne hsize hserves => exact hnull heq fun _ hlt => by omega
  | moved g others hn hne hsize hserves hg hbefore hafter hcopied hleaves =>
    refine ⟨_, bs', hsome heq, .of_leaves hleaves ?_ (fun _ => hmin) fun _ hlt => by omega⟩
    exact hv.trade hbefore hafter

theorem perform (he : s.Allowed e) :
    s.perform e = none ∧ s.heap.memSizeAligned < 12 ∨
      ∃ s' bs', s.perform e = some s' ∧ Follows s bs e s' bs' := by
  match e with
  | .malloc size => exact hv.malloc size
  | .realloc rmem newsize => exact .inr (hv.realloc he newsize)
  | .free rmem => exact .inr (hv.free he)
  | .store rmem i byte => exact .inr (hv.store he.1 he.2 byte)

theorem step (hs : s.step e = some s') : ∃ bs', Follows s bs e s' bs' := by
  unfold Session.step at hs
  split at hs
  · next he =>
    rcases hv.perform he with ⟨hnone, -⟩ | ⟨r, bs', hr, hfollows⟩
    · exact absurd (hnone.symm.trans hs) (some_ne_none s').symm
    · obtain rfl : r = s' := some.inj (hr.symm.trans hs)
      exact ⟨bs', hfollows⟩
  · cases hs

theorem step_isSome (hsize : 12 ≤ s.heap.memSizeAligned) (he : s.Allowed e) :
    (s.step e).isSome := by
  rw [Session.step, if_pos he]
  rcases hv.perform he with ⟨-, htiny⟩ | ⟨s', -, hs', -⟩
  · omega
  · rw [hs']
    rfl

end

end Valid

end Session

/-! ## The first heap -/

variable {h : Heap}

theorem sound_single (hptr : 4 ∣ h.heapPtr) (hsize : 4 ∣ h.memSizeAligned)
    (hbound : h.heapPtr + h.heapEnd + 12 < 2 ^ 32) (husedMem : h.usedMem = 0) (hlfree : h.lfree = 0)
    (hzero : h.mem 0 = ⟨heapMagic, 0, h.heapEnd, 0⟩)
    (hlast : h.mem h.heapEnd = ⟨heapMagic, 1, h.heapEnd, h.heapEnd⟩) :
    Sound h [⟨h.memSizeAligned, false⟩] ∧ Lowest h [⟨h.memSizeAligned, false⟩] := by
  have hextent : extent 12 [⟨h.memSizeAligned, false⟩] = h.heapEnd := by
    simp only [extent, heapEnd]
    omega
  have htiled : Tiled h [⟨h.memSizeAligned, false⟩] := by
    refine ⟨⟨?_, trivial⟩, hextent, ?_, ?_, hbound⟩
    · rw [node, hzero]
      simp only [heapEnd, Node.mk.injEq, ne_eq, not_true_eq_false, decide_false, and_true]
      omega
    · rw [hlast]
      exact Nat.one_ne_zero
    · rw [hlast]
  have hnone : ∀ r, r ∉ inUse 12 0 [⟨h.memSizeAligned, false⟩] := fun r => not_mem_nil
  refine ⟨⟨⟨htiled, hptr, fun b hb => ?_, fun r hr => absurd hr (hnone r),
    fun r hr => absurd hr (hnone r), husedMem, ?_⟩, isChain_singleton _⟩, hlfree⟩
  · rw [mem_singleton.mp hb]
    exact hsize
  · rw [hlfree]
    exact .inr ⟨_, mem_singleton_self _⟩

theorem mem_headers (hbound : h.heapEnd < 2 ^ 32) :
    ((h.modify 0 fun _ => ⟨heapMagic, 0, h.heapEnd, 0⟩).modify h.heapEnd fun _ =>
      ⟨heapMagic, 1, h.heapEnd, h.heapEnd⟩).mem 0 = ⟨heapMagic, 0, h.heapEnd, 0⟩ ∧
    ((h.modify 0 fun _ => ⟨heapMagic, 0, h.heapEnd, 0⟩).modify h.heapEnd fun _ =>
      ⟨heapMagic, 1, h.heapEnd, h.heapEnd⟩).mem h.heapEnd =
        ⟨heapMagic, 1, h.heapEnd, h.heapEnd⟩ := by
  have hmagic : heapMagic < 2 ^ 16 := by decide
  have hapart : Apart 12 0 h.heapEnd := .inl (Nat.le_add_left ..)
  refine ⟨?_, mem_modify_self fun _ _ => ⟨hmagic, by simp, hbound, hbound⟩⟩
  rw [mem_modify_of_apart hapart,
    mem_modify_self fun _ _ => ⟨hmagic, Nat.two_pow_pos 16, hbound, Nat.two_pow_pos 32⟩]

theorem sound_rtSystemHeapInit {ram : Cells} {beginAddr endAddr : ℕ} (hend : endAddr < 2 ^ 32)
    (hinit : rtSystemHeapInit ram beginAddr endAddr = some h) :
    Sound h [⟨h.memSizeAligned, false⟩] ∧ Lowest h [⟨h.memSizeAligned, false⟩] := by
  unfold rtSystemHeapInit at hinit
  simp only at hinit
  split at hinit
  swap
  · cases hinit
  next hroom =>
  have hbegin : 4 ∣ rtAlign beginAddr := Nat.dvd_mul_left ..
  have hdown : rtAlignDown endAddr ≤ endAddr ∧ 4 ∣ rtAlignDown endAddr :=
    ⟨Nat.div_mul_le_self .., Nat.dvd_mul_left ..⟩
  have hsize : 4 ∣ rtAlignDown endAddr - rtAlign beginAddr - 2 * 12 := by omega
  have hbound : rtAlign beginAddr + (rtAlignDown endAddr - rtAlign beginAddr - 2 * 12 + 12) + 12 <
      2 ^ 32 := by omega
  obtain ⟨hfirst, hlast⟩ := mem_headers (h := ⟨ram, rtAlign beginAddr,
    rtAlignDown endAddr - rtAlign beginAddr - 2 * 12, 0, 0, 0⟩) (by
      simp only [heapEnd]
      omega)
  rw [← some.inj hinit]
  exact sound_single hbegin hsize hbound rfl rfl hfirst hlast

/-! ## Runs -/

namespace Session

variable {s : Session} {bs : List Block} {h : Heap} {ram : Cells} {beginAddr endAddr : UInt32}
  {events : List Use}

/-- A session with a heap of `size` data bytes. -/
def Sized (size : ℕ) (s : Session) : Prop := s.heap.memSizeAligned = size ∧ ∃ bs, Valid s bs

theorem valid_of_run (hinit : rtSystemHeapInit ram beginAddr.toNat endAddr.toNat = some h)
    (hrun : run step ⟨h, []⟩ events = some s) :
    Valid s s.heap.blocks ∧ s.heap.memSizeAligned = h.memSizeAligned := by
  have hsound := (sound_rtSystemHeapInit endAddr.toNat_lt hinit).1
  have hstart : Valid ⟨h, []⟩ [⟨h.memSizeAligned, false⟩] :=
    ⟨hsound, .refl [], fun hne => absurd rfl hne⟩
  have hstep : ∀ s e s', Sized h.memSizeAligned s → s.step e = some s' →
      Sized h.memSizeAligned s' := by
    rintro s e s' ⟨hsize, bs, hv⟩ hs
    obtain ⟨bs', hfollows⟩ := hv.step hs
    exact ⟨hfollows.memSizeAligned.trans hsize, bs', hfollows.valid⟩
  obtain ⟨hsize, bs, hv⟩ := run_invariant hstep hrun ⟨rfl, _, hstart⟩
  rw [hv.sound.tiled.blocks_eq]
  exact ⟨hv, hsize⟩

/-- What the users and `list_mem` rely on, in terms of the blocks that the headers
describe: the headers fill the heap, each with the offsets of the next and of the one
before; free blocks are apart; the live addresses are those of the blocks in use, their
data are aligned, disjoint and outside of the headers, and `used_mem` is what they take. -/
structure Tidy (s : Session) : Prop where
  linked : Laid 12 s.heap.node 0 0 s.heap.blocks
  filled : extent 12 s.heap.blocks = s.heap.heapEnd
  separate : Separate s.heap.blocks
  live : s.live.Perm ((inUse 12 0 s.heap.blocks).map fun r => s.heap.addr r.1)
  aligned : ∀ p ∈ s.live, 4 ∣ p
  disjoint : s.live.Pairwise fun p q =>
    p + s.heap.usable p + 12 ≤ q ∨ q + s.heap.usable q + 12 ≤ p
  outside : ∀ p ∈ s.live, ∀ x, Start 12 0 s.heap.blocks x →
    s.heap.heapPtr + x + 12 ≤ p ∨ p + s.heap.usable p ≤ s.heap.heapPtr + x
  usedMem : s.heap.usedMem = usedBytes s.heap.blocks

theorem Valid.tidy (hv : Valid s s.heap.blocks) : Tidy s where
  linked := hv.sound.tiled.laid
  filled := hv.sound.tiled.extent_eq
  separate := hv.sound.separate
  live := hv.live
  usedMem := hv.sound.usedMem
  aligned p hp := by
    obtain ⟨ptr, b, rfl, hb, -⟩ := hv.block hp
    have hptr := hv.sound.heapPtr_aligned
    have hplace : 4 ∣ ptr := hv.sound.place_aligned (mem_inUse.mp hb).1
    rw [addr]
    omega
  disjoint := by
    have hsymm : ∀ {p q : ℕ}, (p + s.heap.usable p + 12 ≤ q ∨ q + s.heap.usable q + 12 ≤ p) →
        (q + s.heap.usable q + 12 ≤ p ∨ p + s.heap.usable p + 12 ≤ q) := Or.symm
    rw [hv.live.pairwise_iff hsymm, pairwise_map]
    refine ((pairwise_placed 0 s.heap.blocks).filter (·.2.used)).imp_of_mem ?_
    intro r r' hr hr' hle
    rw [hv.sound.usable_eq (mem_inUse.mp hr).1]
    left
    rw [addr, addr]
    omega
  outside p hp x hx := by
    obtain ⟨ptr, b, rfl, hb, husable⟩ := hv.block hp
    have houtside := hx.outside (mem_inUse.mp hb).1
    rw [husable, addr]
    simp only at houtside
    omega

/-- **The kernel heap.**  In every run of any calls on live blocks, from a heap of at least
24 data bytes and with any contents the owners write, the heap is tidy, and the next call
returns. -/
theorem heap_invariant (hinit : rtSystemHeapInit ram beginAddr.toNat endAddr.toNat = some h)
    (hsize : 24 ≤ h.memSizeAligned) (hrun : run step ⟨h, []⟩ events = some s) :
    Tidy s ∧ ∀ e, s.Allowed e → (s.step e).isSome := by
  obtain ⟨hv, hsame⟩ := valid_of_run hinit hrun
  exact ⟨hv.tidy, fun e he => hv.step_isSome (by omega) he⟩

/-- A heap of 64 data bytes at the address 256. -/
def smallHeap : Heap := (rtSystemHeapInit (fun _ => 0) 256 344).get (by decide)

theorem init_smallHeap : rtSystemHeapInit (fun _ => 0) (256 : UInt32).toNat (344 : UInt32).toNat =
    some smallHeap :=
  (some_get _).symm

/-- Two blocks are taken and the first one is given back. -/
theorem heap_invariant_small :
    ∃ s, run step ⟨smallHeap, []⟩ [.malloc 10, .malloc 8, .free 268] = some s ∧
      s.live = [292] ∧ Tidy s :=
  exists_of_any (·.live = [292]) (by decide +kernel) fun _ hrun hlive =>
    ⟨hlive, (heap_invariant init_smallHeap (by decide) hrun).1⟩

/-- **No memory is lost**: when all is given back, the heap is a single free block again. -/
theorem all_given_back (hinit : rtSystemHeapInit ram beginAddr.toNat endAddr.toNat = some h)
    (hrun : run step ⟨h, []⟩ events = some s) (hlive : s.live = []) :
    s.heap.blocks = [⟨h.memSizeAligned, false⟩] ∧ s.heap.usedMem = 0 := by
  obtain ⟨hv, hsame⟩ := valid_of_run hinit hrun
  obtain ⟨-, hfilled, hseparate, hperm, -, -, -, husedMem⟩ := hv.tidy
  have hnone : inUse 12 0 s.heap.blocks = [] := by simpa [hlive] using hperm
  refine ⟨?_, by simp [husedMem, usedBytes, hnone]⟩
  rw [heapEnd, hsame] at hfilled
  rcases hblocks : s.heap.blocks with - | ⟨⟨size, used⟩, - | ⟨c, rest⟩⟩ <;>
    rw [hblocks] at hfilled hseparate hnone
  · simp [extent] at hfilled
  · have hfree : used = false := by simpa [inUse, placed] using hnone
    have hsize : size = h.memSizeAligned := by simpa [extent, Nat.add_comm] using hfilled
    rw [hfree, hsize]
  · -- two neighbours would both be free
    have hapart := (isChain_cons_cons.mp hseparate).1
    simp_all [inUse, placed]

theorem all_given_back_two :
    ∃ s, run step ⟨smallHeap, []⟩ [.malloc 10, .malloc 8, .free 268, .free 292] = some s ∧
      s.heap.blocks = [⟨64, false⟩] :=
  exists_of_any (·.live = []) (by decide +kernel) fun _ hrun hlive =>
    (all_given_back init_smallHeap hrun hlive).1

end Session

end Easyio.Kernel.Heap
