import Easyio.Blocks.Layout
import Easyio.Bytes.Record
import Easyio.Kernel.Words

/-!
# The kernel heap

`src/mem.c`: `rt_system_heap_init`, `rt_malloc`, `rt_realloc`, `rt_calloc`, `rt_free`
and `plug_holes`, as configured (`RT_ALIGN_SIZE` 4, with statistics and assertions).
`SIZEOF_STRUCT_MEM` and `MIN_SIZE_ALIGNED` are both 12.

The heap is a byte memory.  `ram i` is the byte at `heap_ptr + i`; the headers
`struct heap_mem` lie in it, so that writing one destroys what was there.  Pointers
into the heap are kept as offsets from `heap_ptr`, as the headers do; what the callers
see are addresses, with `none` for `RT_NULL`.  A call is atomic, because it holds
`heap_sem`.

Sizes and offsets are natural numbers.  Differences and the alignment of a request
can wrap and are taken modulo 2^32; the sums cannot, because the heap ends below 2^32.
A result `none` of a function stands for a failed assertion, or for a loop that has
not ended within more steps than the heap has bytes.
-/

namespace Easyio.Kernel

open Blocks Bytes List Nor

/-- `struct heap_mem` -/
structure HeapMem where
  magic : ℕ
  used : ℕ
  next : ℕ
  prev : ℕ

/-- Two numbers of 16 and two of 32 bits. -/
def heapMemCodec : Codec HeapMem where
  size := 12
  encode m := le16 (UInt16.ofNat m.magic) ++ (le16 (UInt16.ofNat m.used) ++
    (le32 (UInt32.ofNat m.next) ++ (le32 (UInt32.ofNat m.prev) ++ [])))
  decode bytes := ⟨(getLe16 bytes 0).toNat, (getLe16 bytes 2).toNat, (getLe32 bytes 4).toNat,
    (getLe32 bytes 8).toNat⟩
  Fits m := m.magic < 2 ^ 16 ∧ m.used < 2 ^ 16 ∧ m.next < 2 ^ 32 ∧ m.prev < 2 ^ 32
  length_encode _ := rfl
  decode_encode m hm := by
    have h₁ := getLe16_le16 [] (le16 (UInt16.ofNat m.used) ++ (le32 (UInt32.ofNat m.next) ++
      (le32 (UInt32.ofNat m.prev) ++ []))) (UInt16.ofNat m.magic)
    have h₂ := getLe16_le16 (le16 (UInt16.ofNat m.magic)) (le32 (UInt32.ofNat m.next) ++
      (le32 (UInt32.ofNat m.prev) ++ [])) (UInt16.ofNat m.used)
    have h₃ := getLe32_le32 (le16 (UInt16.ofNat m.magic) ++ le16 (UInt16.ofNat m.used))
      (le32 (UInt32.ofNat m.prev) ++ []) (UInt32.ofNat m.next)
    have h₄ := getLe32_le32 (le16 (UInt16.ofNat m.magic) ++ le16 (UInt16.ofNat m.used) ++
      le32 (UInt32.ofNat m.next)) [] (UInt32.ofNat m.prev)
    simp only [nil_append, append_assoc, length_append, length_le16, length_le32,
      length_nil] at h₁ h₂ h₃ h₄
    rw [h₁, h₂, h₃, h₄, UInt16.toNat_ofNat_of_lt' hm.1, UInt16.toNat_ofNat_of_lt' hm.2.1,
      UInt32.toNat_ofNat_of_lt' hm.2.2.1, UInt32.toNat_ofNat_of_lt' hm.2.2.2]
  fits_decode bytes := ⟨UInt16.toNat_lt _, UInt16.toNat_lt _, UInt32.toNat_lt _, UInt32.toNat_lt _⟩

/-- The static variables of `mem.c`; `lfree` is the offset of the header it points to. -/
structure Heap where
  ram : Cells
  heapPtr : ℕ
  memSizeAligned : ℕ
  lfree : ℕ
  usedMem : ℕ
  maxMem : ℕ

/-- `HEAP_MAGIC` -/
def heapMagic : ℕ := 0x1ea0

namespace Heap

section

variable (h : Heap)

/-- The offset of `heap_end`. -/
def heapEnd : ℕ := h.memSizeAligned + 12

/-- The header at the offset `ptr`. -/
def mem (ptr : ℕ) : HeapMem := load heapMemCodec h.ram ptr

/-- Assignments to fields of the header at `ptr`. -/
def modify (ptr : ℕ) (f : HeapMem → HeapMem) : Heap :=
  { h with ram := store heapMemCodec h.ram ptr (f (h.mem ptr)) }

/-- The combination of two neighbours, done by `plug_holes` forward and backward. -/
def merge (left right : ℕ) : Heap :=
  let h := { h with lfree := if h.lfree = right then left else h.lfree }
  let h := h.modify left ({ · with next := (h.mem right).next })
  h.modify (h.mem right).next ({ · with prev := left })

/-- The first half of `plug_holes`: the block at `mem` takes in a free next one. -/
def plugForward (mem : ℕ) : Heap :=
  let nmem := (h.mem mem).next
  if mem ≠ nmem ∧ (h.mem nmem).used = 0 ∧ nmem ≠ h.heapEnd then h.merge mem nmem else h

/-- The second half: a free previous block takes in the one at `mem`. -/
def plugBackward (mem : ℕ) : Heap :=
  let pmem := (h.mem mem).prev
  if pmem ≠ mem ∧ (h.mem pmem).used = 0 then h.merge pmem mem else h

/-- `plug_holes` -/
def plugHoles (mem : ℕ) : Option Heap :=
  if mem < h.heapEnd ∧ (h.mem mem).used = 0 then some ((h.plugForward mem).plugBackward mem)
  else none

end

/-- `rt_system_heap_init` for the memory between two addresses, with the bytes `ram`
in it; `none` when it finds no room. -/
def rtSystemHeapInit (ram : Cells) (beginAddr endAddr : ℕ) : Option Heap :=
  let beginAlign := rtAlign beginAddr
  let endAlign := rtAlignDown endAddr
  if 2 * 12 < endAlign ∧ beginAlign ≤ endAlign - 2 * 12 then
    let h : Heap := ⟨ram, beginAlign, endAlign - beginAlign - 2 * 12, 0, 0, 0⟩
    let h := h.modify 0 fun _ => ⟨heapMagic, 0, h.heapEnd, 0⟩
    some (h.modify h.heapEnd fun _ => ⟨heapMagic, 1, h.heapEnd, h.heapEnd⟩)
  else none

variable (h : Heap)

/-- `used_mem += n` and the update of `max_mem`. -/
def account (n : ℕ) : Heap :=
  { h with usedMem := h.usedMem + n, maxMem := max h.maxMem (h.usedMem + n) }

/-- The header `ptr2` inserted between `ptr` and its next one; `fill` sets what
`rt_realloc` sets besides. -/
def split (ptr ptr2 : ℕ) (fill : HeapMem → HeapMem) : Heap :=
  let next := (h.mem ptr).next
  let h := h.modify ptr2 fun m => { fill m with used := 0, next := next, prev := ptr }
  let h := h.modify ptr ({ · with next := ptr2 })
  if next ≠ h.heapEnd then h.modify next ({ · with prev := ptr2 }) else h

/-- The loop of `rt_malloc`, from the header `ptr` on: the first one that is unused and
large enough. -/
def search (h : Heap) (size : ℕ) : ℕ → ℕ → Option (Option ℕ)
  | 0, _ => none
  | fuel + 1, ptr =>
    if ptr < sub32 h.memSizeAligned size then
      if (h.mem ptr).used = 0 ∧ size ≤ sub32 (h.mem ptr).next (ptr + 12) then some (some ptr)
      else h.search size fuel (h.mem ptr).next
    else some none

/-- The loop of `rt_malloc` that moves `lfree` on. -/
def nextFree (h : Heap) : ℕ → ℕ → Option ℕ
  | 0, _ => none
  | fuel + 1, ptr =>
    if (h.mem ptr).used ≠ 0 ∧ ptr ≠ h.heapEnd then h.nextFree fuel (h.mem ptr).next
    else some ptr

/-- What both branches of `rt_malloc` do with the block at `ptr`: it is used, counts `n`
bytes and gets its magic. -/
def claim (ptr n : ℕ) : Heap :=
  ((h.modify ptr ({ · with used := 1 })).account n).modify ptr ({ · with magic := heapMagic })

/-- The block at `ptr` taken for `size` bytes: split if another block fits behind it. -/
def occupy (ptr size : ℕ) : Heap :=
  let next := (h.mem ptr).next
  if size + 12 + 12 ≤ sub32 next (ptr + 12) then
    (h.split ptr (ptr + 12 + size) id).claim ptr (size + 12)
  else h.claim ptr (sub32 next ptr)

/-- `lfree` is moved on when the block at `ptr` was the lowest. -/
def advance (ptr : ℕ) : Option Heap :=
  if ptr = h.lfree then (h.nextFree (h.heapEnd + 1) ptr).map ({ h with lfree := · }) else some h

/-- The last assertions of `rt_malloc` and its result. -/
def handOut (ptr size : ℕ) : Option (Option ℕ × Heap) :=
  if h.heapPtr + ptr + 12 + size ≤ h.heapPtr + h.heapEnd ∧ (h.heapPtr + ptr + 12) % 4 = 0 ∧
      (h.heapPtr + ptr) % 4 = 0
  then some (some (h.heapPtr + ptr + 12), h)
  else none

/-- What `rt_malloc` does with the block it has found. -/
def take (ptr size : ℕ) : Option (Option ℕ × Heap) :=
  ((h.occupy ptr size).advance ptr).bind (·.handOut ptr size)

/-- `rt_malloc` -/
def rtMalloc (size : ℕ) : Option (Option ℕ × Heap) :=
  if size = 0 then some (none, h)
  else if h.memSizeAligned < rtAlign size then some (none, h)
  else
    -- every data block must be at least MIN_SIZE_ALIGNED long
    (h.search (max (rtAlign size) 12) (h.heapEnd + 1) h.lfree).bind fun
      | none => some (none, h)
      | some ptr => h.take ptr (max (rtAlign size) 12)

/-- The block at `ptr` is marked unused and may now be the lowest. -/
def release (ptr : ℕ) : Heap :=
  let h := h.modify ptr ({ · with used := 0, magic := 0 })
  { h with
    lfree := if ptr < h.lfree then ptr else h.lfree
    usedMem := sub32 h.usedMem (sub32 (h.mem ptr).next ptr) }

/-- `rt_free` -/
def rtFree : Option ℕ → Option Heap
  | none => some h
  | some rmem =>
    if rmem % 4 = 0 ∧ h.heapPtr ≤ rmem ∧ rmem < h.heapPtr + h.heapEnd then
      let ptr := sub32 rmem (h.heapPtr + 12)
      if (h.mem ptr).used ≠ 0 ∧ (h.mem ptr).magic = heapMagic then
        (h.release ptr).plugHoles ptr
      else none
    else none

/-- `rt_memcpy` between two addresses of the heap. -/
def rtMemcpy (dst src count : ℕ) : Heap :=
  { h with ram := overwrite h.ram (dst - h.heapPtr) (window h.ram (src - h.heapPtr) count) }

/-- The block of `size` bytes at `ptr` cut behind its first `newsize` bytes. -/
def cut (ptr size newsize : ℕ) : Heap :=
  let h := { h with usedMem := sub32 h.usedMem (size - newsize) }
  h.split ptr (ptr + 12 + newsize) ({ · with magic := heapMagic })

/-- The branch of `rt_realloc` that splits the block. -/
def shrink (ptr size newsize : ℕ) : Option Heap :=
  (h.cut ptr size newsize).plugHoles (ptr + 12 + newsize)

/-- The branch of `rt_realloc` that takes another block and copies. -/
def expand (rmem size newsize : ℕ) : Option (Option ℕ × Heap) :=
  (h.rtMalloc newsize).bind fun
    | (none, h) => some (none, h)
    | (some nmem, h) =>
      ((h.rtMemcpy nmem rmem (if size < newsize then size else newsize)).rtFree (some rmem)).map
        fun h => (some nmem, h)

/-- `rt_realloc` -/
def rtRealloc (rmem : Option ℕ) (newsize : ℕ) : Option (Option ℕ × Heap) :=
  let newsize := rtAlign newsize
  if h.memSizeAligned < newsize then some (none, h)
  else match rmem with
    | none => h.rtMalloc newsize
    | some rmem =>
      if rmem < h.heapPtr ∨ h.heapPtr + h.heapEnd ≤ rmem then some (some rmem, h)
      else
        let ptr := sub32 rmem (h.heapPtr + 12)
        let size := sub32 (sub32 (h.mem ptr).next ptr) 12
        if size = newsize then some (some rmem, h)
        else if newsize + 12 + 12 < size then
          (h.shrink ptr size newsize).map fun h => (some rmem, h)
        else h.expand rmem size newsize

/-- `rt_memset` to zero. -/
def zero (rmem count : ℕ) : Heap :=
  { h with ram := overwrite h.ram (rmem - h.heapPtr) (replicate count 0) }

/-- `rt_calloc`; the product wraps. -/
def rtCalloc (count size : ℕ) : Option (Option ℕ × Heap) :=
  let total := count * size % 2 ^ 32
  (h.rtMalloc total).map fun
    | (none, h) => (none, h)
    | (some p, h) => (some p, h.zero p total)

/-! ## Reading the state -/

/-- A header as the layout of the blocks sees it. -/
def node (ptr : ℕ) : Node := ⟨(h.mem ptr).next, (h.mem ptr).prev, (h.mem ptr).used ≠ 0⟩

/-- The blocks from `heap_ptr` to `heap_end`, read off the headers. -/
def blocks : List Block := readBlocks 12 h.node h.heapEnd h.heapEnd 0

/-- The number of bytes that the block with data at the address `rmem` can hold. -/
def usable (rmem : ℕ) : ℕ :=
  sub32 (sub32 (h.mem (sub32 rmem (h.heapPtr + 12))).next (sub32 rmem (h.heapPtr + 12))) 12

end Heap

end Easyio.Kernel
