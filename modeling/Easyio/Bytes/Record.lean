import Easyio.Bytes.LittleEndian
import Easyio.Nor.Cells

/-!
# Records in a byte memory

A C structure in memory is read and written as a run of bytes at its address.
`Codec` says how its fields are laid out in these bytes.  Writing a record changes
no byte outside its run, so a record whose run is apart keeps its value.

`Changes n ws m m'` says that the memory `m'` differs from `m` only inside the runs
of `n` bytes at the addresses `ws`; what a sequence of writes leaves alone is read
off from it.
-/

namespace Easyio.Bytes

open Nor

/-- The layout of a structure with fields `α`. -/
structure Codec (α : Type*) where
  size : ℕ
  encode : α → List UInt8
  decode : List UInt8 → α
  /-- the values whose fields fit -/
  Fits : α → Prop
  length_encode : ∀ a, (encode a).length = size
  decode_encode : ∀ a, Fits a → decode (encode a) = a
  fits_decode : ∀ bytes, Fits (decode bytes)

variable {α : Type*} (codec : Codec α)

/-- The structure at `addr`. -/
def load (m : Cells) (addr : ℕ) : α := codec.decode (window m addr codec.size)

/-- `a` written at `addr`. -/
def store (m : Cells) (addr : ℕ) (a : α) : Cells := overwrite m addr (codec.encode a)

/-- Only the runs of `n` bytes at the addresses `ws` may differ. -/
def Changes (n : ℕ) (ws : List ℕ) (m m' : Cells) : Prop :=
  ∀ i, (∀ w ∈ ws, i < w ∨ w + n ≤ i) → m' i = m i

variable {codec} {m m' m'' : Cells} {addr n : ℕ} {a : α} {ws ws' : List ℕ}

theorem load_store (ha : codec.Fits a) : load codec (store codec m addr a) addr = a := by
  have hwindow := window_overwrite m addr (codec.encode a)
  rw [codec.length_encode] at hwindow
  rw [load, store, hwindow, codec.decode_encode a ha]

theorem fits_load : codec.Fits (load codec m addr) := codec.fits_decode _

namespace Changes

theorem store (m : Cells) (addr : ℕ) (a : α) :
    Changes codec.size [addr] m (store codec m addr a) := by
  intro i hi
  rcases hi addr (List.mem_singleton_self addr) with hlt | hge
  · exact overwrite_apply_of_lt _ hlt
  · exact overwrite_apply_of_ge (by rwa [codec.length_encode])

theorem load (h : Changes codec.size ws m m')
    (hapart : ∀ w ∈ ws, addr + codec.size ≤ w ∨ w + codec.size ≤ addr) :
    load codec m' addr = load codec m addr := by
  refine congrArg codec.decode (window_congr fun i hi => h _ fun w hw => ?_)
  rcases hapart w hw with hlt | hge
  · exact .inl (by omega)
  · exact .inr (by omega)

end Changes

end Easyio.Bytes
