import Mathlib.Algebra.Group.Nat.Defs
import Mathlib.Data.List.Basic
import Mathlib.Data.Nat.Basic

/-!
# Little-endian integers

The bytes of 16- and 32-bit integers as a little-endian machine stores them, and
back.  Decoding reads out of a longer byte string at an offset, which is how a
packed structure is read.
-/

namespace Easyio.Bytes

/-- The two bytes of a `u16`. -/
def le16 (x : UInt16) : List UInt8 := [UInt8.ofNat x.toNat, UInt8.ofNat (x.toNat / 256)]

/-- The four bytes of a `u32`. -/
def le32 (x : UInt32) : List UInt8 :=
  [UInt8.ofNat x.toNat, UInt8.ofNat (x.toNat / 256), UInt8.ofNat (x.toNat / 65536),
    UInt8.ofNat (x.toNat / 16777216)]

/-- The `u16` stored at `offset`. -/
def getLe16 (bytes : List UInt8) (offset : ℕ) : UInt16 :=
  UInt16.ofNat ((bytes.getD offset 0).toNat + 256 * (bytes.getD (offset + 1) 0).toNat)

/-- The `u32` stored at `offset`. -/
def getLe32 (bytes : List UInt8) (offset : ℕ) : UInt32 :=
  UInt32.ofNat ((bytes.getD offset 0).toNat + 256 * (bytes.getD (offset + 1) 0).toNat +
    65536 * (bytes.getD (offset + 2) 0).toNat + 16777216 * (bytes.getD (offset + 3) 0).toNat)

@[simp] theorem length_le16 (x : UInt16) : (le16 x).length = 2 := rfl

@[simp] theorem length_le32 (x : UInt32) : (le32 x).length = 4 := rfl

variable (front back : List UInt8)

theorem getD_append_add (i : ℕ) : (front ++ back).getD (front.length + i) 0 = back.getD i 0 := by
  simp [List.getElem?_append_right]

theorem getLe16_le16 (x : UInt16) : getLe16 (front ++ (le16 x ++ back)) front.length = x := by
  have h0 := getD_append_add front (le16 x ++ back) 0
  have h1 := getD_append_add front (le16 x ++ back) 1
  have hx := x.toNat_lt
  rw [Nat.add_zero] at h0
  apply UInt16.toNat_inj.mp
  rw [getLe16]
  simp [le16]
  omega

theorem getLe32_le32 (x : UInt32) : getLe32 (front ++ (le32 x ++ back)) front.length = x := by
  have h0 := getD_append_add front (le32 x ++ back) 0
  have h1 := getD_append_add front (le32 x ++ back) 1
  have h2 := getD_append_add front (le32 x ++ back) 2
  have h3 := getD_append_add front (le32 x ++ back) 3
  have hx := x.toNat_lt
  rw [Nat.add_zero] at h0
  apply UInt32.toNat_inj.mp
  rw [getLe32]
  simp [le32]
  omega

end Easyio.Bytes
