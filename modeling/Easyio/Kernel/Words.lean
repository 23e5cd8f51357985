import Mathlib.Algebra.Group.Nat.Defs
import Mathlib.Data.Nat.Basic
import Mathlib.Tactic.Common

/-!
# 32-bit sizes

The arithmetic of `rt_size_t` that the memory managers share, on natural numbers
with the reduction modulo 2^32 written out.
-/

namespace Easyio.Kernel

/-- `RT_ALIGN(size, RT_ALIGN_SIZE)`, with `RT_ALIGN_SIZE` 4: the sum wraps. -/
def rtAlign (size : ℕ) : ℕ := (size + 3) % 2 ^ 32 / 4 * 4

/-- `RT_ALIGN_DOWN(size, RT_ALIGN_SIZE)` -/
def rtAlignDown (size : ℕ) : ℕ := size / 4 * 4

/-- The difference of two unsigned numbers. -/
def sub32 (a b : ℕ) : ℕ := (a + 2 ^ 32 - b) % 2 ^ 32

variable {size : ℕ}

theorem rtAlign_of_le (h : size ≤ 2 ^ 32 - 4) : rtAlign size = (size + 3) / 4 * 4 := by
  unfold rtAlign
  omega

/-- Above that the sum wraps and nothing is left of the request. -/
theorem rtAlign_of_gt (h : 2 ^ 32 - 4 < size) (hsize : size < 2 ^ 32) : rtAlign size = 0 := by
  unfold rtAlign
  omega

theorem sub32_of_le {a b : ℕ} (ha : a < 2 ^ 32) (hba : b ≤ a) : sub32 a b = a - b := by
  unfold sub32
  omega

end Easyio.Kernel
