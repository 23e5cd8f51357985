import Mathlib.Algebra.Group.Nat.Defs
import Mathlib.Data.List.Basic
import Mathlib.Data.List.GetD
import Mathlib.Data.Nat.Basic

/-!
# Reflected CRC registers

A cyclic redundancy check of width `w` that takes its message least significant
bit first is a shift register of `w` bits: each message bit is added to the bit
that leaves the register, and the generator polynomial is added when the sum is
one.  Nothing here is about a particular generator.

* `run_xor`: the register is linear in its content and the message together.
* `run_eq_zero_iff`: a message of at most `w` bits empties the register exactly
  when it repeats its content.  With `w` bits this is the comparison with a
  checksum that follows the message.
* `run_burst_ne_zero`: an error confined to `w` consecutive bits never empties a
  register that was empty, so that it is always detected.
* `run_eq_table`: `k` bits at once from a table of 2^k words.
-/

namespace Easyio.Crc

open List

variable {w : ℕ}

/-- One message bit.  The bits of `poly` are those of the generator, its constant
term in the highest place. -/
def step (poly r : BitVec w) (b : Bool) : BitVec w :=
  if r.getLsbD 0 ^^ b then (r >>> 1) ^^^ poly else r >>> 1

/-- The register after the bits of a message. -/
def run (poly r : BitVec w) (bits : List Bool) : BitVec w := bits.foldl (step poly) r

/-- An error pattern of `n` bits, of which the wrong ones lie within `limit`
consecutive places. -/
structure Burst (limit n : ℕ) (error : List Bool) : Prop where
  length_eq : error.length = n
  some_wrong : true ∈ error
  within : ∃ (before : ℕ) (wrong : List Bool) (after : ℕ),
    error = List.replicate before false ++ wrong ++ List.replicate after false ∧
      wrong.length ≤ limit

variable {poly r : BitVec w} {bits : List Bool}

@[simp] theorem run_nil (r : BitVec w) : run poly r [] = r := rfl

@[simp] theorem run_cons (r : BitVec w) (b : Bool) (bits : List Bool) :
    run poly r (b :: bits) = run poly (step poly r b) bits := rfl

theorem run_append (r : BitVec w) (first second : List Bool) :
    run poly r (first ++ second) = run poly (run poly r first) second :=
  foldl_append

/-! ## Linearity -/

theorem xor_cancel_right (a b : BitVec w) : a ^^^ poly ^^^ (b ^^^ poly) = a ^^^ b := by
  rw [BitVec.xor_comm b poly, ← BitVec.xor_assoc, BitVec.xor_assoc a, BitVec.xor_self,
    BitVec.xor_zero]

theorem step_xor (r s : BitVec w) (a b : Bool) :
    step poly (r ^^^ s) (a ^^ b) = step poly r a ^^^ step poly s b := by
  have hout : ((r ^^^ s).getLsbD 0 ^^ (a ^^ b)) = ((r.getLsbD 0 ^^ a) ^^ (s.getLsbD 0 ^^ b)) := by
    rw [BitVec.getLsbD_xor]
    cases r.getLsbD 0 <;> cases s.getLsbD 0 <;> cases a <;> cases b <;> rfl
  unfold step
  rw [hout, BitVec.ushiftRight_xor_distrib]
  cases r.getLsbD 0 ^^ a <;> cases s.getLsbD 0 ^^ b
  · rfl
  · simp [BitVec.xor_assoc]
  · simp only [Bool.true_xor, Bool.not_false, if_true, Bool.false_eq_true, if_false]
    rw [BitVec.xor_assoc, BitVec.xor_comm (s >>> 1), BitVec.xor_assoc]
  · simp [xor_cancel_right]

theorem run_xor {first second : List Bool} (hlen : first.length = second.length) (r s : BitVec w) :
    run poly (r ^^^ s) (zipWith xor first second) =
      run poly r first ^^^ run poly s second := by
  induction first generalizing second r s with
  | nil =>
    obtain rfl : second = [] := eq_nil_of_length_eq_zero hlen.symm
    rfl
  | cons a first ih =>
    cases second with
    | nil => simp at hlen
    | cons b second =>
      rw [zipWith_cons_cons, run_cons, step_xor]
      exact ih (by simpa using hlen) _ _

/-! ## Detection -/

theorem step_zero_false : step poly 0 false = 0 := by
  simp [step]

theorem run_zero_replicate (n : ℕ) : run poly 0 (replicate n false) = 0 := by
  induction n with
  | zero => rfl
  | succ n ih => rw [replicate_succ, run_cons, step_zero_false, ih]

/-- The generator has a constant term. -/
def Monic (poly : BitVec w) : Prop := 0 < w ∧ poly.getLsbD (w - 1) = true

theorem getLsbD_step_last (hpoly : Monic poly) (r : BitVec w) (b : Bool) :
    (step poly r b).getLsbD (w - 1) = (r.getLsbD 0 ^^ b) := by
  have hout : (r >>> 1).getLsbD (w - 1) = false := by
    rw [BitVec.getLsbD_ushiftRight]
    exact BitVec.getLsbD_of_ge _ _ (by have := hpoly.1; omega)
  unfold step
  split
  · next h =>
      rw [BitVec.getLsbD_xor, hout, hpoly.2, h]
      rfl
  · next h => rw [hout, eq_false_of_ne_true h]

/-- A short message empties the register exactly when it repeats its content. -/
theorem run_eq_zero_iff (hpoly : Monic poly) (hlen : bits.length ≤ w) :
    run poly r bits = 0 ↔ ∀ i, r.getLsbD i = bits.getD i false := by
  induction bits generalizing r with
  | nil =>
    constructor
    · rintro rfl i
      simp
    · intro h
      exact BitVec.eq_of_getLsbD_eq fun i _ => by simpa using h i
  | cons b bits ih =>
    rw [length_cons] at hlen
    rw [run_cons, ih (by omega)]
    constructor
    · intro h
      -- the generator was not added, or it would still be in the highest place
      have hout : (r.getLsbD 0 ^^ b) = false := by
        rw [← getLsbD_step_last hpoly, h, getD_eq_default _ _ (by omega)]
      have hstep : step poly r b = r >>> 1 := by simp [step, hout]
      intro i
      cases i with
      | zero => simpa using hout
      | succ i =>
        rw [getD_cons_succ, ← h i, hstep, BitVec.getLsbD_ushiftRight, Nat.add_comm]
    · intro h i
      have hfirst : r.getLsbD 0 = b := h 0
      have hstep : step poly r b = r >>> 1 := by simp [step, hfirst]
      rw [hstep, BitVec.getLsbD_ushiftRight, Nat.add_comm, h (i + 1), getD_cons_succ]

theorem run_replicate_ne_zero (hpoly : Monic poly) (hr : r ≠ 0) (n : ℕ) :
    run poly r (replicate n false) ≠ 0 := by
  induction n generalizing r with
  | zero => exact hr
  | succ n ih =>
    refine ih fun hstep => hr ?_
    have hone : [false].length ≤ w := hpoly.1
    have hlast : run poly r [false] = 0 := hstep
    refine BitVec.eq_of_getLsbD_eq fun i _ => ?_
    rw [(run_eq_zero_iff hpoly hone).mp hlast i]
    cases i <;> simp

/-- **Burst detection.** -/
theorem run_burst_ne_zero (hpoly : Monic poly) {n : ℕ} {error : List Bool} (h : Burst w n error) :
    run poly 0 error ≠ 0 := by
  obtain ⟨before, wrong, after, rfl, hlen⟩ := h.within
  have htrue : true ∈ wrong := by
    simpa using h.some_wrong
  rw [run_append, run_append, run_zero_replicate]
  refine run_replicate_ne_zero hpoly (fun hzero => ?_) after
  obtain ⟨i, hi, hget⟩ := mem_iff_getElem.mp htrue
  have hbit := (run_eq_zero_iff hpoly hlen).mp hzero i
  rw [getD_eq_getElem _ _ hi, hget] at hbit
  simp at hbit

/-! ## Several bits at once -/

/-- The word whose low bits are `bits`. -/
def pack (w : ℕ) : List Bool → BitVec w
  | [] => 0
  | b :: bits => (pack w bits <<< 1) ||| BitVec.setWidth w (BitVec.ofBool b)

theorem getLsbD_pack (bits : List Bool) (i : ℕ) :
    (pack w bits).getLsbD i = (decide (i < w) && bits.getD i false) := by
  induction bits generalizing i with
  | nil => simp [pack]
  | cons b bits ih =>
    cases i with
    | zero => simp [pack]
    | succ i =>
      rw [pack, BitVec.getLsbD_or, BitVec.getLsbD_shiftLeft, ih]
      by_cases hi : i + 1 < w
      · simp [show i < w by omega]
      · simp [hi]

/-- The message can be added to the register beforehand. -/
theorem run_eq_run_replicate (r : BitVec w) (hlen : bits.length ≤ w) :
    run poly r bits = run poly (r ^^^ pack w bits) (replicate bits.length false) := by
  induction bits generalizing r with
  | nil => simp [pack]
  | cons b bits ih =>
    rw [length_cons] at hlen
    have hshift : step poly (pack w (b :: bits)) b = pack w bits := by
      have hfirst : (pack w (b :: bits)).getLsbD 0 = b := by
        rw [getLsbD_pack]
        simp
        omega
      have hstep : step poly (pack w (b :: bits)) b = pack w (b :: bits) >>> 1 := by
        simp [step, hfirst]
      refine hstep.trans (BitVec.eq_of_getLsbD_eq fun i hi => ?_)
      rw [BitVec.getLsbD_ushiftRight, Nat.add_comm, getLsbD_pack, getLsbD_pack, getD_cons_succ]
      by_cases hnext : i + 1 < w
      · simp [hnext, hi]
      · -- the bit that the packing has lost is not one of the message
        rw [getD_eq_default _ _ (by omega), Bool.and_false, Bool.and_false]
    calc run poly r (b :: bits)
          = run poly (step poly r b ^^^ pack w bits) (replicate bits.length false) := by
            rw [run_cons, ih _ (by omega)]
      _ = run poly (step poly (r ^^^ pack w (b :: bits)) (b ^^ b))
            (replicate bits.length false) := by
            rw [step_xor, hshift]
      _ = run poly (r ^^^ pack w (b :: bits)) (replicate (b :: bits).length false) := by
            rw [Bool.xor_self, length_cons, replicate_succ, run_cons]

/-- As long as zeros leave the register it only shifts. -/
theorem run_replicate_of_low_zero {k : ℕ} (h : ∀ i < k, r.getLsbD i = false) :
    run poly r (replicate k false) = r >>> k := by
  induction k generalizing r with
  | zero => simp
  | succ k ih =>
    have hstep : step poly r false = r >>> 1 := by simp [step, h 0 (by omega)]
    have hlow : ∀ i < k, (r >>> 1).getLsbD i = false := by
      intro i hi
      rw [BitVec.getLsbD_ushiftRight]
      exact h _ (by omega)
    rw [replicate_succ, run_cons, hstep, ih hlow, ← BitVec.shiftRight_add, Nat.add_comm]

/-- The low `k` bits of a word. -/
def low (k : ℕ) (r : BitVec w) : BitVec w := (r.setWidth k).setWidth w

theorem getLsbD_low (k : ℕ) (r : BitVec w) (i : ℕ) :
    (low k r).getLsbD i = (decide (i < k) && r.getLsbD i) := by
  rw [low]
  by_cases hi : i < w
  · simp [hi]
  · simp [BitVec.getLsbD_of_ge r i (by omega)]

/-- **The table step.**  Some bits of a message at once: the rest of the register
moves down, and what the low part turns into depends on that part alone. -/
theorem run_eq_table (r : BitVec w) (hlen : bits.length ≤ w) :
    run poly r bits = (r >>> bits.length) ^^^ run poly (low bits.length (r ^^^ pack w bits))
      (replicate bits.length false) := by
  set k := bits.length
  set x := r ^^^ pack w bits
  have hlow : ∀ i < k, (x ^^^ low k x).getLsbD i = false := by
    intro i hi
    simp [getLsbD_low, hi]
  have hhigh : (x ^^^ low k x) >>> k = r >>> k := by
    refine BitVec.eq_of_getLsbD_eq fun i hi => ?_
    rw [BitVec.getLsbD_ushiftRight, BitVec.getLsbD_xor, getLsbD_low, BitVec.getLsbD_xor,
      getLsbD_pack, getD_eq_default _ _ (by omega)]
    simp [show ¬ k + i < k by omega]
  have hsplit : x = (x ^^^ low k x) ^^^ low k x := by
    rw [BitVec.xor_assoc, BitVec.xor_self, BitVec.xor_zero]
  have hzeros : replicate k false =
      zipWith xor (replicate k false) (replicate k false) := by
    simp
  calc run poly r bits
        = run poly x (replicate k false) := run_eq_run_replicate r hlen
    _ = run poly ((x ^^^ low k x) ^^^ low k x)
          (zipWith xor (replicate k false) (replicate k false)) := by
          rw [← hsplit, ← hzeros]
    _ = run poly (x ^^^ low k x) (replicate k false) ^^^
          run poly (low k x) (replicate k false) := run_xor rfl _ _
    _ = (r >>> k) ^^^ run poly (low k x) (replicate k false) := by
          rw [run_replicate_of_low_zero hlow, hhigh]

end Easyio.Crc
