import Easyio.CString.Basic
import Mathlib.Tactic.IntervalCases

/-!
# Base 64

`encode_base64`, `decode_base64` and `decode_base64_stream` of `BASE64/cbase64.c`.  What is in a
`char` is a `UInt8`: wherever the code shifts one to the right, it masks the copies of the sign.
-/

namespace Easyio.Base64

open CString List

/-- `pad` -/
def pad : UInt8 := 61

/-- `alphabet64[c]` -/
def alphabet64 (c : UInt8) : UInt8 :=
  (ascii "ABCDEFGHIJKLMNOPQRSTUVWXYZabcdefghijklmnopqrstuvwxyz0123456789+/").getD c.toNat 0

/-- `table64vals` -/
def table64vals : List UInt8 :=
  let np := 0xFF
  [62, np, np, np, 63, 52, 53, 54, 55, 56, 57, 58, 59, 60, 61, np, np, np, np, np,
    np, np, 0, 1, 2, 3, 4, 5, 6, 7, 8, 9, 10, 11, 12, 13, 14, 15, 16, 17,
    18, 19, 20, 21, 22, 23, 24, 25, np, np, np, np, np, np, 26, 27, 28, 29, 30, 31,
    32, 33, 34, 35, 36, 37, 38, 39, 40, 41, 42, 43, 44, 45, 46, 47, 48, 49, 50, 51]

/-- `table64` -/
def table64 (c : UInt8) : UInt8 :=
  if c < 43 ∨ 122 < c then 0xFF else table64vals.getD (c.toNat - 43) 0

/-! ## Six bits and eight bits -/

def sixth1 (a : UInt8) : UInt8 := a >>> 2 &&& 0x3f

def sixth2 (a b : UInt8) : UInt8 := a <<< 4 &&& (0x3f : UInt8) ||| b >>> 4 &&& 0x0f

def sixth3 (b c : UInt8) : UInt8 := b <<< 2 &&& (0x3c : UInt8) ||| c >>> 6 &&& 0x03

def byte1 (c d : UInt8) : UInt8 := c <<< 2 ||| d >>> 4 &&& 0x3

def byte2 (d c : UInt8) : UInt8 := d <<< 4 &&& (0xf0 : UInt8) ||| c >>> 2 &&& 0xf

def byte3 (c d : UInt8) : UInt8 := c <<< 6 &&& (0xc0 : UInt8) ||| d

/-! ## The three functions -/

/-- The loop of `encode_base64` -/
def encode : List UInt8 → List UInt8
  | [] => []
  | [a] => [alphabet64 (sixth1 a), alphabet64 (a <<< 4 &&& 0x3f), pad, pad]
  | [a, b] =>
    [alphabet64 (sixth1 a), alphabet64 (sixth2 a b), alphabet64 (b <<< 2 &&& 0x3c), pad]
  | a :: b :: c :: rest => alphabet64 (sixth1 a) :: alphabet64 (sixth2 a b) ::
      alphabet64 (sixth3 b c) :: alphabet64 (c &&& 0x3f) :: encode rest

/-- `encode_base64`: what is stored at `output` -/
def encodeBase64 (input : List UInt8) : List UInt8 := encode input ++ [0]

/-- The loop of `decode_base64`; behind the text is its zero. -/
def decode : List UInt8 → List UInt8
  | [] => []
  | [c] => [byte1 (table64 c) (table64 0)]
  | [c, d] => [byte1 (table64 c) (table64 d)]
  | [c, d, e] => byte1 (table64 c) (table64 d) ::
      if e = pad then [] else [byte2 (table64 d) (table64 e)]
  | c :: d :: e :: f :: rest => byte1 (table64 c) (table64 d) ::
      if e = pad then [] else byte2 (table64 d) (table64 e) ::
        if f = pad then [] else byte3 (table64 e) (table64 f) :: decode rest

/-- `decode_base64`: what is stored at `decoded`, and `*outlen` -/
def decodeBase64 (input : List UInt8) : List UInt8 × ℕ :=
  (decode (cString input) ++ [0], (decode (cString input)).length)

/-- `struct dc_stream` -/
structure DcStream where
  c : UInt8 := 0
  d : UInt8 := 0
  status : UInt8 := 0

/-- `decode_base64_stream`: the byte stored at `out`, if 0 is returned -/
def decodeBase64Stream (ds : DcStream) (input : UInt8) : Option UInt8 × DcStream :=
  match ds.status with
  | 0 => (none, { ds with c := table64 input, status := 1 })
  | 1 =>
    let c := byte1 ds.c (table64 input)
    (some c, ⟨c, table64 input, 2⟩)
  | 2 =>
    if input = pad then (none, { ds with c := input, status := 0 })
    else
      let d := byte2 ds.d (table64 input)
      (some d, ⟨table64 input, d, 3⟩)
  | 3 =>
    if input = pad then (none, { ds with d := input, status := 0 })
    else
      let c := byte3 ds.c (table64 input)
      (some c, ⟨c, table64 input, 0⟩)
  | _ => (none, ds)

/-- The bytes that come out when a text is put in. -/
def stream (ds : DcStream) : List UInt8 → List UInt8
  | [] => []
  | b :: rest =>
    (decodeBase64Stream ds b).1.toList ++ stream (decodeBase64Stream ds b).2 rest

/-! ## Round trips -/

theorem byte_sixth (a b c : UInt8) : byte1 (sixth1 a) (sixth2 a b) = a ∧
    byte2 (sixth2 a b) (sixth3 b c) = b ∧ byte3 (sixth3 b c) (c &&& 0x3f) = c := by
  refine ⟨?_, ?_, ?_⟩
  all_goals
    apply UInt8.eq_of_toBitVec_eq
    ext i hi
    interval_cases i <;> simp [byte1, byte2, byte3, sixth1, sixth2, sixth3]

/-- The alphabet takes six bits to a letter, and the table takes them back. -/
theorem sixth_spec (a b c : UInt8) : ∀ s ∈ [sixth1 a, sixth2 a b, sixth3 b c, c &&& 0x3f],
    table64 (alphabet64 s) = s ∧ alphabet64 s ≠ pad ∧ 0 ≠ alphabet64 s := by
  have hall : ∀ n < 64, table64 (alphabet64 (.ofNat n)) = .ofNat n ∧
      alphabet64 (.ofNat n) ≠ pad ∧ 0 ≠ alphabet64 (.ofNat n) := by decide +kernel
  intro s hs
  have hmask : s &&& 0x3f = s := by
    apply UInt8.eq_of_toBitVec_eq
    ext i hi
    simp only [mem_cons, not_mem_nil, or_false] at hs
    rcases hs with rfl | rfl | rfl | rfl
    all_goals interval_cases i <;> simp [sixth1, sixth2, sixth3]
  have hlt : s.toNat < 64 := by
    rw [← hmask, UInt8.toNat_and]
    exact Nat.and_lt_two_pow _ (by decide : _ < 2 ^ 6)
  have h := hall _ hlt
  rwa [UInt8.ofNat_toNat] at h

/-- Where the source has no byte to go on, it is as if there were a zero. -/
theorem sixth_zero (a : UInt8) : a <<< 4 &&& 0x3f = sixth2 a 0 ∧ a <<< 2 &&& 0x3c = sixth3 a 0 := by
  simp [sixth2, sixth3]

/-- Every group of letters is taken back by both decoders, and has no zero in it. -/
theorem encode_spec (x : List UInt8) : 0 ∉ encode x ∧ decode (encode x) = x ∧
    ∀ c d, stream ⟨c, d, 0⟩ (encode x) = x := by
  have hpad : 0 ≠ pad := by decide
  fun_induction encode x with
  | case1 => exact ⟨not_mem_nil, rfl, fun _ _ => rfl⟩
  | case2 a =>
    have h := sixth_spec a 0 0
    simp only [forall_mem_cons] at h
    simp [sixth_zero, hpad, decode, stream, decodeBase64Stream, h, byte_sixth a 0 0]
  | case3 a b =>
    have h := sixth_spec a b 0
    simp only [forall_mem_cons] at h
    simp [sixth_zero, hpad, decode, stream, decodeBase64Stream, h, byte_sixth a b 0]
  | case4 a b c rest ih =>
    have h := sixth_spec a b c
    simp only [forall_mem_cons] at h
    simp [decode, stream, decodeBase64Stream, h, byte_sixth a b c, ih]

/-- Both decoders give back what was encoded. -/
structure RoundTrip (x : List UInt8) : Prop where
  whole : decodeBase64 (encodeBase64 x) = (x ++ [0], x.length)
  stream : stream {} (cString (encodeBase64 x)) = x

theorem base64_roundTrip (x : List UInt8) : RoundTrip x := by
  obtain ⟨hzero, hdecode, hstream⟩ := encode_spec x
  have htext : cString (encodeBase64 x) = encode x := cString_append_zero hzero []
  constructor
  · rw [decodeBase64, htext, hdecode]
  · rw [htext]
    exact hstream 0 0

end Easyio.Base64
