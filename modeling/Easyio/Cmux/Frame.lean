import Easyio.CString.Basic

/-!
# CMUX frames

The multiplexer of the modem's serial line sends and receives frames

  `F9  address  EF  length field  payload  FCS  F9`

whose check sequence covers the address, the control byte `EF` and the length
field.  This file has `make_fcs` (`gsmmux/buffer.c`) and `make_cmux_pkg`
(`gsmmux/easyio_cmux.c`), and says what a frame is for the receiver.

The length field has one byte, which is then odd, or two.  `LengthField` reads
two bytes as `__parser_cmux_pkg` does, giving the second the weight 256;
`make_cmux_pkg` gives it the weight 128.  The two agree where the second byte is
zero (`toFrame`), that is below 128.
-/

namespace Easyio.Cmux

/-- `r_crctable` -/
def rCrctable : List UInt8 :=
  [0x00, 0x91, 0xE3, 0x72, 0x07, 0x96, 0xE4, 0x75, 0x0E, 0x9F, 0xED, 0x7C, 0x09, 0x98, 0xEA, 0x7B,
    0x1C, 0x8D, 0xFF, 0x6E, 0x1B, 0x8A, 0xF8, 0x69, 0x12, 0x83, 0xF1, 0x60, 0x15, 0x84, 0xF6, 0x67,
    0x38, 0xA9, 0xDB, 0x4A, 0x3F, 0xAE, 0xDC, 0x4D, 0x36, 0xA7, 0xD5, 0x44, 0x31, 0xA0, 0xD2, 0x43,
    0x24, 0xB5, 0xC7, 0x56, 0x23, 0xB2, 0xC0, 0x51, 0x2A, 0xBB, 0xC9, 0x58, 0x2D, 0xBC, 0xCE, 0x5F,
    0x70, 0xE1, 0x93, 0x02, 0x77, 0xE6, 0x94, 0x05, 0x7E, 0xEF, 0x9D, 0x0C, 0x79, 0xE8, 0x9A, 0x0B,
    0x6C, 0xFD, 0x8F, 0x1E, 0x6B, 0xFA, 0x88, 0x19, 0x62, 0xF3, 0x81, 0x10, 0x65, 0xF4, 0x86, 0x17,
    0x48, 0xD9, 0xAB, 0x3A, 0x4F, 0xDE, 0xAC, 0x3D, 0x46, 0xD7, 0xA5, 0x34, 0x41, 0xD0, 0xA2, 0x33,
    0x54, 0xC5, 0xB7, 0x26, 0x53, 0xC2, 0xB0, 0x21, 0x5A, 0xCB, 0xB9, 0x28, 0x5D, 0xCC, 0xBE, 0x2F,
    0xE0, 0x71, 0x03, 0x92, 0xE7, 0x76, 0x04, 0x95, 0xEE, 0x7F, 0x0D, 0x9C, 0xE9, 0x78, 0x0A, 0x9B,
    0xFC, 0x6D, 0x1F, 0x8E, 0xFB, 0x6A, 0x18, 0x89, 0xF2, 0x63, 0x11, 0x80, 0xF5, 0x64, 0x16, 0x87,
    0xD8, 0x49, 0x3B, 0xAA, 0xDF, 0x4E, 0x3C, 0xAD, 0xD6, 0x47, 0x35, 0xA4, 0xD1, 0x40, 0x32, 0xA3,
    0xC4, 0x55, 0x27, 0xB6, 0xC3, 0x52, 0x20, 0xB1, 0xCA, 0x5B, 0x29, 0xB8, 0xCD, 0x5C, 0x2E, 0xBF,
    0x90, 0x01, 0x73, 0xE2, 0x97, 0x06, 0x74, 0xE5, 0x9E, 0x0F, 0x7D, 0xEC, 0x99, 0x08, 0x7A, 0xEB,
    0x8C, 0x1D, 0x6F, 0xFE, 0x8B, 0x1A, 0x68, 0xF9, 0x82, 0x13, 0x61, 0xF0, 0x85, 0x14, 0x66, 0xF7,
    0xA8, 0x39, 0x4B, 0xDA, 0xAF, 0x3E, 0x4C, 0xDD, 0xA6, 0x37, 0x45, 0xD4, 0xA1, 0x30, 0x42, 0xD3,
    0xB4, 0x25, 0x57, 0xC6, 0xB3, 0x22, 0x50, 0xC1, 0xBA, 0x2B, 0x59, 0xC8, 0xBD, 0x2C, 0x5E, 0xCF]

/-- `make_fcs` -/
def makeFcs (input : List UInt8) : UInt8 :=
  0xFF - input.foldl (fun fcs b => rCrctable.getD (fcs ^^^ b).toNat 0) 0xFF

/-- The address byte `make_cmux_pkg` sends for a channel. -/
def addressOf : ℕ → UInt8
  | 1 => 0x05
  | 2 => 0x09
  | _ => 0x03

/-- What `make_cmux_pkg` sends between the flag and the payload, for `len` bytes of
payload. -/
def headerOf (len channel : ℕ) : List UInt8 :=
  [addressOf channel, 0xEF, UInt8.ofNat ((127 &&& len) <<< 1), UInt8.ofNat ((32640 &&& len) >>> 7)]

/-- `make_cmux_pkg`: the bytes it writes to the serial line.  `buf` are the `len`
bytes it copies. -/
def makeCmuxPkg (buf : List UInt8) (channel : ℕ) : List UInt8 :=
  let header := headerOf buf.length channel
  0xF9 :: header ++ buf ++ [makeFcs header, 0xF9]

/-- The payload of what `make_cmux_pkg` has written. -/
def payloadOf (frame : List UInt8) : List UInt8 := (frame.drop 5).take (frame.length - 7)

theorem payloadOf_makeCmuxPkg (buf : List UInt8) (channel : ℕ) :
    payloadOf (makeCmuxPkg buf channel) = buf := by
  rw [payloadOf]
  simp [makeCmuxPkg, headerOf]

/-! ## Frames as the receiver reads them -/

/-- The length fields, and the length the receiver reads in each. -/
inductive LengthField : List UInt8 → ℕ → Prop
  | one {b : UInt8} : b &&& 1 ≠ 0 → LengthField [b] (b >>> 1).toNat
  | two {lo hi : UInt8} : lo &&& 1 = 0 → LengthField [lo, hi] (hi.toNat * 256 + (lo >>> 1).toNat)

/-- A frame whose payload has the length that its length field says. -/
structure Frame where
  address : UInt8
  field : List UInt8
  data : List UInt8
  length : LengthField field data.length

namespace Frame

def port (f : Frame) : ℕ := (f.address >>> 2).toNat

/-- The bytes that the check sequence covers. -/
def header (f : Frame) : List UInt8 := f.address :: 0xEF :: f.field

/-- The frame with its check sequence, as it is on the line. -/
def bytes (f : Frame) : List UInt8 := 0xF9 :: f.header ++ f.data ++ [makeFcs f.header, 0xF9]

end Frame

theorem shiftRight_one_toNat (b : UInt8) : (b >>> 1).toNat = b.toNat / 2 := by
  simp [Nat.shiftRight_eq_div_pow]

theorem length_lt_of_one {b : UInt8} : (b >>> 1).toNat < 128 := by
  have := b.toNat_lt
  rw [shiftRight_one_toNat]
  omega

/-- The first length byte that `make_cmux_pkg` sends is even. -/
theorem lowByte_even (len : ℕ) : UInt8.ofNat ((127 &&& len) <<< 1) &&& 1 = 0 := by
  apply UInt8.toNat_inj.mp
  rw [Nat.shiftLeft_eq]
  simp

theorem lowByte_toNat (len : ℕ) : (UInt8.ofNat ((127 &&& len) <<< 1) >>> 1).toNat = len % 128 := by
  have hmask : 127 &&& len = len % 128 := by
    rw [Nat.and_comm]
    exact Nat.and_two_pow_sub_one_eq_mod len 7
  rw [shiftRight_one_toNat, UInt8.toNat_ofNat']
  omega

theorem highByte_toNat (len : ℕ) :
    (UInt8.ofNat ((32640 &&& len) >>> 7)).toNat = len / 128 % 256 := by
  have hmask : (32640 &&& len) >>> 7 = len / 128 % 256 := by
    rw [Nat.shiftRight_and_distrib, Nat.shiftRight_eq_div_pow len, Nat.and_comm]
    exact Nat.and_two_pow_sub_one_eq_mod (len / 128) 8
  rw [UInt8.toNat_ofNat']
  omega

/-- A payload of less than 128 bytes is sent as a frame that has it. -/
def toFrame (payload : List UInt8) (channel : ℕ) (h : payload.length < 128) : Frame where
  address := addressOf channel
  field := (headerOf payload.length channel).drop 2
  data := payload
  length := by
    have hlow := lowByte_toNat payload.length
    have hhigh := highByte_toNat payload.length
    have hfield := @LengthField.two _ (UInt8.ofNat ((32640 &&& payload.length) >>> 7))
      (lowByte_even payload.length)
    rw [hlow, hhigh, Nat.div_eq_of_lt h, Nat.mod_eq_of_lt h, Nat.zero_mod, Nat.zero_mul,
      Nat.zero_add] at hfield
    exact hfield

theorem bytes_toFrame (payload : List UInt8) (channel : ℕ) (h : payload.length < 128) :
    (toFrame payload channel h).bytes = makeCmuxPkg payload channel := rfl

end Easyio.Cmux
