import Easyio.Config.Store
import Easyio.Crc.Register

/-!
# What the checksum of the configuration detects

`crc16_update` is the table step of the register with generator
`x^16 + x^15 + x^2 + 1` (`crc16Update_eq`).  The CRC stands behind the fields, low
byte first, which is the order in which the register leaves its bits.  So the
comparison with the stored CRC is a run over all 49 bytes that ends with an empty
register (`accepted_iff`), and a burst of at most 16 wrong bits, on fields and CRC
alike, makes it fail (`stored_burst`).
-/

namespace Easyio.Config

open BitVec Bytes Crc List Nor SpiflashConfig

/-! ## The table -/

/-- The generator of `crc_tab16`. -/
def crcPoly : BitVec 16 := 0xA001

theorem monic_crcPoly : Monic crcPoly := by
  unfold Monic
  decide

/-- The bits of a byte, the least significant one first. -/
def byteBits (b : UInt8) : List Bool := (List.range 8).map b.toBitVec.getLsbD

section

variable (bytes : List UInt8)

/-- The bits of some bytes in the order of the CRC. -/
def bitsOf : List Bool := bytes.flatMap byteBits

theorem length_byteBits (b : UInt8) : (byteBits b).length = 8 := by
  simp [byteBits]

theorem length_bitsOf : (bitsOf bytes).length = 8 * bytes.length := by
  simp [bitsOf, length_byteBits, Nat.mul_comm]

theorem getD_byteBits (b : UInt8) (i : ℕ) : (byteBits b).getD i false = b.toBitVec.getLsbD i := by
  by_cases hi : i < 8
  · simp [byteBits, hi]
  · rw [getD_eq_default _ _ (by rw [length_byteBits]; omega),
      getLsbD_of_ge _ _ (by omega)]

/-- Every word of the table is the register after eight shifts. -/
theorem crcTab16_eq {n : ℕ} (h : n < 256) : (crcTab16.getD n 0).toBitVec =
    run crcPoly (BitVec.ofNat 16 n) (replicate 8 false) := by
  have htable : crcTab16.map UInt16.toBitVec = (range 256).map fun n =>
      run crcPoly (BitVec.ofNat 16 n) (replicate 8 false) := by
    decide +kernel
  have hword := congrArg (fun words => words[n]?) htable
  simp only [getElem?_map, getElem?_range h] at hword
  obtain ⟨word, hget, hrun⟩ := Option.map_eq_some_iff.mp hword
  rw [getD_eq_getElem?_getD, hget]
  exact hrun

/-- `crc16_update` takes the register over the eight bits of a byte. -/
theorem crc16Update_eq (crc : UInt16) (ch : UInt8) :
    (crc16Update crc ch).toBitVec = run crcPoly crc.toBitVec (byteBits ch) := by
  have hpack : pack 16 (byteBits ch) = ch.toUInt16.toBitVec := by
    refine eq_of_getLsbD_eq fun i hi => ?_
    rw [getLsbD_pack, getD_byteBits]
    simp [hi]
  set tmp := crc ^^^ ch.toUInt16
  have hlow : low 8 tmp.toBitVec = BitVec.ofNat 16 (tmp &&& 0xff).toNat := by
    apply eq_of_toNat_eq
    rw [low, toNat_setWidth]
    have hmask : (tmp &&& 0xff).toNat = tmp.toNat % 2 ^ 8 := by
      exact Nat.and_two_pow_sub_one_eq_mod tmp.toNat 8
    rw [hmask]
    rfl
  have hindex : (tmp &&& 0xff).toNat < 256 := by
    exact Nat.lt_of_le_of_lt Nat.and_le_right (by decide)
  have hxor : crc.toBitVec ^^^ ch.toUInt16.toBitVec = tmp.toBitVec := rfl
  rw [run_eq_table crc.toBitVec (by rw [length_byteBits]; omega), length_byteBits, hpack, hxor,
    hlow, ← crcTab16_eq hindex]
  rfl

theorem sdkStreamCrc16Calc_eq (msg : List UInt8) :
    (sdkStreamCrc16Calc msg).toBitVec = run crcPoly crcInit.toBitVec (bitsOf msg) := by
  have hfold : ∀ (msg : List UInt8) (crc : UInt16), (msg.foldl crc16Update crc).toBitVec =
      run crcPoly crc.toBitVec (bitsOf msg) := by
    intro msg
    induction msg with
    | nil => exact fun crc => rfl
    | cons ch msg ih =>
      intro crc
      rw [foldl_cons, ih, crc16Update_eq]
      rfl
  exact hfold msg crcInit

/-! ## The structure as bytes -/

/-- The bytes of a list as cells. -/
def cellsOf : Cells := fun i => bytes.getD i 0

theorem window_cellsOf : window (cellsOf bytes) 0 bytes.length = bytes := by
  refine ext_getElem (length_window ..) ?_
  intro i hi hi'
  simp [window, cellsOf, hi']

theorem le16_getLe16 (offset : ℕ) :
    le16 (getLe16 bytes offset) = window (cellsOf bytes) offset 2 := by
  have h0 := (bytes.getD offset 0).toNat_lt
  have h1 := (bytes.getD (offset + 1) 0).toNat_lt
  have hbytes : le16 (getLe16 bytes offset) = [bytes.getD offset 0, bytes.getD (offset + 1) 0] := by
    simp only [le16, getLe16, UInt16.toNat_ofNat', cons.injEq, and_true]
    constructor <;> apply UInt8.toNat_inj.mp <;> rw [UInt8.toNat_ofNat'] <;> omega
  exact hbytes

theorem le32_getLe32 (offset : ℕ) :
    le32 (getLe32 bytes offset) = window (cellsOf bytes) offset 4 := by
  have h0 := (bytes.getD offset 0).toNat_lt
  have h1 := (bytes.getD (offset + 1) 0).toNat_lt
  have h2 := (bytes.getD (offset + 2) 0).toNat_lt
  have h3 := (bytes.getD (offset + 3) 0).toNat_lt
  have hbytes : le32 (getLe32 bytes offset) = [bytes.getD offset 0, bytes.getD (offset + 1) 0,
      bytes.getD (offset + 2) 0, bytes.getD (offset + 3) 0] := by
    simp only [le32, getLe32, UInt32.toNat_ofNat', cons.injEq, and_true]
    refine ⟨?_, ?_, ?_, ?_⟩ <;> apply UInt8.toNat_inj.mp <;> rw [UInt8.toNat_ofNat'] <;> omega
  exact hbytes

theorem toList_md5At (offset : ℕ) :
    (md5At bytes offset).toList = window (cellsOf bytes) offset 16 := by
  apply ext_getElem
  · rw [Vector.length_toList, length_window]
  · intro i _ _
    simp [md5At, window, cellsOf]

end

theorem SpiflashConfig.toBytes_ofBytes {bytes : List UInt8} (h : bytes.length = size) :
    (ofBytes bytes).toBytes = bytes := by
  set cells := cellsOf bytes with hcells
  have hhead : [bytes.getD 0 0, bytes.getD 1 0, bytes.getD 2 0, bytes.getD 3 0] =
      window cells 0 4 := rfl
  have hstate : [bytes.getD 24 0, bytes.getD 25 0, bytes.getD 26 0] = window cells 24 3 := rfl
  calc (ofBytes bytes).toBytes
        = window cells 0 4 ++ (window cells 4 4 ++ (window cells 8 16 ++
            (window cells 24 3 ++ (window cells 27 4 ++ window cells 31 16)))) ++
              window cells 47 2 := by
          simp only [toBytes, fieldBytes, ofBytes, le16_getLe16, le32_getLe32, toList_md5At,
            hhead, hstate, ← hcells]
    _ = window cells 0 (4 + (4 + (16 + (3 + (4 + 16)))) + 2) := by
          simp only [window_add]
    _ = bytes := by
          have hwindow := window_cellsOf bytes
          rwa [h] at hwindow

/-! ## What the bootloader accepts -/

theorem getD_bitsOf_le16 (x : UInt16) (i : ℕ) :
    (bitsOf (le16 x)).getD i false = x.toBitVec.getLsbD i := by
  have hbits : bitsOf (le16 x) =
      byteBits (UInt8.ofNat x.toNat) ++ byteBits (UInt8.ofNat (x.toNat / 256)) := by
    simp [bitsOf, le16]
  rw [hbits]
  by_cases hlow : i < 8
  · rw [getD_append _ _ _ _ (by rw [length_byteBits]; omega), getD_byteBits]
    simp [hlow]
  · rw [getD_append_right _ _ _ _ (by rw [length_byteBits]; omega), length_byteBits,
      getD_byteBits]
    have hbyte : (UInt8.ofNat (x.toNat / 256)).toBitVec = BitVec.ofNat 8 (x.toNat >>> 8) := by
      rw [Nat.shiftRight_eq_div_pow]
      rfl
    by_cases hhigh : i < 16
    · rw [hbyte, getLsbD_ofNat, Nat.testBit_shiftRight, decide_eq_true (by omega),
        Nat.add_sub_cancel' (by omega)]
      rfl
    · rw [getLsbD_of_ge _ _ (by omega), getLsbD_of_ge _ _ (by omega)]

/-- The comparison with the stored CRC is a run over the whole structure that
empties the register. -/
theorem accepted_iff (c : SpiflashConfig) :
    c.configCrc = c.crc ↔ run crcPoly crcInit.toBitVec (bitsOf c.toBytes) = 0 := by
  have hbits : bitsOf c.toBytes = bitsOf c.fieldBytes ++ bitsOf (le16 c.configCrc) :=
    flatMap_append
  have hlen : (bitsOf (le16 c.configCrc)).length ≤ 16 := by
    rw [length_bitsOf, length_le16]
  rw [hbits, run_append, ← sdkStreamCrc16Calc_eq, run_eq_zero_iff monic_crcPoly hlen]
  simp only [getD_bitsOf_le16]
  constructor
  · intro h i
    rw [h]
    rfl
  · intro h
    exact UInt16.toBitVec_inj.mp (eq_of_getLsbD_eq fun i _ => (h i).symm)

/-- The bits of the stored structure. -/
def storedBits (mem : Cells) : List Bool :=
  bitsOf (window mem configAddress size)

theorem stored_eq_none_iff (mem : Cells) :
    stored mem = none ↔ run crcPoly crcInit.toBitVec (storedBits mem) ≠ 0 := by
  have hbytes := toBytes_ofBytes
    (length_window mem configAddress size)
  rw [stored, storedBits]
  conv_rhs => rw [← hbytes, Ne, ← accepted_iff]
  simp

/-- A burst of at most 16 wrong bits makes the stored CRC wrong. -/
theorem stored_burst {mem altered : Cells} {c : SpiflashConfig} {error : List Bool}
    (hstored : stored mem = some c) (herror : Burst 16 (8 * size) error)
    (hbits : storedBits altered = zipWith xor (storedBits mem) error) :
    stored altered = none := by
  have hvalid : run crcPoly crcInit.toBitVec (storedBits mem) = 0 := by
    by_contra hne
    rw [(stored_eq_none_iff mem).mpr hne] at hstored
    cases hstored
  have hlen : (storedBits mem).length = error.length := by
    rw [storedBits, length_bitsOf, length_window, herror.length_eq]
  rw [stored_eq_none_iff]
  calc run crcPoly crcInit.toBitVec (storedBits altered)
        = run crcPoly (crcInit.toBitVec ^^^ 0) (zipWith xor (storedBits mem) error) := by
          rw [hbits]
          simp
    _ = run crcPoly crcInit.toBitVec (storedBits mem) ^^^ run crcPoly 0 error := run_xor hlen _ _
    _ = run crcPoly 0 error := by
          rw [hvalid]
          simp
    _ ≠ 0 := run_burst_ne_zero monic_crcPoly herror

end Easyio.Config
