import Mathlib.Data.List.Chain
import Mathlib.Data.UInt

/-!
# Receiving a file with YMODEM

`_rym_do_trans` and `_rym_trans_data` of `components/utilities/ymodem/ymodem.c`, which receive
the blocks of a file.  The device gives bytes, and `none` where a wait for one times out.

Of the number of a block only the complement is checked.  The receiver does not keep the number
of the last block: one that is sent again is handed over again, and so is one after a gap.
-/

namespace Easyio.Ymodem

open List Nat

/-- `enum rym_code` -/
inductive Code where
  | none | soh | stx | eot | ack | nak | can | c
  deriving DecidableEq

/-- Other bytes meet the same `default` as `RYM_CODE_NONE`. -/
def Code.ofByte : UInt8 → Code
  | 0x01 => .soh
  | 0x02 => .stx
  | 0x04 => .eot
  | 0x06 => .ack
  | 0x15 => .nak
  | 0x18 => .can
  | 0x43 => .c
  | _ => .none

/-- The errors `RYM_ERR_*` of a transfer. -/
inductive Err where
  | code | seq | crc | dsz | can

/-- What goes to the device and to `on_data`, which does not see the number. -/
inductive Event where
  | putchar (code : Code)
  | onData (seq : UInt8) (data : List UInt8)
  deriving DecidableEq

/-- The entries of `ccitt_table` are the remainders of the generator
`x^16 + x^12 + x^5 + 1`. -/
def ccittTable (i : UInt8) : UInt16 :=
  Nat.repeat (fun r => if r &&& 0x8000 = 0 then r <<< 1 else r <<< 1 ^^^ 0x1021) 8
    (i.toUInt16 <<< 8)

def crc16 (q : List UInt8) : UInt16 :=
  q.foldl (fun crc b => crc <<< 8 ^^^ ccittTable ((crc >>> 8).toUInt8 ^^^ b)) 0

abbrev Stream := List (Option UInt8)

/-- `_rym_read_code` -/
def readCode : Stream → Code × Stream
  | [] => (.none, [])
  | none :: s => (.none, s)
  | some b :: s => (.ofByte b, s)

/-- `_rym_read_data`: the bytes that come in time. -/
def readData : ℕ → Stream → List UInt8 × Stream
  | 0, s => ([], s)
  | _ + 1, [] => ([], [])
  | _ + 1, none :: s => ([], s)
  | len + 1, some b :: s =>
    let (bytes, s) := readData len s
    (b :: bytes, s)

variable (onData : Option (List UInt8 → Code))

/-- `_rym_trans_data`: the answer of `on_data`, and the call of it. -/
def transData (dataSz : ℕ) (s : Stream) : Except Err (Code × List Event) × Stream :=
  let tsz := 2 + dataSz + 2
  let (buf, s) := readData tsz s
  let byte i := buf.getD i 0
  let data := (buf.drop 2).take dataSz
  if buf.length ≠ tsz then (.error .dsz, s)
  else if (byte 0).toNat + (byte 1).toNat ≠ 0xFF then (.error .seq, s)
  else if (byte (tsz - 2)).toUInt16 <<< 8 ||| (byte (tsz - 1)).toUInt16 ≠ crc16 data then
    (.error .crc, s)
  else
    match onData with
    | none => (.ok (.ack, []), s)
    | some onData => (.ok (onData data, [.onData (byte 0) data]), s)

/-- The size that a code announces. -/
def Code.dataSz : Code → Option ℕ
  | .soh => some 128
  | .stx => some 1024
  | _ => Option.none

/-- The loop of `_rym_do_trans`, and its result.  Every round takes a byte, if there is
one. -/
def transLoop : ℕ → Stream → Option Err × List Event
  | 0, _ => (some .code, [])
  | rounds + 1, s =>
    let (code, s) := readCode s
    match code.dataSz with
    | none => (if code = .eot then none else some .code, [])
    | some dataSz =>
      match transData onData dataSz s with
      | (.error err, _) => (some err, [])
      | (.ok (.can, handed), _) => (some .can, handed ++ [.putchar .can, .putchar .can])
      | (.ok (code, handed), s) =>
        let (err, events) := transLoop rounds s
        (err, handed ++ (if code = .ack then [.putchar .ack] else []) ++ events)

/-- `_rym_do_trans`; `none` is `RT_EOK`. -/
def doTrans (s : Stream) : Option Err × List Event :=
  let (err, events) := transLoop onData (s.length + 1) s
  (err, .putchar .ack :: .putchar .c :: events)

/-! ## Blocks that pass the checks -/

structure Block where
  seq : UInt8
  data : List UInt8
  size : data.length = 128 ∨ data.length = 1024

namespace Block

variable (b : Block)

/-- The block behind its code: number, complement, data and CRC. -/
def body : List UInt8 :=
  b.seq :: (255 - b.seq) :: (b.data ++ [(crc16 b.data >>> 8).toUInt8, (crc16 b.data).toUInt8])

def send : Stream := some (if b.data.length = 128 then 0x01 else 0x02) :: b.body.map some

/-- The block is handed over and acknowledged. -/
def taken : List Event := [.onData b.seq b.data, .putchar .ack]

end Block

/-- What a receiver that goes by the numbers does after the block `last`, and whether it comes
to the end of the blocks. -/
def followed (last : UInt8) : List Block → List Event × Bool
  | [] => ([], true)
  | b :: blocks =>
    if b.seq = last + 1 then
      let (events, ends) := followed b.seq blocks
      (b.taken ++ events, ends)
    else if b.seq = last then
      let (events, ends) := followed last blocks
      (.putchar .ack :: events, ends)
    else ([], false)

/-- The transfer is that of a receiver that goes by the numbers: the blocks are handed over
from 1 on, those that come again are acknowledged only, and a gap is an error. -/
def Follows (blocks : List Block) (out : Option Err × List Event) : Prop :=
  out.2 = .putchar .ack :: .putchar .c :: (followed 0 blocks).1 ∧
    ((followed 0 blocks).2 = false → out.1 ≠ none)

theorem readData_map (bytes : List UInt8) (s : Stream) :
    readData bytes.length (bytes.map some ++ s) = (bytes, s) := by
  induction bytes with
  | nil => rfl
  | cons b bytes ih => simp [readData, ih]

theorem join_bytes (x : UInt16) : (x >>> 8).toUInt8.toUInt16 <<< 8 ||| x.toUInt8.toUInt16 = x := by
  apply UInt16.toNat_inj.mp
  have hx := x.toNat_lt
  have hhigh : (x.toNat / 256 % 256) <<< 8 % 65536 = (x.toNat / 256) <<< 8 := by
    omega
  have hlow : x.toNat % 256 < 2 ^ 8 := mod_lt _ (by decide)
  simp only [UInt16.toNat_or, UInt16.toNat_shiftLeft, UInt8.toNat_toUInt16, UInt16.toNat_toUInt8,
    UInt16.toNat_shiftRight, shiftRight_eq_div_pow]
  change (x.toNat / 256 % 256) <<< 8 % 65536 ||| x.toNat % 256 = _
  rw [hhigh, ← shiftLeft_add_eq_or_of_lt hlow]
  omega

theorem add_complement (n : UInt8) : n.toNat + (255 - n).toNat = 255 := by
  have hle : n ≤ 255 := UInt8.le_iff_toNat_le.mpr (le_of_lt_succ n.toNat_lt)
  rw [UInt8.toNat_sub_of_le _ _ hle]
  have := n.toNat_lt
  change _ + (255 - _) = _
  omega

section

variable (b : Block)

theorem transData_body (onData : List UInt8 → Code) (s : Stream) :
    transData (some onData) b.data.length (b.body.map some ++ s) =
      (.ok (onData b.data, [.onData b.seq b.data]), s) := by
  have hlen : 2 + b.data.length + 2 = b.body.length := by simp [Block.body]; omega
  have hread := readData_map b.body s
  rw [← hlen] at hread
  have hcrc : b.body.getD (2 + b.data.length + 2 - 2) 0 = (crc16 b.data >>> 8).toUInt8 ∧
      b.body.getD (2 + b.data.length + 2 - 1) 0 = (crc16 b.data).toUInt8 := by
    simp [Block.body, add_comm 2]
  have hdata : (b.body.drop 2).take b.data.length = b.data := by simp [Block.body]
  have hseq : b.body.getD 0 0 = b.seq ∧ b.body.getD 1 0 = 255 - b.seq := ⟨rfl, rfl⟩
  unfold transData
  simp only [hread, hdata, hcrc, hseq, join_bytes, add_complement, ← hlen, ne_eq,
    not_true, if_false]

theorem readCode_send (s : Stream) :
    ∃ code, readCode (b.send ++ s) = (code, b.body.map some ++ s) ∧
      code.dataSz = some b.data.length := by
  rcases b.size with hsize | hsize
  · exact ⟨.soh, by simp [Block.send, hsize, readCode, Code.ofByte], by rw [hsize]; rfl⟩
  · exact ⟨.stx, by simp [Block.send, hsize, readCode, Code.ofByte], by rw [hsize]; rfl⟩

end

variable {rest : Stream}

/-- With a callback that acknowledges, every block is handed over, whatever its number. -/
theorem transLoop_blocks (hrest : (readCode rest).1.dataSz = none) (blocks : List Block)
    (rounds : ℕ) (hrounds : blocks.length < rounds) :
    transLoop (some fun _ => .ack) rounds (blocks.flatMap Block.send ++ rest) =
      (if (readCode rest).1 = .eot then none else some .code, blocks.flatMap Block.taken) := by
  induction blocks generalizing rounds with
  | nil =>
    obtain ⟨rounds, rfl⟩ := Nat.exists_eq_add_of_lt hrounds
    simp [transLoop, hrest]
  | cons b blocks ih =>
    obtain ⟨rounds, rfl⟩ := Nat.exists_eq_add_of_lt hrounds
    obtain ⟨code, hcode, hsize⟩ := readCode_send b (blocks.flatMap Block.send ++ rest)
    rw [flatMap_cons, append_assoc, transLoop]
    simp only [hcode, hsize, transData_body]
    rw [ih _ (by simp; omega)]
    rfl

theorem length_le_send (blocks : List Block) :
    blocks.length ≤ (blocks.flatMap Block.send).length := by
  induction blocks with
  | nil => exact le_refl 0
  | cons b blocks ih =>
    rw [flatMap_cons, length_append, length_cons, Block.send, length_cons]
    omega

theorem doTrans_blocks (hrest : (readCode rest).1.dataSz = none) (blocks : List Block) :
    doTrans (some fun _ => .ack) (blocks.flatMap Block.send ++ rest) =
      (if (readCode rest).1 = .eot then none else some .code,
        .putchar .ack :: .putchar .c :: blocks.flatMap Block.taken) := by
  have hlen := length_le_send blocks
  rw [doTrans, transLoop_blocks hrest blocks _ (by rw [length_append]; omega)]

theorem followed_eq_iff (blocks : List Block) (last : UInt8) :
    blocks.flatMap Block.taken = (followed last blocks).1 ↔
      List.IsChain (fun last seq => seq = last + 1) (last :: blocks.map Block.seq) := by
  induction blocks generalizing last with
  | nil => simp [followed]
  | cons b blocks ih =>
    rw [map_cons, List.isChain_cons_cons, ← ih b.seq, followed]
    split_ifs with hnext hagain
    · simp [hnext]
    · simp [hnext, Block.taken]
    · simp [hnext, Block.taken]

theorem followed_ends {blocks : List Block} {last : UInt8}
    (h : List.IsChain (fun last seq => seq = last + 1) (last :: blocks.map Block.seq)) :
    (followed last blocks).2 = true := by
  induction blocks generalizing last with
  | nil => rfl
  | cons b blocks ih =>
    obtain ⟨hnext, h⟩ := List.isChain_cons_cons.mp h
    rw [followed, if_pos hnext]
    exact ih h

/-- A sender's blocks are received by their numbers if and only if they come as 1, 2, 3 and so
on modulo 256, each once. -/
theorem doTrans_follows_iff (hrest : (readCode rest).1.dataSz = none) (blocks : List Block) :
    Follows blocks (doTrans (some fun _ => .ack) (blocks.flatMap Block.send ++ rest)) ↔
      List.IsChain (fun last seq => seq = last + 1) (0 :: blocks.map Block.seq) := by
  rw [Follows, doTrans_blocks hrest]
  constructor
  · rintro ⟨hevents, -⟩
    exact (followed_eq_iff blocks 0).mp (cons.inj (cons.inj hevents).2).2
  · intro hchain
    refine ⟨?_, fun hgap => ?_⟩
    · rw [(followed_eq_iff blocks 0).mpr hchain]
    · rw [followed_ends hchain] at hgap
      cases hgap

/-- Two blocks and the end of the transmission behind them. -/
theorem doTrans_follows_iff_two :
    let blocks : List Block :=
      [⟨1, replicate 128 5, .inl length_replicate⟩, ⟨2, replicate 1024 7, .inr length_replicate⟩]
    Follows blocks (doTrans (some fun _ => .ack) (blocks.flatMap Block.send ++ [some 0x04])) :=
  (doTrans_follows_iff (by decide) _).mpr (by decide)

/-- The first block comes a second time and then the third: all of them are handed over, and
the transfer succeeds. -/
theorem doTrans_hands_over_again :
    let block (seq : UInt8) : Block := ⟨seq, replicate 128 0, by simp⟩
    let data (seq : UInt8) : Event := .onData seq (replicate 128 0)
    doTrans (some fun _ => .ack) ([block 1, block 1, block 3].flatMap Block.send ++ [some 0x04]) =
        (none, [.putchar .ack, .putchar .c, data 1, .putchar .ack, data 1, .putchar .ack,
          data 3, .putchar .ack]) ∧
      followed 0 [block 1, block 1, block 3] = ([data 1, .putchar .ack, .putchar .ack], false) :=
  ⟨doTrans_blocks (by decide) _, by decide⟩

end Easyio.Ymodem
