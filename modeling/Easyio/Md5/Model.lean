import Easyio.Bytes.LittleEndian
import Easyio.Nor.Cells

/-!
# MD5

`MD5/md5sum.c`: the state, `md5_process`, `md5_append` and `md5_finish`, on the
little-endian processor the firmware runs on.

The macro `SET(a, b, c, d, k, s, T)` of the source updates its first argument, and
successive operations name the registers one step further round.  Here one
operation updates the first of four registers and then rotates them, so that a
round is a fold over its table of `(k, s, T)`.
-/

namespace Easyio.Md5

open Bytes

/-- The registers `abcd`. -/
structure Words where
  a : UInt32
  b : UInt32
  c : UInt32
  d : UInt32

/-- `ROTATE_LEFT` -/
def rotateLeft (x n : UInt32) : UInt32 := (x <<< n) ||| (x >>> (32 - n))

/-- The round functions `F`, `G`, `H` and `I`. -/
def roundF (x y z : UInt32) : UInt32 := (x &&& y) ||| (~~~x &&& z)

@[inherit_doc roundF]
def roundG (x y z : UInt32) : UInt32 := (x &&& z) ||| (y &&& ~~~z)

@[inherit_doc roundF]
def roundH (x y z : UInt32) : UInt32 := x ^^^ y ^^^ z

@[inherit_doc roundF]
def roundI (x y z : UInt32) : UInt32 := y ^^^ (x ||| ~~~z)

/-- The operations `(k, s, T)` of the four rounds. -/
def round1 : List (ℕ × UInt32 × UInt32) :=
  [
    (0, 7, 0xd76aa478), (1, 12, 0xe8c7b756), (2, 17, 0x242070db), (3, 22, 0xc1bdceee),
    (4, 7, 0xf57c0faf), (5, 12, 0x4787c62a), (6, 17, 0xa8304613), (7, 22, 0xfd469501),
    (8, 7, 0x698098d8), (9, 12, 0x8b44f7af), (10, 17, 0xffff5bb1), (11, 22, 0x895cd7be),
    (12, 7, 0x6b901122), (13, 12, 0xfd987193), (14, 17, 0xa679438e), (15, 22, 0x49b40821)]

@[inherit_doc round1]
def round2 : List (ℕ × UInt32 × UInt32) :=
  [
    (1, 5, 0xf61e2562), (6, 9, 0xc040b340), (11, 14, 0x265e5a51), (0, 20, 0xe9b6c7aa),
    (5, 5, 0xd62f105d), (10, 9, 0x02441453), (15, 14, 0xd8a1e681), (4, 20, 0xe7d3fbc8),
    (9, 5, 0x21e1cde6), (14, 9, 0xc33707d6), (3, 14, 0xf4d50d87), (8, 20, 0x455a14ed),
    (13, 5, 0xa9e3e905), (2, 9, 0xfcefa3f8), (7, 14, 0x676f02d9), (12, 20, 0x8d2a4c8a)]

@[inherit_doc round1]
def round3 : List (ℕ × UInt32 × UInt32) :=
  [
    (5, 4, 0xfffa3942), (8, 11, 0x8771f681), (11, 16, 0x6d9d6122), (14, 23, 0xfde5380c),
    (1, 4, 0xa4beea44), (4, 11, 0x4bdecfa9), (7, 16, 0xf6bb4b60), (10, 23, 0xbebfbc70),
    (13, 4, 0x289b7ec6), (0, 11, 0xeaa127fa), (3, 16, 0xd4ef3085), (6, 23, 0x04881d05),
    (9, 4, 0xd9d4d039), (12, 11, 0xe6db99e5), (15, 16, 0x1fa27cf8), (2, 23, 0xc4ac5665)]

@[inherit_doc round1]
def round4 : List (ℕ × UInt32 × UInt32) :=
  [
    (0, 6, 0xf4292244), (7, 10, 0x432aff97), (14, 15, 0xab9423a7), (5, 21, 0xfc93a039),
    (12, 6, 0x655b59c3), (3, 10, 0x8f0ccc92), (10, 15, 0xffeff47d), (1, 21, 0x85845dd1),
    (8, 6, 0x6fa87e4f), (15, 10, 0xfe2ce6e0), (6, 15, 0xa3014314), (13, 21, 0x4e0811a1),
    (4, 6, 0xf7537e82), (11, 10, 0xbd3af235), (2, 15, 0x2ad7d2bb), (9, 21, 0xeb86d391)]

/-- One `SET`, with the registers rotated afterwards. -/
def set (f : UInt32 → UInt32 → UInt32 → UInt32) (block : List UInt8) (w : Words) :
    ℕ × UInt32 × UInt32 → Words
  | (k, s, ti) =>
    let t := w.a + f w.b w.c w.d + getLe32 block (4 * k) + ti
    ⟨w.d, rotateLeft t s + w.b, w.b, w.c⟩

/-- `md5_process` on a block of 64 bytes. -/
def md5Process (start : Words) (block : List UInt8) : Words :=
  let w := round1.foldl (set roundF block) start
  let w := round2.foldl (set roundG block) w
  let w := round3.foldl (set roundH block) w
  let w := round4.foldl (set roundI block) w
  ⟨start.a + w.a, start.b + w.b, start.c + w.c, start.d + w.d⟩

/-- `md5_state_t` -/
structure State where
  count0 : UInt32
  count1 : UInt32
  abcd : Words
  /-- `buf[64]` -/
  buf : Nor.Cells

/-- The registers `md5_init` sets. -/
def initWords : Words := ⟨0x67452301, 0xefcdab89, 0x98badcfe, 0x10325476⟩

variable (st : State)

/-- `md5_init`, which leaves `buf` as it is. -/
def md5Init : State := { st with count0 := 0, count1 := 0, abcd := initWords }

/-- The loop over full blocks of `md5_append`, with a bound on its rounds: the
registers, and what is left of the data. -/
def fullBlocks : ℕ → Words → List UInt8 → Words × List UInt8
  | 0, w, data => (w, data)
  | fuel + 1, w, data =>
    if 64 ≤ data.length then fullBlocks fuel (md5Process w (data.take 64)) (data.drop 64)
    else (w, data)

/-- The end of `md5_append`: full blocks from the data, the rest into `buf`. -/
def appendBlocks (data : List UInt8) : State :=
  let done := fullBlocks data.length st.abcd data
  { st with abcd := done.1, buf := Nor.overwrite st.buf 0 done.2 }

/-- The length update of `md5_append`. -/
def addLength (nbytes : ℕ) : State :=
  let nbits := UInt32.ofNat (nbytes * 8)
  let count1 := st.count1 + UInt32.ofNat (nbytes / 2 ^ 29)
  let count0 := st.count0 + nbits
  { st with count0 := count0, count1 := if count0 < nbits then count1 + 1 else count1 }

/-- `md5_append` -/
def md5Append (data : List UInt8) : State :=
  let offset := ((st.count0 >>> 3) &&& 63).toNat
  if data = [] then st
  else
    let st := addLength st data.length
    if offset = 0 then appendBlocks st data
    else
      let copy := if 64 < offset + data.length then 64 - offset else data.length
      let st := { st with buf := Nor.overwrite st.buf offset (data.take copy) }
      if offset + copy < 64 then st
      else
        appendBlocks { st with abcd := md5Process st.abcd (Nor.window st.buf 0 64) }
          (data.drop copy)

/-- The message length as `md5_finish` appends it. -/
def lengthBytes (count0 count1 : UInt32) : List UInt8 := le32 count0 ++ le32 count1

/-- The bytes of `pad` that `md5_finish` appends. -/
def padBytes (count0 : UInt32) : List UInt8 :=
  let bytes : UInt32 := count0 >>> 3
  let padLength : UInt32 := (55 - bytes) &&& 63
  ((0x80 : UInt8) :: List.replicate 63 0).take (padLength.toNat + 1)

/-- The digest bytes of the registers. -/
def digestOf (w : Words) : Vector UInt8 16 :=
  Vector.ofFn fun i => (le32 w.a ++ le32 w.b ++ le32 w.c ++ le32 w.d).getD i 0

/-- `md5_finish` -/
def md5Finish : State × Vector UInt8 16 :=
  let data := lengthBytes st.count0 st.count1
  let st := md5Append (md5Append st (padBytes st.count0)) data
  (st, digestOf st.abcd)

end Easyio.Md5
