import Easyio.Config.Layout
import Easyio.Json.Text
import Easyio.W25q16.SessionSpec

/-!
# The user configuration

`user_app_conf`, `userapp_writeconfig`, `userapp_readconfig`,
`set_default_userconfig`, `makeJson` and `parseJson` of
`applications/spiflash_config.c`.

The structure `USER_APP_CONFIG` is packed and has 363 bytes.  It is kept here as
the memory it lies in, byte 0 of the memory being byte 0 of the structure,
because `parseJson` copies strings into it without a bound.  A `Field` is a
member of the structure with its place; the fields that go through the text are
those of `members`.

The text is printed with `cJSON_Print` and read with `cJSON_Parse`, which is the
parameter `parse`.
-/

namespace Easyio.Config

open Bytes CString Json W25q16 Nor

/-! ## The structure -/

/-- A member of the structure.  For a string, `bounded` says that `parseJson` copies
it with `snprintf` and the size of the array, and not with `sprintf`. -/
inductive Field where
  | word (offset : ℕ)
  | half (offset : ℕ)
  | byte (offset : ℕ)
  | text (offset size : ℕ) (bounded : Bool)
  deriving DecidableEq

/-- `sizeof(struct USER_APP_CONFIG)` -/
def userSize : ℕ := 363

namespace Field

def offset : Field → ℕ
  | word offset => offset
  | half offset => offset
  | byte offset => offset
  | text offset _ _ => offset

/-- `sizeof` the field. -/
def size : Field → ℕ
  | word _ => 4
  | half _ => 2
  | byte _ => 1
  | text _ size _ => size

/-- The field as `makeJson` passes it on: an `unsigned int`, a `short` or an
`unsigned char` as a number, an array as a C string.  A string without its zero is
read on to the end of the structure. -/
def get (m : Cells) : Field → Value
  | word offset => .num (getLe32 (window m offset 4) 0).toNat
  | half offset => .num (getLe16 (window m offset 2) 0).toBitVec.toInt
  | byte offset => .num (m offset).toNat
  | text offset _ _ => .str (cString (window m offset (userSize - offset)))

end Field

/-- The member `valueint`: the number as an `int`.  A number beyond the range of an
`int` gives its end; a string has a zero there. -/
def valueint : Value → ℤ
  | .num n => max (-2 ^ 31) (min n (2 ^ 31 - 1))
  | .str _ => 0

section

variable (m : Cells)

/-- The field after `parseJson` has taken `value` for it.  A number has no
`valuestring`; C leaves open what `sprintf` then does, here it does nothing. -/
def Field.set (value : Value) : Field → Cells
  | word offset => overwrite m offset (le32 (.ofBitVec (.ofInt 32 (valueint value))))
  | half offset => overwrite m offset (le16 (.ofBitVec (.ofInt 16 (valueint value))))
  | byte offset => overwrite m offset [.ofBitVec (.ofInt 8 (valueint value))]
  | text offset size bounded =>
    match value with
    | .num _ => m
    | .str s => overwrite m offset ((if bounded then snprintfS size s else s) ++ [0])

/-! ## The text -/

/-- The members that `makeJson` adds for the structure, in its order. -/
def members : List (List UInt8 × Field) :=
  [(ascii "PRESENCE_UPLOAD_PREIOD", .word 1), (ascii "PRESENCE_BC_COUNT", .word 5),
   (ascii "HOST_ADDRESS", .text 9 128 false),
   (ascii "HOST_PORT", .half 137),
   (ascii "ACCOUNT", .text 139 32 false),
   (ascii "MANUALLY_OTA", .byte 171),
   (ascii "MOVINDEX", .byte 172),
   (ascii "phoneBook1", .text 173 16 false),
   (ascii "phoneBook2", .text 189 16 false),
   (ascii "phoneBook3", .text 205 16 false),
   (ascii "phoneBook4", .text 221 16 false),
   (ascii "CCID", .text 237 28 false),
   (ascii "APN", .text 265 32 true),
   (ascii "USERNAME", .text 297 32 true),
   (ascii "PASSWORD", .text 329 32 true)]

/-- The object `pJsonRoot` of `makeJson`. -/
def jsonRoot : Object :=
  members.map (fun member => (member.1, member.2.get m)) ++
    [(ascii "JSON_FLAG", .str (ascii "JSON"))]

/-- `makeJson` -/
def makeJson : List UInt8 := print (jsonRoot m)

/-- `cJSON_GetObjectItem`: the first member of that name, in capitals or not. -/
def getObjectItem (o : Object) (name : List UInt8) : Option Value :=
  (o.find? fun member => member.1.map toLower = name.map toLower).map Prod.snd

/-- The members that `parseJson` looks for, in its order. -/
def parsed : List (List UInt8 × Field) :=
  [(ascii "PRESENCE_UPLOAD_PREIOD", .word 1), (ascii "PRESENCE_BC_COUNT", .word 5),
   (ascii "HOST_ADDRESS", .text 9 128 false),
   (ascii "HOST_PORT", .half 137),
   (ascii "ACCOUNT", .text 139 32 false),
   (ascii "MOVINDEX", .byte 172),
   (ascii "phoneBook1", .text 173 16 false),
   (ascii "phoneBook2", .text 189 16 false),
   (ascii "phoneBook3", .text 205 16 false),
   (ascii "phoneBook4", .text 221 16 false),
   (ascii "MANUALLY_OTA", .byte 171),
   (ascii "CCID", .text 237 28 false),
   (ascii "APN", .text 265 32 true),
   (ascii "USERNAME", .text 297 32 true),
   (ascii "PASSWORD", .text 329 32 true)]

/-- What `parseJson` does for one member. -/
def takeItem (o : Object) (m : Cells) (member : List UInt8 × Field) : Cells :=
  match getObjectItem o member.1 with
  | none => m
  | some value => member.2.set m value

/-- `parseJson` -/
def parseJson (parse : List UInt8 → Option Object) (m : Cells) (pMsg : List UInt8) : Cells :=
  match parse pMsg with
  | none => m
  | some o => parsed.foldl (takeItem o) m

/-! ## Writing and reading -/

/-- `userapp_writeconfig` -/
def userappWriteconfig (d : Driver) : Driver :=
  w25xAppendEnd (appendW25xAppendBuffer (initWriteFlash userAppConfigAddress d) (makeJson m))

/-- The structure as `set_default_userconfig` sets it. -/
def defaultUserconfig : Cells :=
  let m := overwrite m 0 (List.replicate userSize 0)
  let m := (Field.word 1).set m (.num 600)
  let m := (Field.text 9 128 true).set m (.str (ascii "jareymobile.com.tw"))
  let m := (Field.byte 171).set m (.num 0)
  let m := (Field.text 139 32 true).set m (.str (ascii ""))
  (Field.half 137).set m (.num 20030)

/-- The fields that `set_default_userconfig` empties after its first write. -/
def clearApn : Cells :=
  let m := overwrite m 237 [0]
  let m := overwrite m 265 [0]
  let m := overwrite m 329 [0]
  let m := overwrite m 297 [0]
  (Field.word 5).set m (.num 0)

end

/-- `set_default_userconfig` -/
def setDefaultUserconfig (writeflash : Bool) (m : Cells) (d : Driver) : Cells × Driver :=
  let m := defaultUserconfig m
  let d := userappWriteconfig m d
  let m := clearApn m
  (m, if writeflash then userappWriteconfig m d else d)

/-- `userapp_readconfig`.  `malloc` is whether there is room for the buffer. -/
def userappReadconfig (malloc : Bool) (parse : List UInt8 → Option Object) (m : Cells)
    (d : Driver) : Cells × Driver :=
  if malloc then
    let jsonBuffer := (spiFlashRead d userAppConfigAddress 512).set 511 0
    if (strstr (ascii "JSON_FLAG") (cString jsonBuffer)).isSome then
      (parseJson parse m (cString jsonBuffer), d)
    else
      -- the structure itself, as older versions wrote it
      let m := overwrite m 0 (jsonBuffer.take userSize)
      if getLe16 (window m 361 2) 0 = sdkStreamCrc16Calc (window m 0 361) then
        (m, userappWriteconfig m d)
      else setDefaultUserconfig true m d
  else (m, d)

end Easyio.Config
