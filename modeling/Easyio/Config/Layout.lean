import Easyio.Bytes.LittleEndian

/-!
# The stored configuration

The memory map and the packed `struct SPIFLASH_CONFIG` of
`applications/spiflash_config.h`, and the CRC of `my_stdc_func.c` that guards it.

In the C code the structure in RAM is also the 49 bytes that are read and
written; here `toBytes` and `ofBytes` go between the two, and `ofBytes_toBytes`
says that what was written is what is read.
-/

namespace Easyio.Config

open Bytes

/-! ## Memory map -/

/-- `EASYIO_APP_SIZE` -/
def easyioAppSize : ℕ := 1024 * 256

/-- `CONFIG_ADDRESS` -/
def configAddress : ℕ := 4096 * 256

/-- `SPI_FLASH_FW_BCKP_ADDRESS` -/
def spiFlashFwBckpAddress : ℕ := 4096 * 256 + 4096

/-- `SPI_FLASH_FW_ADDRESS` -/
def spiFlashFwAddress : ℕ := 4096 * 256 + 4096 + easyioAppSize

/-- `SPI_FLASH_FW_SIZE` -/
def spiFlashFwSize : ℕ := easyioAppSize

/-- `USER_APP_CONFIG_ADDRESS` -/
def userAppConfigAddress : ℕ := 4096 * 256 + 4096 + easyioAppSize + spiFlashFwSize

/-! ## The CRC -/

/-- `CRC_INIT` -/
def crcInit : UInt16 := 0x3AA3

/-- `crc_tab16` -/
def crcTab16 : List UInt16 :=
  [
    0x0000, 0xc0c1, 0xc181, 0x0140, 0xc301, 0x03c0, 0x0280, 0xc241,
    0xc601, 0x06c0, 0x0780, 0xc741, 0x0500, 0xc5c1, 0xc481, 0x0440,
    0xcc01, 0x0cc0, 0x0d80, 0xcd41, 0x0f00, 0xcfc1, 0xce81, 0x0e40,
    0x0a00, 0xcac1, 0xcb81, 0x0b40, 0xc901, 0x09c0, 0x0880, 0xc841,
    0xd801, 0x18c0, 0x1980, 0xd941, 0x1b00, 0xdbc1, 0xda81, 0x1a40,
    0x1e00, 0xdec1, 0xdf81, 0x1f40, 0xdd01, 0x1dc0, 0x1c80, 0xdc41,
    0x1400, 0xd4c1, 0xd581, 0x1540, 0xd701, 0x17c0, 0x1680, 0xd641,
    0xd201, 0x12c0, 0x1380, 0xd341, 0x1100, 0xd1c1, 0xd081, 0x1040,
    0xf001, 0x30c0, 0x3180, 0xf141, 0x3300, 0xf3c1, 0xf281, 0x3240,
    0x3600, 0xf6c1, 0xf781, 0x3740, 0xf501, 0x35c0, 0x3480, 0xf441,
    0x3c00, 0xfcc1, 0xfd81, 0x3d40, 0xff01, 0x3fc0, 0x3e80, 0xfe41,
    0xfa01, 0x3ac0, 0x3b80, 0xfb41, 0x3900, 0xf9c1, 0xf881, 0x3840,
    0x2800, 0xe8c1, 0xe981, 0x2940, 0xeb01, 0x2bc0, 0x2a80, 0xea41,
    0xee01, 0x2ec0, 0x2f80, 0xef41, 0x2d00, 0xedc1, 0xec81, 0x2c40,
    0xe401, 0x24c0, 0x2580, 0xe541, 0x2700, 0xe7c1, 0xe681, 0x2640,
    0x2200, 0xe2c1, 0xe381, 0x2340, 0xe101, 0x21c0, 0x2080, 0xe041,
    0xa001, 0x60c0, 0x6180, 0xa141, 0x6300, 0xa3c1, 0xa281, 0x6240,
    0x6600, 0xa6c1, 0xa781, 0x6740, 0xa501, 0x65c0, 0x6480, 0xa441,
    0x6c00, 0xacc1, 0xad81, 0x6d40, 0xaf01, 0x6fc0, 0x6e80, 0xae41,
    0xaa01, 0x6ac0, 0x6b80, 0xab41, 0x6900, 0xa9c1, 0xa881, 0x6840,
    0x7800, 0xb8c1, 0xb981, 0x7940, 0xbb01, 0x7bc0, 0x7a80, 0xba41,
    0xbe01, 0x7ec0, 0x7f80, 0xbf41, 0x7d00, 0xbdc1, 0xbc81, 0x7c40,
    0xb401, 0x74c0, 0x7580, 0xb541, 0x7700, 0xb7c1, 0xb681, 0x7640,
    0x7200, 0xb2c1, 0xb381, 0x7340, 0xb101, 0x71c0, 0x7080, 0xb041,
    0x5000, 0x90c1, 0x9181, 0x5140, 0x9301, 0x53c0, 0x5280, 0x9241,
    0x9601, 0x56c0, 0x5780, 0x9741, 0x5500, 0x95c1, 0x9481, 0x5440,
    0x9c01, 0x5cc0, 0x5d80, 0x9d41, 0x5f00, 0x9fc1, 0x9e81, 0x5e40,
    0x5a00, 0x9ac1, 0x9b81, 0x5b40, 0x9901, 0x59c0, 0x5880, 0x9841,
    0x8801, 0x48c0, 0x4980, 0x8941, 0x4b00, 0x8bc1, 0x8a81, 0x4a40,
    0x4e00, 0x8ec1, 0x8f81, 0x4f40, 0x8d01, 0x4dc0, 0x4c80, 0x8c41,
    0x4400, 0x84c1, 0x8581, 0x4540, 0x8701, 0x47c0, 0x4680, 0x8641,
    0x8201, 0x42c0, 0x4380, 0x8341, 0x4100, 0x81c1, 0x8081, 0x4040]

/-- `crc16_update` -/
def crc16Update (crc : UInt16) (ch : UInt8) : UInt16 :=
  let tmp := crc ^^^ ch.toUInt16
  (crc >>> 8) ^^^ crcTab16.getD (tmp &&& 0xff).toNat 0

/-- `sdk_stream_crc16_calc` -/
def sdkStreamCrc16Calc (msg : List UInt8) : UInt16 := msg.foldl crc16Update crcInit

/-! ## The update state -/

/-- The `OTA_STATUS_MACHINE_*` values. -/
inductive OtaStatusMachine
  | none
  | downloadFinish
  | backupFinish
  | updateFinish
  | waitFwSuccessRun
  | fwRun1
  | fwRun2
  | fwError
  deriving DecidableEq

/-- The value of the enumerator. -/
def OtaStatusMachine.toByte : OtaStatusMachine → UInt8
  | none => 0
  | downloadFinish => 1
  | backupFinish => 2
  | updateFinish => 3
  | waitFwSuccessRun => 4
  | fwRun1 => 5
  | fwRun2 => 6
  | fwError => 7

/-- The enumerator with the given value, if there is one. -/
def OtaStatusMachine.ofByte (b : UInt8) : Option OtaStatusMachine :=
  [none, downloadFinish, backupFinish, updateFinish, waitFwSuccessRun, fwRun1, fwRun2,
    fwError][b.toNat]?

theorem OtaStatusMachine.ofByte_toByte (s : OtaStatusMachine) : ofByte s.toByte = some s := by
  cases s <;> rfl

/-! ## The structure -/

/-- `struct SPIFLASH_CONFIG` -/
structure SpiflashConfig where
  hardwareVersionH : UInt8
  hardwareVersionL : UInt8
  currentFwVersionH : UInt8
  currentFwVersionL : UInt8
  currentFwSize : UInt32
  currentFwMd5 : Vector UInt8 16
  otaStatusMachine : UInt8
  targetFwVersionH : UInt8
  targetFwVersionL : UInt8
  targetFwSize : UInt32
  targetFwMd5 : Vector UInt8 16
  configCrc : UInt16

namespace SpiflashConfig

variable (c : SpiflashConfig)

/-- The bytes in front of `CONFIG_CRC`. -/
def fieldBytes : List UInt8 :=
  [c.hardwareVersionH, c.hardwareVersionL, c.currentFwVersionH, c.currentFwVersionL] ++
    (le32 c.currentFwSize ++ (c.currentFwMd5.toList ++
      ([c.otaStatusMachine, c.targetFwVersionH, c.targetFwVersionL] ++
        (le32 c.targetFwSize ++ c.targetFwMd5.toList))))

/-- The 49 bytes of the packed structure. -/
def toBytes : List UInt8 := c.fieldBytes ++ le16 c.configCrc

/-- The 16 bytes at `offset`. -/
def md5At (bytes : List UInt8) (offset : ℕ) : Vector UInt8 16 :=
  Vector.ofFn fun i => bytes.getD (offset + i) 0

/-- The structure whose memory is `bytes`. -/
def ofBytes (bytes : List UInt8) : SpiflashConfig where
  hardwareVersionH := bytes.getD 0 0
  hardwareVersionL := bytes.getD 1 0
  currentFwVersionH := bytes.getD 2 0
  currentFwVersionL := bytes.getD 3 0
  currentFwSize := getLe32 bytes 4
  currentFwMd5 := md5At bytes 8
  otaStatusMachine := bytes.getD 24 0
  targetFwVersionH := bytes.getD 25 0
  targetFwVersionL := bytes.getD 26 0
  targetFwSize := getLe32 bytes 27
  targetFwMd5 := md5At bytes 31
  configCrc := getLe16 bytes 47

/-- `sizeof(struct SPIFLASH_CONFIG)` -/
def size : ℕ := 49

theorem length_fieldBytes : c.fieldBytes.length = 47 := by
  simp [fieldBytes]

theorem length_toBytes : c.toBytes.length = size := by
  simp [toBytes, length_fieldBytes, size]

theorem md5At_append (front back : List UInt8) (md5 : Vector UInt8 16) :
    md5At (front ++ (md5.toList ++ back)) front.length = md5 := by
  ext i hi
  simp only [md5At, Vector.getElem_ofFn, getD_append_add]
  rw [List.getD_eq_getElem?_getD, List.getElem?_append_left (by simpa using hi)]
  simp [hi]

theorem ofBytes_toBytes : ofBytes c.toBytes = c := by
  obtain ⟨hwH, hwL, curH, curL, curSize, curMd5, status, tgtH, tgtL, tgtSize, tgtMd5, crc⟩ := c
  -- the bytes in front of the state byte, and those in front of the target's size
  let front := [hwH, hwL, curH, curL] ++ le32 curSize ++ curMd5.toList
  let front' := front ++ [status, tgtH, tgtL]
  have hcurSize := getLe32_le32 [hwH, hwL, curH, curL] (curMd5.toList ++
    ([status, tgtH, tgtL] ++ (le32 tgtSize ++ (tgtMd5.toList ++ le16 crc)))) curSize
  have hcurMd5 := md5At_append ([hwH, hwL, curH, curL] ++ le32 curSize)
    ([status, tgtH, tgtL] ++ (le32 tgtSize ++ (tgtMd5.toList ++ le16 crc))) curMd5
  have hstate := fun i => getD_append_add front
    ([status, tgtH, tgtL] ++ (le32 tgtSize ++ (tgtMd5.toList ++ le16 crc))) i
  have htgtSize := getLe32_le32 front' (tgtMd5.toList ++ le16 crc) tgtSize
  have htgtMd5 := md5At_append (front' ++ le32 tgtSize) (le16 crc) tgtMd5
  have hcrc := getLe16_le16 (front' ++ le32 tgtSize ++ tgtMd5.toList) [] crc
  have hfront : front.length = 24 := by simp [front]
  have hfront' : front'.length = 27 := by simp [front', hfront]
  simp only [List.length_append, length_le32, Vector.length_toList, hfront', hfront]
    at hcurMd5 hstate htgtSize htgtMd5 hcrc
  simp only [front', List.append_assoc] at hcurMd5 hstate htgtSize htgtMd5 hcrc
  simp only [ofBytes, toBytes, fieldBytes, List.append_assoc, mk.injEq]
  exact ⟨rfl, rfl, rfl, rfl, hcurSize, hcurMd5, hstate 0, hstate 1, hstate 2, htgtSize,
    htgtMd5, hcrc⟩

/-! ## Sealing and the state byte -/

/-- The CRC of the bytes in front of `CONFIG_CRC`. -/
def crc : UInt16 := sdkStreamCrc16Calc c.fieldBytes

def withCrc : SpiflashConfig := { c with configCrc := c.crc }

/-- The value of the `switch` on `ota_status_machine`. -/
def status : Option OtaStatusMachine :=
  OtaStatusMachine.ofByte c.otaStatusMachine

def setStatus (s : OtaStatusMachine) : SpiflashConfig :=
  { c with otaStatusMachine := s.toByte }

@[simp] theorem crc_withCrc : c.withCrc.crc = c.crc := rfl

@[simp] theorem configCrc_withCrc : c.withCrc.configCrc = c.crc := rfl

@[simp] theorem status_withCrc : c.withCrc.status = c.status := rfl

@[simp] theorem status_setStatus (s : OtaStatusMachine) :
    (c.setStatus s).status = some s := OtaStatusMachine.ofByte_toByte s

end SpiflashConfig

end Easyio.Config
