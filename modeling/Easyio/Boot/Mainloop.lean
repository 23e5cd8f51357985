import Easyio.ChipFlash.Programmer
import Easyio.Config.Store

/-!
# The bootloader

`bootloader_readconfig`, `write_hardware_version` and `mainloop` of
`applications/bootloader_main.c`, and the part of the application's `mainloop`
(`applications/ppp_service.c`) that confirms an update.

A boot is run on the content of the SPI flash.  Its result is the list of flash
operations it issues, on either flash and in order, and how it ends: with
`JumpToApp`, or in a loop it never leaves.  What the chip's own flash held before
does not matter, since the bootloader never reads it.

As in the copy code, the type of the cells that are copied is left open; `cell`
turns an address of the SPI flash into what is read there.

Left out: the serial port, the LEDs and the watchdog, and the digest that
`check_flash` computes and prints, since nothing depends on it.  The code after
the `break` in the branch for `DOWNLOAD_FINISH`, which would make a backup, cannot
be reached.  Reading `firmware_header` before the loop has no effect either,
since the two branches that use it read it again.
-/

namespace Easyio.Boot

open Crash W25q16 ChipFlash Config

variable {α : Type*}

/-- `EASYIO_ADDRESS` -/
def easyioAddress : ℕ := 0x8000000 + 1024 * 128

/-- `sizeof(struct FIRMWARE_HEADER)` -/
def headerSize : ℕ := 23

/-- The largest payload the bootloader accepts,
`EASYIO_APP_SIZE - sizeof(firmware_header)`. -/
def maxPayload : ℕ := easyioAppSize - headerSize

/-- `firmware_header.size` of the header at `addr`. -/
def firmwareSize (d : Driver) (addr : ℕ) : ℕ :=
  (Bytes.getLe32 (spiFlashRead d addr headerSize) 0).toNat

/-- Which of a boot's two calls of `rt_malloc(256)` succeed: the one of the copy,
and the one of `check_flash`. -/
structure Heap where
  copyBuffer : Bool
  checkBuffer : Bool

/-- An operation on one of the two flash memories. -/
inductive DeviceOp (α : Type*) where
  | spi (op : Nor.Op)
  | chip (op : ChipOp α)

/-- The bootloader's variables, and the operations issued so far. -/
structure Machine (α : Type*) where
  spi : Driver
  spiflashConf : SpiflashConfig
  prog : Programmer α
  log : List (DeviceOp α)

/-- How a boot ends. -/
inductive Outcome where
  /-- `JumpToApp(EASYIO_ADDRESS)` -/
  | jump
  /-- A loop that does nothing. -/
  | halt
  deriving DecidableEq

/-- `writeconfig` -/
def saveConfig (m : Machine α) : Machine α :=
  let written := writeconfig m.spiflashConf m.spi
  { m with
    spi := written.2
    spiflashConf := written.1
    log := m.log ++ (issuedSince m.spi written.2).map .spi }

/-- Set `ota_status_machine` in RAM. -/
def setStatus (s : OtaStatusMachine) (m : Machine α) : Machine α :=
  { m with spiflashConf := m.spiflashConf.setStatus s }

/-- `HARDWARE_VERSION_H_VAL` and `HARDWARE_VERSION_L_VAL` stored in `c`. -/
def withHardwareVersion (c : SpiflashConfig) : SpiflashConfig :=
  { c with hardwareVersionH := 1, hardwareVersionL := 0 }

/-- The configuration `bootloader_readconfig` falls back to: `memset` to zero, and
the hardware version. -/
def defaultConfig : SpiflashConfig :=
  withHardwareVersion (.ofBytes (List.replicate SpiflashConfig.size 0))

/-- `bootloader_readconfig` -/
def bootloaderReadconfig (m : Machine α) : Machine α :=
  let c := load m.spi
  if c.configCrc = c.crc then { m with spiflashConf := c }
  else saveConfig { m with spiflashConf := defaultConfig }

/-- `write_hardware_version` -/
def writeHardwareVersion (m : Machine α) : Machine α :=
  if m.spiflashConf.hardwareVersionH = 1 ∧ m.spiflashConf.hardwareVersionL = 0 then m
  else saveConfig { m with spiflashConf := withHardwareVersion m.spiflashConf }

/-- `spiflash_2_chipflash` from the payload behind the header at `addr`; `false`
when it does not return. -/
def copyPayload (malloc : Bool) (cell : Nor.Cells → ℕ → α) (addr size : ℕ) (m : Machine α) :
    Machine α × Bool :=
  let prog := { m.prog with ops := [] }
  let copied := spiflash2chipflash malloc (cell m.spi.flash) (addr + headerSize) easyioAddress size
    prog
  ({ m with prog := copied.1, log := m.log ++ copied.1.ops.map .chip }, copied.2)

/-- One round of the loop of `mainloop`; `none` means another round. -/
def round (heap : Heap) (cell : Nor.Cells → ℕ → α) (m : Machine α) : Machine α × Option Outcome :=
  match m.spiflashConf.status with
  | some .none => (m, some .jump)
  | some .downloadFinish => (saveConfig (setStatus .backupFinish m), none)
  | some .backupFinish =>
    let size := firmwareSize m.spi spiFlashFwAddress
    if maxPayload < size then (saveConfig (setStatus .none m), none)
    else
      let copied := copyPayload heap.copyBuffer cell spiFlashFwAddress size m
      -- both `spiflash_2_chipflash` and `check_flash` hang when they get no buffer
      if copied.2 && heap.checkBuffer then
        (saveConfig (setStatus .updateFinish copied.1), some .jump)
      else (copied.1, some .halt)
  | some .updateFinish => (setStatus .waitFwSuccessRun m, some .jump)
  | some .waitFwSuccessRun =>
    let size := firmwareSize m.spi spiFlashFwBckpAddress
    if maxPayload < size then (m, some .halt)
    else
      let copied := copyPayload heap.copyBuffer cell spiFlashFwBckpAddress size m
      if copied.2 then (saveConfig (setStatus .none copied.1), none)
      else (copied.1, some .halt)
  -- no `case` for the other values: the loop goes on without doing anything
  | _ => (m, some .halt)

/-- The loop of `mainloop`, with a bound on its rounds; `none` means that the bound
was too small. -/
def loop (heap : Heap) (cell : Nor.Cells → ℕ → α) : ℕ → Machine α → Machine α × Option Outcome
  | 0, m => (m, none)
  | fuel + 1, m =>
    match round heap cell m with
    | (m, some outcome) => (m, some outcome)
    | (m, none) => loop heap cell fuel m

/-- The machine before `mainloop`; `blank` is a cell of zero-initialised RAM. -/
def powerOn (blank : α) (spi : Nor.Cells) : Machine α where
  spi := Driver.boot spi
  spiflashConf := .ofBytes []
  prog := .reset blank
  log := []

/-- The machine when the loop of `mainloop` begins. -/
def beforeLoop (blank : α) (spi : Nor.Cells) : Machine α :=
  writeHardwareVersion (bootloaderReadconfig (powerOn blank spi))

/-- `mainloop`.  It never takes more than three rounds (`boot_ends`). -/
def boot (heap : Heap) (cell : Nor.Cells → ℕ → α) (blank : α) (spi : Nor.Cells) :
    Machine α × Option Outcome :=
  loop heap cell 3 (beforeLoop blank spi)

/-- `FW_VERSION_H` and `FW_VERSION_L` of the application stored in `c`. -/
def withFirmwareVersion (c : SpiflashConfig) : SpiflashConfig :=
  { c with currentFwVersionH := 1, currentFwVersionL := 0 }

/-- The first of the application's two updates of the configuration: it confirms
itself by writing the state `NONE`. -/
def confirmUpdate (m : Machine α) : Machine α :=
  if m.spiflashConf.otaStatusMachine ≠ OtaStatusMachine.none.toByte then
    saveConfig (setStatus .none { m with spiflashConf := withFirmwareVersion m.spiflashConf })
  else m

/-- The second: it stores its version if that is not there yet. -/
def storeVersion (m : Machine α) : Machine α :=
  if m.spiflashConf.currentFwVersionH ≠ 1 ∨ m.spiflashConf.currentFwVersionL ≠ 0 then
    saveConfig { m with spiflashConf := withFirmwareVersion m.spiflashConf }
  else m

/-- What the application does to the configuration when it starts.  With a wrong
CRC `readconfig` does not return. -/
def appMainloop (m : Machine α) : Machine α :=
  match readconfig m.spi with
  | none => m
  | some c => storeVersion (confirmUpdate { m with spiflashConf := c })

end Easyio.Boot
