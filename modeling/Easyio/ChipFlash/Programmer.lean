import Easyio.W25q16.Driver

/-!
# Programming the chip's own flash

The word programmer of `drivers/extdrv/flash_opt.c` (`FLASH_ProgramStart`,
`FLASH_AppendOneByte`, `FLASH_AppendEnd`) and the copy loop
`spiflash_2_chipflash` of `applications/bootloader_main.c` on top of it.

Nothing in this code looks at the bytes it moves, so the model leaves their type
open.  With bytes it is the code; with addresses of the SPI flash in their place
it tells where each programmed byte was read from.

`spiflash2chipflash_ops` says what the whole copy issues: the page erases and
then the words of the copied data, filled up to a whole word with bytes still in
the word buffer.

Left out: the write protection and lock calls, which change no cell, and
`prog_size`, which nothing reads.  `FLASH_ErasePage` and
`FLASH_FastProgramWord` are taken to succeed.
-/

namespace Easyio.ChipFlash

open W25q16

variable {α : Type*}

/-- A change of the program memory whose cells are of type `α`. -/
inductive ChipOp (α : Type*) where
  | erasePage (addr : ℕ)
  | programWord (addr : ℕ) (word : List α)

/-- The static variables of `flash_opt.c`, and the operations issued so far. -/
structure Programmer (α : Type*) where
  progStratAddress : ℕ
  progWriteCnt : ℕ
  /-- `__write_flash_buffer[4]` -/
  writeFlashBuffer : ℕ → α
  writeFlashBufferIndex : ℕ
  ops : List (ChipOp α)

/-- The variables after a reset; `blank` is what zero-initialised RAM holds. -/
def Programmer.reset (blank : α) : Programmer α where
  progStratAddress := 0
  progWriteCnt := 0
  writeFlashBuffer := fun _ => blank
  writeFlashBufferIndex := 0
  ops := []

/-- The loop of `flash_erase`, with a bound on its rounds. -/
def flashErase : ℕ → ℕ → ℕ → List (ChipOp α)
  | 0, _, _ => []
  | fuel + 1, flashaddress, endaddr =>
    if flashaddress ≤ endaddr then
      .erasePage flashaddress :: flashErase fuel (flashaddress + 256) endaddr
    else []

/-- `FLASH_ProgramStart`.  The word buffer keeps what it held. -/
def flashProgramStart (addr size : ℕ) (s : Programmer α) : Programmer α :=
  { s with
    progStratAddress := addr
    progWriteCnt := 0
    writeFlashBufferIndex := 0
    ops := s.ops ++ flashErase (size + 1) addr (addr + size) }

section

variable (s : Programmer α)

/-- `Program4Bytes_Flash` on the word buffer, and the two updates that follow every
call of it.  The counter is a `u16`. -/
def flushWord : Programmer α :=
  { s with
    ops := s.ops ++ [.programWord (s.progStratAddress + s.progWriteCnt * 4)
      ((List.range 4).map s.writeFlashBuffer)]
    writeFlashBufferIndex := 0
    progWriteCnt := (s.progWriteCnt + 1) % 2 ^ 16 }

/-- `FLASH_AppendOneByte` -/
def flashAppendOneByte (data : α) : Programmer α :=
  let s := { s with
    writeFlashBuffer := Function.update s.writeFlashBuffer s.writeFlashBufferIndex data
    writeFlashBufferIndex := s.writeFlashBufferIndex + 1 }
  if 4 ≤ s.writeFlashBufferIndex then flushWord s else s

/-- `FLASH_AppendBuffer` -/
def flashAppendBuffer (data : List α) : Programmer α :=
  data.foldl flashAppendOneByte s

/-- `FLASH_AppendEnd` -/
def flashAppendEnd : Programmer α :=
  if 0 < s.writeFlashBufferIndex then flushWord s else s

end

/-- `SPI_Flash_Read`, where `cell` gives the cell of the SPI flash at an address. -/
def readCells (cell : ℕ → α) (addr n : ℕ) : List α :=
  (List.range n).map fun i => cell (addr24 (addr + i))

/-- The `while(total > 0)` loop of `spiflash_2_chipflash`, with a bound on its
rounds. -/
def copyLoop (cell : ℕ → α) : ℕ → ℕ → ℕ → ℕ → Programmer α → Programmer α
  | 0, _, _, _, s => s
  | fuel + 1, address, rcnt, total, s =>
    if 0 < total then
      if 256 < total then
        copyLoop cell fuel address (rcnt + 1) (total - 256)
          (flashAppendBuffer s (readCells cell (address + rcnt * 256) 256))
      else
        copyLoop cell fuel address (rcnt + 1) 0
          (flashAppendBuffer s (readCells cell (address + rcnt * 256) total))
    else s

/-- `spiflash_2_chipflash`.  The second component says whether it returns: when
`rt_malloc` fails it loops forever, the pages already erased. -/
def spiflash2chipflash (malloc : Bool) (cell : ℕ → α) (spiAddress chipAddress size : ℕ)
    (s : Programmer α) : Programmer α × Bool :=
  let s := flashProgramStart chipAddress size s
  if malloc then (flashAppendEnd (copyLoop cell (size + 1) spiAddress 0 size s), true)
  else (s, false)

end Easyio.ChipFlash
