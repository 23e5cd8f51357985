import Easyio.Crash.Replay
import Easyio.Nor.Cells

/-!
# The W25Q16 driver

The SPI flash driver of `drivers/extdrv/w25q16.c`: reading, the page and sector
writers, and the streaming session `init_write_flash` / `append_w25x_byte` /
`w25x_append_end`.

`Driver` holds the chip's cells together with the erase and program commands
issued so far and the driver's static variables.  The commands are kept because
two questions are asked about them that the final cells cannot answer: which
sectors were touched, and what a power loss between two commands leaves behind.

Addresses are natural numbers.  A command carries the three address bytes the
driver shifts out, that is the address modulo `2 ^ 24` (`addr24`); the `u32`
wrap-around of the C code is visible only where an address is computed from the
sector counter, and is written there.  The chip has `capacity` bytes; cells from
there on do not exist, so a command that addresses one changes no byte of the
chip.

A `while(1)` loop is a recursion on a bound that its callers set to one more
than the number of bytes to write: every round but the last writes at least one
byte.  That the bound is never the reason for stopping is part of what the
results about these loops say, since they give the final state in closed form.
-/

namespace Easyio.W25q16

open List Crash

/-- Bytes of a W25Q16: 512 sectors of 4096 bytes. -/
def capacity : ℕ := 512 * 4096

/-- The effect of a command on the cells: 4096-byte sectors, 256-byte pages. -/
abbrev norApply : Nor.Cells → Nor.Op → Nor.Cells := Nor.apply 4096 256

/-- The sector a command addresses. -/
def sectorOf (op : Nor.Op) : ℕ := op.addr / 4096

/-- The chip and the driver's static variables. -/
structure Driver where
  /-- The cells of the chip. -/
  flash : Nor.Cells
  /-- The erase and program commands issued so far, oldest first. -/
  ops : List Nor.Op
  /-- `SPI_FLASH_BUF[4096]`, which is also `spiflash_page_buffer`. -/
  spiFlashBuf : ℕ → UInt8
  /-- `spiflash_page_buffer_index`, a `u16`. -/
  pageBufferIndex : ℕ
  /-- `spiflash_page_sector_index`, a `u16`. -/
  pageSectorIndex : ℕ
  /-- `history_baseaddr`, a `u32`. -/
  historyBaseaddr : ℕ

/-- A driver just after reset: static variables zero, no command issued. -/
def Driver.boot (flash : Nor.Cells) : Driver :=
  { flash, ops := [], spiFlashBuf := fun _ => 0, pageBufferIndex := 0, pageSectorIndex := 0,
    historyBaseaddr := 0 }

/-- The three address bytes of a command. -/
def addr24 (addr : ℕ) : ℕ := addr % 2 ^ 24

def Driver.emit (d : Driver) (op : Nor.Op) : Driver :=
  { d with flash := norApply d.flash op, ops := d.ops ++ [op] }

/-- Issue the commands of `ops` in order. -/
def Driver.emitAll (d : Driver) (ops : List Nor.Op) : Driver :=
  { d with flash := replay norApply d.flash ops, ops := d.ops ++ ops }

/-- A `u8 *` argument: a buffer of the caller, or a place inside `SPI_FLASH_BUF`
itself, in which case the driver's own stores show through it. -/
inductive Source where
  | ext (bytes : List UInt8)
  | buf (offset : ℕ)

/-- `pBuffer[i]`. -/
def Source.get (d : Driver) : Source → ℕ → UInt8
  | .ext bytes, i => bytes.getD i 0
  | .buf offset, i => d.spiFlashBuf (offset + i)

/-- `pBuffer += n`. -/
def Source.advance (n : ℕ) : Source → Source
  | .ext bytes => .ext (bytes.drop n)
  | .buf offset => .buf (offset + n)

/-- The first `n` bytes behind a pointer. -/
def Source.bytes (d : Driver) (p : Source) (n : ℕ) : List UInt8 := (range n).map (p.get d)

/-! ## Reading and the single commands -/

/-- `SPI_Flash_Read`. -/
def spiFlashRead (d : Driver) (readAddr numByteToRead : ℕ) : List UInt8 :=
  (range numByteToRead).map fun i => d.flash (addr24 (readAddr + i))

/-- `SPI_Flash_Read` with `SPI_FLASH_BUF` as its destination. -/
def spiFlashReadToBuf (readAddr numByteToRead : ℕ) (d : Driver) : Driver :=
  { d with spiFlashBuf := fun i =>
      if i < numByteToRead then d.flash (addr24 (readAddr + i)) else d.spiFlashBuf i }

/-- `SPI_Flash_Erase_Sector`. -/
def spiFlashEraseSector (dstAddr : ℕ) (d : Driver) : Driver :=
  d.emit (.erase (addr24 (dstAddr * 4096)))

/-- `SPI_Flash_Write_Page`. -/
def spiFlashWritePage (p : Source) (writeAddr numByteToWrite : ℕ) (d : Driver) : Driver :=
  d.emit (.program (addr24 writeAddr) (p.bytes d numByteToWrite))

/-! ## The page writer -/

/-- The `while(1)` loop of `SPI_Flash_Write_NoCheck`. -/
def writeNoCheckLoop : ℕ → Source → ℕ → ℕ → ℕ → Driver → Driver
  | 0, _, _, _, _, d => d
  | fuel + 1, p, writeAddr, numByteToWrite, pageremain, d =>
    let d := spiFlashWritePage p writeAddr pageremain d
    if numByteToWrite = pageremain then d
    else
      let rest := numByteToWrite - pageremain
      writeNoCheckLoop fuel (p.advance pageremain) (writeAddr + pageremain) rest
        (if 256 < rest then 256 else rest) d

/-- `SPI_Flash_Write_NoCheck`. -/
def spiFlashWriteNoCheck (p : Source) (writeAddr numByteToWrite : ℕ) (d : Driver) : Driver :=
  let pageremain := 256 - writeAddr % 256
  writeNoCheckLoop (numByteToWrite + 1) p writeAddr numByteToWrite
    (if numByteToWrite ≤ pageremain then numByteToWrite else pageremain) d

/-! ## The sector writers -/

/-- `for(i=0;i<n;i++) SPI_FLASH_BUF[i+secoff]=pBuffer[i];`, one store at a time
because `pBuffer` may point into `SPI_FLASH_BUF`. -/
def copyToBuf (p : Source) (secoff n : ℕ) (d : Driver) : Driver :=
  (range n).foldl (fun d i =>
    { d with spiFlashBuf := Function.update d.spiFlashBuf (i + secoff) (p.get d i) }) d

/-- The index at which the loop over `SPI_FLASH_BUF[secoff+i]!=0XFF` breaks, or
`secremain`. -/
def firstNotErased (buf : ℕ → UInt8) (secoff secremain : ℕ) : ℕ :=
  ((range secremain).find? fun i => buf (secoff + i) ≠ 0xFF).getD secremain

/-- One round of the common loop of `SPI_Flash_Write` and `SPI_Flash_Write2`.
They differ in how a round finds the index `i` it compares with `secremain`:
`probe` gets the sector, the offset and the length, and returns `i` with the
driver after any read it did. -/
def writeSectorRound (probe : ℕ → ℕ → ℕ → Driver → Driver × ℕ) (p : Source)
    (writeAddr secpos secoff secremain : ℕ) (d : Driver) : Driver :=
  let (d, i) := probe secpos secoff secremain d
  if i < secremain then
    spiFlashWriteNoCheck (.buf 0) (secpos * 4096) 4096
      (copyToBuf p secoff secremain (spiFlashEraseSector secpos d))
  else spiFlashWriteNoCheck p writeAddr secremain d

/-- The common loop. -/
def writeSectorsLoop (probe : ℕ → ℕ → ℕ → Driver → Driver × ℕ) :
    ℕ → Source → ℕ → ℕ → ℕ → ℕ → ℕ → Driver → Driver
  | 0, _, _, _, _, _, _, d => d
  | fuel + 1, p, writeAddr, secpos, secoff, numByteToWrite, secremain, d =>
    let d := writeSectorRound probe p writeAddr secpos secoff secremain d
    if numByteToWrite = secremain then d
    else
      let rest := numByteToWrite - secremain
      writeSectorsLoop probe fuel (p.advance secremain) (writeAddr + secremain) (secpos + 1) 0
        rest (if 4096 < rest then 4096 else rest) d

/-- Entry of both sector writers: split off the part in the first sector. -/
def writeSectors (probe : ℕ → ℕ → ℕ → Driver → Driver × ℕ) (p : Source)
    (writeAddr numByteToWrite : ℕ) (d : Driver) : Driver :=
  let secremain := 4096 - writeAddr % 4096
  writeSectorsLoop probe (numByteToWrite + 1) p writeAddr (writeAddr / 4096) (writeAddr % 4096)
    numByteToWrite (if numByteToWrite ≤ secremain then numByteToWrite else secremain) d

/-- `SPI_Flash_Write`: read the sector and erase it only if the destination is
not blank. -/
def spiFlashWrite : Source → ℕ → ℕ → Driver → Driver :=
  writeSectors fun secpos secoff secremain d =>
    let d := spiFlashReadToBuf (secpos * 4096) 4096 d
    (d, firstNotErased d.spiFlashBuf secoff secremain)

/-- `SPI_Flash_Write2`: the read and the test are commented out and `i=0`, so
every sector is erased. -/
def spiFlashWrite2 : Source → ℕ → ℕ → Driver → Driver := writeSectors fun _ _ _ d => (d, 0)

/-! ## The streaming session -/

/-- `init_write_flash`; its buffer argument is unused with
`USE_STATIC_SPIFLASH_BUFFER`. -/
def initWriteFlash (addr : ℕ) (d : Driver) : Driver :=
  { d with historyBaseaddr := addr, pageBufferIndex := 0, pageSectorIndex := 0 }

section

variable (d : Driver) (op : Nor.Op)

/-- `append_w25x_byte`; its `BaseAddr` argument is never read. -/
def appendW25xByte (data : UInt8) : Driver :=
  let d := { d with
    spiFlashBuf := Function.update d.spiFlashBuf d.pageBufferIndex data
    pageBufferIndex := (d.pageBufferIndex + 1) % 2 ^ 16 }
  if 4096 ≤ d.pageBufferIndex then
    let addr := (d.pageSectorIndex * 4096 + d.historyBaseaddr) % 2 ^ 32
    let d := spiFlashWrite2 (.buf 0) addr 4096 d
    -- the buffer is cleared and the sector just written is read back into it
    let d := { d with spiFlashBuf := fun i => if i < 4096 then 0 else d.spiFlashBuf i }
    let d := spiFlashReadToBuf addr 4096 d
    { d with pageBufferIndex := 0, pageSectorIndex := (d.pageSectorIndex + 1) % 2 ^ 16 }
  else d

/-- `append_w25x_append_buffer`. -/
def appendW25xAppendBuffer (buffer : List UInt8) : Driver :=
  buffer.foldl appendW25xByte d

/-- `w25x_append_end`: fill the staging buffer up with `0xFF`. -/
def w25xAppendEnd : Driver :=
  (replicate (4096 - d.pageBufferIndex) 0xFF).foldl appendW25xByte d

/-- A whole session: open it at `addr`, append the chunks, close it. -/
def session (addr : ℕ) (chunks : List (List UInt8)) (d : Driver) : Driver :=
  w25xAppendEnd (chunks.foldl appendW25xAppendBuffer (initWriteFlash addr d))

/-! ## Issuing commands -/

@[simp] theorem emitAll_nil : d.emitAll [] = d := by
  simp [Driver.emitAll]

theorem emit_eq_emitAll : d.emit op = d.emitAll [op] := rfl

theorem emitAll_append (first second : List Nor.Op) :
    d.emitAll (first ++ second) = (d.emitAll first).emitAll second := by
  simp [Driver.emitAll, replay_append]

theorem emitAll_cons (rest : List Nor.Op) :
    d.emitAll (op :: rest) = (d.emit op).emitAll rest := by
  rw [emit_eq_emitAll, ← emitAll_append, singleton_append]

@[simp] theorem emit_spiFlashBuf : (d.emit op).spiFlashBuf = d.spiFlashBuf := rfl

@[simp] theorem emitAll_ops (ops : List Nor.Op) : (d.emitAll ops).ops = d.ops ++ ops := rfl

@[simp] theorem emitAll_flash (ops : List Nor.Op) :
    (d.emitAll ops).flash = replay norApply d.flash ops := rfl

end

variable {n : ℕ} {first second : Driver}

variable (d : Driver)

theorem spiFlashRead_eq_window {addr : ℕ} (hend : addr + n ≤ 2 ^ 24) :
    spiFlashRead d addr n = Nor.window d.flash addr n := by
  apply map_congr_left
  intro i hi
  have := mem_range.mp hi
  rw [addr24, Nat.mod_eq_of_lt (by omega)]

theorem spiFlashRead_add (addr m n : ℕ) :
    spiFlashRead d addr (m + n) = spiFlashRead d addr m ++ spiFlashRead d (addr + m) n := by
  simp [spiFlashRead, range_add, Nat.add_assoc]

/-! ## Reading behind a pointer -/

theorem Source.get_congr (h : first.spiFlashBuf = second.spiFlashBuf) (p : Source) :
    p.get first = p.get second := by
  cases p <;> simp [Source.get, h, funext_iff]

theorem Source.bytes_congr (h : first.spiFlashBuf = second.spiFlashBuf) (p : Source) (n : ℕ) :
    p.bytes first n = p.bytes second n := by
  rw [Source.bytes, Source.bytes, Source.get_congr h]

@[simp] theorem Source.length_bytes (p : Source) (n : ℕ) : (p.bytes d n).length = n := by
  simp [Source.bytes]

theorem Source.get_advance (p : Source) (m i : ℕ) : (p.advance m).get d i = p.get d (m + i) := by
  cases p <;> simp [Source.get, Source.advance, Nat.add_assoc]

theorem Source.bytes_add (p : Source) (m n : ℕ) :
    p.bytes d (m + n) = p.bytes d m ++ (p.advance m).bytes d n := by
  simp [Source.bytes, range_add, Source.get_advance]

theorem Source.bytes_ext {bytes : List UInt8} (hn : n ≤ bytes.length) :
    (Source.ext bytes).bytes d n = bytes.take n := by
  apply ext_getElem
  · simp [hn]
  · intro i hi hi'
    have hlt : i < bytes.length := by simp at hi; omega
    simp [Source.bytes, Source.get, hlt]

end Easyio.W25q16
