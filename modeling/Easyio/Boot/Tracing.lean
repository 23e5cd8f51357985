import Easyio.Boot.Rounds

/-!
# Where programmed bytes come from

The bootloader moves bytes without looking at them, and its model leaves their type
open.  So a boot can be run on something else: here on the origins of the bytes, that
is, on the address of the SPI flash each of them was read from.  `boot_map` says that
a boot does not depend on what it moves; so the bytes a boot of the device programs are
the ones that were at those origins (`programmed_bootLog`).

`mem_programmed_copyPayload` says what a copy programs.  Its last word is filled up
with what is left in the word buffer: bytes of the copied data again or, if that is
shorter than a word, zeros of the RAM.
-/

namespace Easyio

open Function List

variable {α β : Type*}

/-! ## Replacing the cells -/

namespace ChipFlash

/-- The same operation on other cells. -/
def ChipOp.map (f : α → β) : ChipOp α → ChipOp β
  | .erasePage addr => .erasePage addr
  | .programWord addr word => .programWord addr (word.map f)

def Programmer.map (f : α → β) (s : Programmer α) : Programmer β where
  progStratAddress := s.progStratAddress
  progWriteCnt := s.progWriteCnt
  writeFlashBuffer := fun i => f (s.writeFlashBuffer i)
  writeFlashBufferIndex := s.writeFlashBufferIndex
  ops := s.ops.map (.map f)

variable (f : α → β)

theorem flashErase_map (fuel addr last : ℕ) :
    (flashErase fuel addr last).map (ChipOp.map f) = flashErase fuel addr last := by
  induction fuel generalizing addr with
  | zero => rfl
  | succ fuel ih =>
    rw [flashErase, flashErase]
    split
    · rw [map_cons, ih]
      rfl
    · rfl

theorem flashProgramStart_map (addr size : ℕ) (s : Programmer α) :
    flashProgramStart addr size (s.map f) = (flashProgramStart addr size s).map f := by
  simp [flashProgramStart, Programmer.map, flashErase_map]

section

variable (s : Programmer α)

theorem flushWord_map : flushWord (s.map f) = (flushWord s).map f := by
  simp [flushWord, Programmer.map, ChipOp.map]

theorem flashAppendOneByte_map (data : α) :
    flashAppendOneByte (s.map f) (f data) = (flashAppendOneByte s data).map f := by
  have hstaged : (fun i => f (update s.writeFlashBuffer s.writeFlashBufferIndex data i)) =
      update (fun i => f (s.writeFlashBuffer i)) s.writeFlashBufferIndex (f data) := by
    funext i
    exact apply_update (fun _ => f) _ _ _ _
  rw [flashAppendOneByte, flashAppendOneByte, apply_ite (Programmer.map f), ← flushWord_map]
  simp only [Programmer.map, hstaged]
  rfl

theorem flashAppendBuffer_map (data : List α) :
    flashAppendBuffer (s.map f) (data.map f) = (flashAppendBuffer s data).map f := by
  induction data generalizing s with
  | nil => rfl
  | cons b rest ih =>
    rw [map_cons, flashAppendBuffer, foldl_cons, flashAppendOneByte_map]
    exact ih _

theorem flashAppendEnd_map : flashAppendEnd (s.map f) = (flashAppendEnd s).map f := by
  rw [flashAppendEnd, flashAppendEnd, apply_ite (Programmer.map f), flushWord_map]
  rfl

end

theorem readCells_map (cell : ℕ → α) (addr n : ℕ) :
    readCells (fun a => f (cell a)) addr n = (readCells cell addr n).map f := by
  simp [readCells]

theorem spiflash2chipflash_map (malloc : Bool) (cell : ℕ → α) (spiAddress chipAddress size : ℕ)
    (s : Programmer α) :
    spiflash2chipflash malloc (fun a => f (cell a)) spiAddress chipAddress size (s.map f) =
      ((spiflash2chipflash malloc cell spiAddress chipAddress size s).1.map f,
        (spiflash2chipflash malloc cell spiAddress chipAddress size s).2) := by
  cases malloc with
  | false => simp [spiflash2chipflash, flashProgramStart_map]
  | true =>
    simp only [spiflash2chipflash, if_true, copyLoop_eq _ _ (Nat.lt_succ_self size), readCells_map,
      flashProgramStart_map, flashAppendBuffer_map, flashAppendEnd_map]

end ChipFlash

namespace Boot

open Crash W25q16 ChipFlash Config

def DeviceOp.map (f : α → β) : DeviceOp α → DeviceOp β
  | .spi op => .spi op
  | .chip op => .chip (op.map f)

def Machine.map (f : α → β) (m : Machine α) : Machine β where
  spi := m.spi
  spiflashConf := m.spiflashConf
  prog := m.prog.map f
  log := m.log.map (.map f)

theorem Machine.log_map (f : α → β) (m : Machine α) : (m.map f).log = m.log.map (.map f) := rfl

section Natural

variable (f : α → β) (cell : Nor.Cells → ℕ → α) (heap : Heap)

theorem saveConfig_map (m : Machine α) : saveConfig (m.map f) = (saveConfig m).map f := by
  simp [saveConfig, Machine.map, DeviceOp.map]

theorem setStatus_map (status : OtaStatusMachine) (m : Machine α) :
    setStatus status (m.map f) = (setStatus status m).map f := rfl

theorem copyPayload_map (malloc : Bool) (addr size : ℕ) (m : Machine α) :
    copyPayload malloc (fun mem a => f (cell mem a)) addr size (m.map f) =
      ((copyPayload malloc cell addr size m).1.map f, (copyPayload malloc cell addr size m).2) := by
  have hcopy := spiflash2chipflash_map f malloc (cell m.spi.flash) (addr + headerSize) easyioAddress
    size { m.prog with ops := [] }
  have hcells : { (m.map f).prog with ops := [] } = { m.prog with ops := [] }.map f := rfl
  rw [copyPayload, copyPayload, hcells]
  rw [show (m.map f).spi = m.spi from rfl, hcopy]
  simp [Machine.map, Programmer.map, DeviceOp.map]

theorem round_map (m : Machine α) :
    round heap (fun mem a => f (cell mem a)) (m.map f) =
      ((round heap cell m).1.map f, (round heap cell m).2) := by
  have hconf : (m.map f).spiflashConf = m.spiflashConf := rfl
  have hspi : (m.map f).spi = m.spi := rfl
  rw [round, round, hconf, hspi]
  rcases m.spiflashConf.status with - | status
  · rfl
  · cases status with
    | none | updateFinish | fwRun1 | fwRun2 | fwError => rfl
    | downloadFinish => simp only [setStatus_map, saveConfig_map]
    | backupFinish | waitFwSuccessRun =>
      simp only [setStatus_map, saveConfig_map, copyPayload_map]
      split
      · rfl
      · split <;> rfl

theorem loop_map (fuel : ℕ) (m : Machine α) :
    loop heap (fun mem a => f (cell mem a)) fuel (m.map f) =
      ((loop heap cell fuel m).1.map f, (loop heap cell fuel m).2) := by
  induction fuel generalizing m with
  | zero => rfl
  | succ fuel ih =>
    rw [loop, loop, round_map]
    rcases round heap cell m with ⟨m', - | outcome⟩
    · exact ih m'
    · rfl

theorem writeHardwareVersion_map (m : Machine α) :
    writeHardwareVersion (m.map f) = (writeHardwareVersion m).map f := by
  rw [writeHardwareVersion, writeHardwareVersion, apply_ite (Machine.map f), ← saveConfig_map]
  rfl

theorem beforeLoop_map (blank : α) (spi : Nor.Cells) :
    beforeLoop (f blank) spi = (beforeLoop blank spi).map f := by
  have hread : bootloaderReadconfig (powerOn (f blank) spi) =
      (bootloaderReadconfig (powerOn blank spi)).map f := by
    rw [bootloaderReadconfig, bootloaderReadconfig, apply_ite (Machine.map f), ← saveConfig_map]
    rfl
  rw [beforeLoop, beforeLoop, hread, writeHardwareVersion_map]

/-- **A boot does not depend on what it moves.** -/
theorem boot_map (blank : α) (spi : Nor.Cells) :
    boot heap (fun mem a => f (cell mem a)) (f blank) spi =
      ((boot heap cell blank spi).1.map f, (boot heap cell blank spi).2) := by
  rw [boot, boot, beforeLoop_map, loop_map]

end Natural

/-- Where a byte comes from. -/
inductive Origin where
  /-- It was read at `addr`, while the SPI flash held `mem`. -/
  | spi (mem : Nor.Cells) (addr : ℕ)
  /-- It is zero-initialised RAM. -/
  | ram

def Origin.byte : Origin → UInt8
  | .spi mem addr => mem addr
  | .ram => 0

/-- A boot that moves origins in place of bytes. -/
def tracedBoot (heap : Heap) (spi : Nor.Cells) : Machine Origin × Option Outcome :=
  boot heap .spi .ram spi

theorem bootDevice_eq_map (heap : Heap) (p : Device) :
    bootDevice heap p =
      ((tracedBoot heap p.spi).1.map Origin.byte, (tracedBoot heap p.spi).2) :=
  boot_map Origin.byte Origin.spi heap .ram p.spi

/-! ## What is programmed -/

/-- The cells an operation programs. -/
def DeviceOp.cells : DeviceOp α → List α
  | .chip (.programWord _ word) => word
  | _ => []

/-- The cells that `log` programs into the chip's flash. -/
def programmed (log : List (DeviceOp α)) : List α := log.flatMap DeviceOp.cells

theorem programmed_map (f : α → β) (log : List (DeviceOp α)) :
    programmed (log.map (.map f)) = (programmed log).map f := by
  have hcells : ∀ op : DeviceOp α, (op.map f).cells = op.cells.map f := by
    rintro (op | op)
    · rfl
    · cases op <;> rfl
  simp [programmed, flatMap_map, map_flatMap, hcells]

theorem programmed_bootLog (heap : Heap) (p : Device) :
    programmed (bootLog heap p) = (programmed (tracedBoot heap p.spi).1.log).map Origin.byte := by
  rw [bootLog, bootDevice_eq_map, Machine.log_map, programmed_map]

@[simp] theorem programmed_append (first second : List (DeviceOp α)) :
    programmed (first ++ second) = programmed first ++ programmed second :=
  flatMap_append

@[simp] theorem programmed_spi (ops : List Nor.Op) :
    programmed (ops.map (.spi : Nor.Op → DeviceOp α)) = [] := by
  simp [programmed, DeviceOp.cells]

@[simp] theorem programmed_flashErase (fuel addr last : ℕ) :
    programmed ((flashErase fuel addr last : List (ChipOp α)).map .chip) = [] := by
  induction fuel generalizing addr with
  | zero => rfl
  | succ fuel ih =>
    rw [flashErase]
    split
    · exact ih _
    · rfl

theorem programmed_wordOps (start : ℕ) {data : List α} {words : ℕ}
    (hdata : data.length = words * 4) :
    programmed ((wordOps start data).map .chip) = data := by
  induction words generalizing data with
  | zero =>
    obtain rfl : data = [] := eq_nil_of_length_eq_zero (by omega)
    simp [wordOps, programmed]
  | succ words ih =>
    have hfront : (data.take (words * 4)).length = words * 4 := by
      rw [length_take]
      omega
    conv_lhs => rw [← take_append_drop (words * 4) data]
    rw [wordOps_append _ (by omega) (by rw [length_drop]; omega), map_append,
      programmed_append, ih hfront]
    exact (congrArg _ (append_nil _)).trans (take_append_drop _ data)

section Copy

variable {m : Machine α} {cell : Nor.Cells → ℕ → α} {blank x : α} {addr size : ℕ}

/-- `x` is a cell of the payload at `addr`, or fills up a payload that is shorter than a word. -/
def Copied (cell : Nor.Cells → ℕ → α) (blank : α) (mem : Nor.Cells) (addr size : ℕ) (x : α) :
    Prop :=
  (∃ i < size, x = cell mem (addr + headerSize + i)) ∨ 0 < size ∧ size < 4 ∧ x = blank

theorem mem_readCells (cell : ℕ → α) {n : ℕ} (hend : addr + n ≤ 2 ^ 24) (x : α) :
    x ∈ readCells cell addr n ↔ ∃ i < n, x = cell (addr + i) := by
  have hread : readCells cell addr n = (List.range n).map fun i => cell (addr + i) := by
    apply map_congr_left
    intro i hi
    have := mem_range.mp hi
    rw [addr24, Nat.mod_eq_of_lt (by omega)]
  simp [hread, eq_comm]

/-- What fills up the last word is in the data already, unless that is shorter than a word. -/
theorem mem_append_filler {data filler : List α} (h : IsFiller (fun _ => blank) data filler) :
    x ∈ data ++ filler ↔ x ∈ data ∨ 0 < data.length ∧ data.length < 4 ∧ x = blank := by
  have hwhole := h.whole
  have hshort := h.short
  rw [length_append] at hwhole
  rw [mem_append]
  constructor
  · rintro (hdata | hfill)
    · exact .inl hdata
    · have hpos := length_pos_of_mem hfill
      rcases h.source x hfill with ⟨hdata, -⟩ | ⟨hlen, -, hblank⟩
      · exact .inl hdata
      · exact .inr ⟨by omega, hlen, hblank⟩
  · rintro (hdata | ⟨hpos, hlen, rfl⟩)
    · exact .inl hdata
    · -- a word is missing some cells, and none of them is in the data
      obtain ⟨y, hy⟩ := exists_mem_of_length_pos (show 0 < filler.length by omega)
      rcases h.source y hy with ⟨-, hlong⟩ | ⟨-, -, rfl⟩
      · omega
      · exact .inr hy

/-- **What a copy programs.** -/
theorem mem_programmed_copyPayload (malloc : Bool)
    (hbuf : m.prog.writeFlashBuffer = fun _ => blank) (hsize : size ≤ maxPayload)
    (hend : addr + headerSize + size ≤ 2 ^ 24) :
    x ∈ programmed (copyPayload malloc cell addr size m).1.log ↔
      x ∈ programmed m.log ∨ malloc = true ∧ Copied cell blank m.spi.flash addr size x := by
  cases malloc with
  | false => simp [copyPayload, spiflash2chipflash, flashProgramStart]
  | true =>
    obtain ⟨filler, hfiller, hlog, -⟩ := copyPayload_true m cell addr hsize
    rw [hbuf] at hfiller
    have hlen : (readCells (cell m.spi.flash) (addr + headerSize) size).length = size := by
      simp [readCells]
    obtain ⟨words, hwords⟩ := Nat.dvd_of_mod_eq_zero hfiller.whole
    rw [Nat.mul_comm] at hwords
    have hall : programmed (copyPayload true cell addr size m).1.log = programmed m.log ++
        (readCells (cell m.spi.flash) (addr + headerSize) size ++ filler) := by
      rw [hlog, programmed_append, map_append, programmed_append, programmed_flashErase,
        programmed_wordOps easyioAddress hwords, nil_append]
    rw [hall, mem_append, mem_append_filler hfiller, mem_readCells _ hend, hlen]
    simp [Copied]

end Copy

end Boot

end Easyio
