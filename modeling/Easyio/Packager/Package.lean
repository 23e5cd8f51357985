import Easyio.Boot.PowerLoss
import Easyio.CString.Basic
import Easyio.Md5.Digest

/-!
# The OTA packager

`MainWindow::on_pushButton_clicked` of `QT_MAKE_OTA_PKG_PROGRAM/mainwindow.cpp`,
the desktop tool that puts the firmware header in front of a firmware file and
publishes the size and the MD5 of the result, and its agreement with the
bootloader that unpacks the file on the device.

The tool opens its output with `QIODevice::ReadWrite`, which does not shorten a
file that is already there.  So the package ends with the rest of an older, longer
file (`onPushButtonClicked_file`), and the two sides agree exactly when there is no
such rest (`packager_agrees_iff`).  The size in the header is right in any case,
and so is what the bootloader installs.

Qt is not part of the source: `QFile` is a parameter with the laws that Qt documents,
every call succeeding, and `fromJson` stands for `QJsonDocument::fromJson`, of which
the tool reads two members.  Left out: the
texts in the window, the settings file, and the text form of the published object.
-/

namespace Easyio.Packager

open Boot Bytes CString ChipFlash Config Crash Md5 Nor W25q16

/-! ## Files -/

/-- Qt's `QFile` with the open files `F`, as far as the tool uses it: the operations, and
what they do to the content of a file and to the position of the next access. -/
structure QFile (F : Type) where
  content : F → List UInt8
  pos : F → ℕ
  /-- `open(QIODevice::ReadWrite)`: a missing file is created, an existing one keeps its
  content. -/
  openReadWrite : Option (List UInt8) → F
  content_openReadWrite : ∀ disk, content (openReadWrite disk) = disk.getD []
  pos_openReadWrite : ∀ disk, pos (openReadWrite disk) = 0
  /-- `open(QIODevice::ReadOnly)` -/
  openReadOnly : List UInt8 → F
  content_openReadOnly : ∀ disk, content (openReadOnly disk) = disk
  pos_openReadOnly : ∀ disk, pos (openReadOnly disk) = 0
  write : F → List UInt8 → F
  content_write : ∀ f data, content (write f data) =
    (content f).take (pos f) ++ data ++ (content f).drop (pos f + data.length)
  pos_write : ∀ f data, pos (write f data) = pos f + data.length
  readAll : F → List UInt8
  readAll_eq : ∀ f, readAll f = (content f).drop (pos f)
  size : F → ℕ
  size_eq : ∀ f, size f = (content f).length

variable {F : Type} (q : QFile F)

/-! ## The tool -/

/-- `struct FIRMWARE_HEADER`, packed. -/
structure FirmwareHeader where
  size : UInt32
  version : Vector UInt8 3
  md5 : Vector UInt8 16

def FirmwareHeader.toBytes (h : FirmwareHeader) : List UInt8 :=
  le32 h.size ++ (h.version.toList ++ h.md5.toList)

/-- The variables that outlive a click: the member `m_Header`, and the static
variable `state`. -/
structure MainWindow where
  mHeader : FirmwareHeader
  state : State

/-- What the tool reads out of the JSON object inside the firmware. -/
structure FirmwareInfo where
  versionName : Option (List UInt8)
  version : Option Int32

/-- The object the tool writes to the output path with `.conf` added. -/
structure Published where
  version : Int32
  versionName : List UInt8
  mode : List UInt8
  filename : List UInt8
  size : ℕ
  checksum : List UInt8

/-- What a click leaves: the variables, the output file and the published object. -/
structure Click where
  window : MainWindow
  file : List UInt8
  published : Published

/-- `filearray.mid(filearray.indexOf("{\"version_name\""), 64)`.  When there is no
such text the index is -1, and `mid` gives the first 63 bytes. -/
def versionText (filearray : List UInt8) : List UInt8 :=
  match strstr (ascii "\x7b\"version_name\"") filearray with
  | some i => (filearray.drop i).take 64
  | none => filearray.take 63

/-- `md5_append(&state, data, size)`, whose length is an `int`. -/
def md5AppendInt (st : State) (data : List UInt8) (size : ℕ) : State :=
  md5Append st (data.take (Int32.ofNat size).toInt.toNat)

def fileDigest (st : State) (f : F) : State × Vector UInt8 16 :=
  md5Finish (md5AppendInt (md5Init st) (q.readAll f) (q.size f))

open List

/-- `on_pushButton_clicked` for the firmware `filearray` and the output path
`previous`.  `uninit` is the value of `vsersionnum` when nothing is assigned to
it. -/
def onPushButtonClicked (fromJson : List UInt8 → Option FirmwareInfo) (uninit : Int32)
    (autoChecked : Bool) (w : MainWindow) (filearray : List UInt8)
    (previous : Option (List UInt8)) : Click :=
  let header := { w.mHeader with size := UInt32.ofNat filearray.length }
  let file := q.content (q.write (q.write (q.openReadWrite previous) header.toBytes) filearray)
  let fileOut := q.openReadOnly file
  let finished := fileDigest q w.state fileOut
  let info := fromJson (versionText filearray)
  { window := ⟨header, finished.1⟩
    file := file
    published :=
      { version := (info.bind (·.version)).getD uninit
        versionName := (info.bind (·.versionName)).getD []
        mode := if autoChecked then ascii "auto" else ascii "manually"
        filename := ascii "ct03_ota.bin"
        size := q.size fileOut
        checksum := finished.2.toList.flatMap hex2 } }

/-! ## What a click writes -/

@[simp] theorem FirmwareHeader.length_toBytes (h : FirmwareHeader) :
    h.toBytes.length = headerSize := by
  simp [toBytes, headerSize]

def headerOf (w : MainWindow) (firmware : List UInt8) : FirmwareHeader :=
  { w.mHeader with size := UInt32.ofNat firmware.length }

theorem fileDigest_eq (st : State) {file : List UInt8} (hint : file.length < 2 ^ 31) :
    (fileDigest q st (q.openReadOnly file)).2 = md5Digest file := by
  have hsize : file.length ≤ (Int32.ofNat file.length).toInt.toNat := by
    rw [Int32.toInt_ofNat_of_lt hint]
    simp
  refine md5Finish_of_absorbed ?_
  rw [md5AppendInt, q.readAll_eq, q.size_eq, q.content_openReadOnly, q.pos_openReadOnly, drop_zero,
    take_of_length_le hsize]
  exact (absorbed_init st).append file

section Click

variable {q} {fromJson : List UInt8 → Option FirmwareInfo} {uninit : Int32} {autoChecked : Bool}
  {w : MainWindow} {firmware : List UInt8} {previous : Option (List UInt8)} {click : Click}
  (hclick : onPushButtonClicked q fromJson uninit autoChecked w firmware previous = click)
include hclick

theorem onPushButtonClicked_file : click.file =
    (headerOf w firmware).toBytes ++ firmware ++
      (previous.getD []).drop (headerSize + firmware.length) := by
  have hfirst : q.content (q.write (q.openReadWrite previous) (headerOf w firmware).toBytes) =
      (headerOf w firmware).toBytes ++ (previous.getD []).drop headerSize := by
    simp [q.content_write, q.pos_openReadWrite, q.content_openReadWrite]
  have hpos : q.pos (q.write (q.openReadWrite previous) (headerOf w firmware).toBytes) =
      (headerOf w firmware).toBytes.length := by
    rw [q.pos_write, q.pos_openReadWrite, Nat.zero_add]
  calc click.file
        = q.content (q.write (q.write (q.openReadWrite previous) (headerOf w firmware).toBytes)
            firmware) := hclick ▸ rfl
    _ = (headerOf w firmware).toBytes ++ firmware ++
          (previous.getD []).drop (headerSize + firmware.length) := by
          rw [q.content_write, hfirst, hpos, take_left, drop_append, drop_of_length_le
            (by omega), nil_append, drop_drop, Nat.add_sub_cancel_left]

/-- The published size and checksum are those of the file, as long as its size is an `int`. -/
theorem onPushButtonClicked_published (hint : click.file.length < 2 ^ 31) :
    click.published.size = click.file.length ∧
      click.published.checksum = (md5Digest click.file).toList.flatMap hex2 := by
  rw [← fileDigest_eq q w.state hint, ← hclick]
  refine ⟨(q.size_eq _).trans (congrArg _ (q.content_openReadOnly _)), ?_⟩
  simp only [onPushButtonClicked]

end Click

/-! ## The bootloader's side -/

variable {firmware : List UInt8}

theorem headerSizeAt_package (mem : Cells) (w : MainWindow) (rest : List UInt8)
    (hsize : firmware.length ≤ maxPayload) :
    headerSizeAt (overwrite mem spiFlashFwAddress
      ((headerOf w firmware).toBytes ++ (firmware ++ rest))) spiFlashFwAddress =
        firmware.length := by
  have hwindow := window_overwrite_append mem spiFlashFwAddress
    (headerOf w firmware).toBytes (firmware ++ rest)
  rw [FirmwareHeader.length_toBytes] at hwindow
  have hfield : getLe32 (headerOf w firmware).toBytes 0 = UInt32.ofNat firmware.length :=
    getLe32_le32 [] _ _
  have hfits : firmware.length < 2 ^ 32 := by
    have : maxPayload < 2 ^ 32 := by decide
    omega
  rw [headerSizeAt, hwindow, hfield]
  exact UInt32.toNat_ofNat_of_lt' hfits

theorem window_package (mem : Cells) (w : MainWindow) (firmware rest : List UInt8) :
    window (overwrite mem spiFlashFwAddress
      ((headerOf w firmware).toBytes ++ (firmware ++ rest)))
        (spiFlashFwAddress + headerSize) firmware.length = firmware := by
  rw [overwrite_append, FirmwareHeader.length_toBytes]
  exact window_overwrite_append _ _ _ _

/-- The state of a bootloader that is about to install the package `file`. -/
structure Installing (file : List UInt8) (m : Machine UInt8) : Prop where
  stored : ∃ mem, m.spi.flash = overwrite mem spiFlashFwAddress file
  status : m.spiflashConf.status = some .backupFinish

/-- The step for `BACKUP_FINISH`, run on the device `p`, puts `firmware` at
`EASYIO_ADDRESS` and jumps there, if it gets its two buffers. -/
def Installs (firmware : List UInt8) (p : Device) (m : Machine UInt8) : Prop :=
  (Boot.round ⟨true, true⟩ (fun mem => mem) m).2 = some .jump ∧
    window (replay Device.apply p (Boot.round ⟨true, true⟩ (fun mem => mem) m).1.log).chip
      easyioAddress firmware.length = firmware

/-- What is behind the firmware does not matter to the bootloader. -/
theorem installs_package (w : MainWindow) (rest : List UInt8) (hsize : firmware.length ≤ maxPayload)
    (p : Device) {m : Machine UInt8}
    (h : Installing ((headerOf w firmware).toBytes ++ (firmware ++ rest)) m) :
    Installs firmware p m := by
  obtain ⟨mem, hflash⟩ := h.stored
  have hheader : firmwareSize m.spi spiFlashFwAddress = firmware.length := by
    rw [firmwareSize_eq _ (by decide), hflash, headerSizeAt_package mem w rest hsize]
  have hcopy : window (replay Device.apply p (copyPayload true (fun mem => mem) spiFlashFwAddress
      firmware.length m).1.log).chip easyioAddress firmware.length = firmware := by
    rw [window_copyPayload p m hsize (fwPayload_inside hsize), hflash, window_package]
  rw [Installs, Boot.round, h.status]
  simp only [hheader]
  rw [if_neg (Nat.not_lt.mpr hsize)]
  have hreturn := (copyPayload_frame m true (fun mem => mem) spiFlashFwAddress
    firmware.length).2.2.1
  simp only [hreturn, Bool.and_self, if_true, true_and]
  rw [saveConfig_log, replay_append, (replay_configOps _ _).2.1]
  exact hcopy

/-! ## The agreement -/

/-- The two sides agree about a firmware: the package is the header and the
firmware and nothing else, what is published describes it, and storing it and
running the bootloader's step installs the firmware. -/
structure Agrees (w : MainWindow) (firmware : List UInt8) (click : Click) : Prop where
  package : click.file = (headerOf w firmware).toBytes ++ firmware
  size : click.published.size = click.file.length
  checksum : click.published.checksum = (md5Digest click.file).toList.flatMap hex2
  installs : ∀ (p : Device) (m : Machine UInt8), Installing click.file m → Installs firmware p m

/-- **Packager and bootloader.**  They agree exactly when no file longer than the
package was at the output path. -/
theorem packager_agrees_iff (fromJson : List UInt8 → Option FirmwareInfo) (uninit : Int32)
    (autoChecked : Bool) (w : MainWindow) (previous : Option (List UInt8))
    (hsize : firmware.length ≤ maxPayload) :
    Agrees w firmware (onPushButtonClicked q fromJson uninit autoChecked w firmware previous) ↔
      (previous.getD []).length ≤ headerSize + firmware.length := by
  generalize hclick : onPushButtonClicked q fromJson uninit autoChecked w firmware previous = click
  have hfile := onPushButtonClicked_file hclick
  constructor
  · intro h
    rw [h.package] at hfile
    exact drop_eq_nil_iff.mp (self_eq_append_right.mp hfile)
  · intro hshort
    rw [drop_of_length_le hshort, append_nil] at hfile
    have hlength : click.file.length < 2 ^ 31 := by
      have : headerSize + maxPayload < 2 ^ 31 := by decide
      rw [hfile, length_append, FirmwareHeader.length_toBytes]
      omega
    obtain ⟨hpublished, hchecksum⟩ := onPushButtonClicked_published hclick hlength
    refine ⟨hfile, hpublished, hchecksum, fun p m hm => installs_package w [] hsize p ?_⟩
    rwa [append_nil, ← hfile]

/-- The tool after its start: `m_Header` is all zero. -/
def MainWindow.start : MainWindow where
  mHeader := ⟨0, Vector.replicate 3 0, Vector.replicate 16 0⟩
  state := ⟨0, 0, initWords, fun _ => 0⟩

/-- A file that is its content and the position. -/
def memoryFile : QFile (List UInt8 × ℕ) where
  content := Prod.fst
  pos := Prod.snd
  openReadWrite disk := (disk.getD [], 0)
  content_openReadWrite _ := rfl
  pos_openReadWrite _ := rfl
  openReadOnly disk := (disk, 0)
  content_openReadOnly _ := rfl
  pos_openReadOnly _ := rfl
  write f data := (f.1.take f.2 ++ data ++ f.1.drop (f.2 + data.length), f.2 + data.length)
  content_write _ _ := rfl
  pos_write _ _ := rfl
  readAll f := f.1.drop f.2
  readAll_eq _ := rfl
  size f := f.1.length
  size_eq _ := rfl

/-- A firmware of one byte is packed over the file `previous`. -/
def packed (previous : List UInt8) : Click :=
  onPushButtonClicked memoryFile (fun _ => none) 0 true .start [0x41] (some previous)

/-- Over a package of the same size. -/
theorem packager_agrees_iff_one_byte : ([0x41] : List UInt8).length ≤ maxPayload ∧
    Agrees .start [0x41] (packed (replicate 24 0xFF)) :=
  ⟨by decide, (packager_agrees_iff _ _ _ _ _ _ (by decide)).mpr (by decide)⟩

/-- Over a file that is one byte longer, that byte stays in the package. -/
theorem stale_byte_in_package : ([0x41] : List UInt8).length ≤ maxPayload ∧
    (packed (replicate 25 0xFF)).file.length = 25 ∧
      ¬ Agrees .start [0x41] (packed (replicate 25 0xFF)) := by
  refine ⟨by decide, rfl, fun h => ?_⟩
  have hrest := self_eq_append_right.mp (h.package.symm.trans (onPushButtonClicked_file rfl))
  exact absurd hrest (by decide)

end Easyio.Packager
