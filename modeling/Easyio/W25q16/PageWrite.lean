import Easyio.W25q16.Driver

/-!
# The page writer

`SPI_Flash_Write_NoCheck` cuts its data at page boundaries and programs the
pieces one after the other.  `pagePrograms addr data` is the list of commands it
issues, as a function of the data alone, and `writeNoCheck_eq` says so.  From
there on the driver is out of the picture: `replay_pagePrograms` gives the effect
of the list on the cells and `mem_pagePrograms` what each command looks like.
-/

namespace Easyio.W25q16

open Crash List Nat Nor Source

/-- The commands of the page writer's loop when `room` bytes are left in the
page at `addr`. -/
def pageChunks : ℕ → ℕ → ℕ → List UInt8 → List Nor.Op
  | 0, _, _, _ => []
  | fuel + 1, addr, room, data =>
    .program addr (data.take room) ::
      if data.length = room then []
      else
        let rest := data.drop room
        pageChunks fuel (addr + room) (if 256 < rest.length then 256 else rest.length) rest

/-- The commands that program `data` at `addr`. -/
def pagePrograms (addr : ℕ) (data : List UInt8) : List Nor.Op :=
  let room := 256 - addr % 256
  pageChunks (data.length + 1) addr (if data.length ≤ room then data.length else room) data

variable {addr n room fuel : ℕ} {data : List UInt8} {op : Nor.Op}

theorem writeNoCheckLoop_eq (fuel : ℕ) (p : Source) (d : Driver) (haddr : addr < 2 ^ 24)
    (hend : addr + n ≤ 2 ^ 24) (hroom : room ≤ n) :
    writeNoCheckLoop fuel p addr n room d =
      d.emitAll (pageChunks fuel addr room (p.bytes d n)) := by
  induction fuel generalizing p addr n room d with
  | zero => simp [writeNoCheckLoop, pageChunks]
  | succ fuel ih =>
    obtain ⟨rest, rfl⟩ := Nat.exists_eq_add_of_le hroom
    have hbytes : p.bytes d (room + rest) = p.bytes d room ++ (p.advance room).bytes d rest :=
      p.bytes_add d room rest
    have hpage : spiFlashWritePage p addr room d = d.emit (.program addr (p.bytes d room)) := by
      rw [spiFlashWritePage, addr24, mod_eq_of_lt haddr]
    simp only [writeNoCheckLoop, pageChunks, hpage, length_bytes]
    have htake : (p.bytes d (room + rest)).take room = p.bytes d room := by
      rw [hbytes, take_left' (by simp)]
    have hdrop : (p.bytes d (room + rest)).drop room = (p.advance room).bytes d rest := by
      rw [hbytes, drop_left' (by simp)]
    rw [htake, hdrop]
    by_cases hlast : room + rest = room
    · rw [if_pos hlast, if_pos hlast, emit_eq_emitAll]
    · rw [if_neg hlast, if_neg hlast, Nat.add_sub_cancel_left, length_bytes,
        ih _ _ (by omega) (by omega) (by split <;> omega), emitAll_cons,
        bytes_congr (emit_spiFlashBuf d _)]

/-- The page writer issues `pagePrograms` of the bytes behind its pointer and
changes nothing else. -/
theorem writeNoCheck_eq (p : Source) (d : Driver) (haddr : addr < 2 ^ 24)
    (hend : addr + n ≤ 2 ^ 24) :
    spiFlashWriteNoCheck p addr n d = d.emitAll (pagePrograms addr (p.bytes d n)) := by
  rw [pagePrograms, length_bytes]
  exact writeNoCheckLoop_eq _ p d haddr hend (by split <;> omega)

/-! ## The commands of the page writer -/

/-- `room` bytes fit the page at `addr`, and they end at a page boundary when
there is more to write. -/
structure Fits (addr room n : ℕ) : Prop where
  le : room ≤ n
  inPage : addr % 256 + room ≤ 256
  boundary : room < n → 0 < room ∧ (addr + room) % 256 = 0

theorem fits_first (addr n : ℕ) :
    Fits addr (if n ≤ 256 - addr % 256 then n else 256 - addr % 256) n := by
  constructor <;> split <;> omega

theorem Fits.next (h : Fits addr room n) (hmore : n ≠ room) :
    Fits (addr + room) (if 256 < n - room then 256 else n - room) (n - room) := by
  have hle := h.le
  obtain ⟨-, hmod⟩ := h.boundary (by omega)
  constructor <;> split <;> omega

theorem replay_pageChunks (mem : Cells) (hfuel : data.length < fuel)
    (hfits : Fits addr room data.length) :
    replay norApply mem (pageChunks fuel addr room data) = andInto mem addr data := by
  induction fuel generalizing addr room data mem with
  | zero => omega
  | succ fuel ih =>
    have htake : (data.take room).length = room := by
      rw [length_take, min_eq_left hfits.le]
    have hpage : norApply mem (.program addr (data.take room)) =
        andInto mem addr (data.take room) :=
      programPage_eq_andInto _ _ _ (by rw [htake]; exact hfits.inPage)
    rw [pageChunks, replay_cons, hpage]
    by_cases hlast : data.length = room
    · rw [if_pos hlast, replay_nil, take_of_length_le (by omega)]
    · have hle := hfits.le
      obtain ⟨hpos, -⟩ := hfits.boundary (by omega)
      have hrest := hfits.next hlast
      rw [← length_drop] at hrest
      rw [if_neg hlast, ih _ (by rw [length_drop]; omega) hrest]
      conv_rhs => rw [← take_append_drop room data]
      rw [andInto_append, htake]

/-- The page writer ANDs its data in from `addr` on. -/
theorem replay_pagePrograms (mem : Cells) (addr : ℕ) (data : List UInt8) :
    replay norApply mem (pagePrograms addr data) = andInto mem addr data :=
  replay_pageChunks mem (lt_succ_self _) (fits_first addr data.length)

theorem mem_pageChunks (hfits : Fits addr room data.length)
    (hop : op ∈ pageChunks fuel addr room data) :
    ∃ start bytes, op = .program start bytes ∧ start % 256 + bytes.length ≤ 256 ∧ addr ≤ start ∧
      start + bytes.length ≤ addr + data.length ∧ (data ≠ [] → bytes ≠ []) := by
  induction fuel generalizing addr room data with
  | zero => simp [pageChunks] at hop
  | succ fuel ih =>
    have hle := hfits.le
    have htake : (data.take room).length = room := by
      rw [length_take, min_eq_left hle]
    rw [pageChunks, mem_cons] at hop
    rcases hop with rfl | hop
    · refine ⟨addr, data.take room, rfl, by rw [htake]; exact hfits.inPage, le_rfl,
        by rw [htake]; omega, ?_⟩
      intro hne
      have hpos : 0 < room := by
        have := length_pos_iff.mpr hne
        rcases hle.lt_or_eq with hlt | heq
        · exact (hfits.boundary hlt).1
        · omega
      exact length_pos_iff.mp (by omega)
    · by_cases hlast : data.length = room
      · simp [hlast] at hop
      · have hrest := hfits.next hlast
        rw [← length_drop] at hrest
        rw [if_neg hlast] at hop
        obtain ⟨start, bytes, rfl, hpage, hlow, hhigh, hne⟩ := ih hrest hop
        rw [length_drop] at hhigh
        refine ⟨start, bytes, rfl, hpage, by omega, by omega, fun _ => hne ?_⟩
        exact length_pos_iff.mp (by rw [length_drop]; omega)

/-- Every command of the page writer programs bytes of one page, inside the
range that is written. -/
theorem mem_pagePrograms (hop : op ∈ pagePrograms addr data) :
    ∃ start bytes, op = .program start bytes ∧ start % 256 + bytes.length ≤ 256 ∧ addr ≤ start ∧
      start + bytes.length ≤ addr + data.length ∧ (data ≠ [] → bytes ≠ []) :=
  mem_pageChunks (fits_first addr data.length) hop

/-- Data longer than a page that starts on a page boundary: the first command
programs the first page, the others what lies behind it. -/
theorem pagePrograms_of_aligned (addr : ℕ) (data : List UInt8) (haddr : addr % 256 = 0)
    (hlen : 256 < data.length) :
    ∃ rest, pagePrograms addr data = .program addr (data.take 256) :: rest ∧
      ∀ op ∈ rest, ∃ start bytes, op = .program start bytes ∧ start % 256 + bytes.length ≤ 256 ∧
        addr + 256 ≤ start ∧ start + bytes.length ≤ addr + data.length := by
  have hfirst : Fits addr 256 data.length := by constructor <;> omega
  have hnext := hfirst.next (by omega)
  rw [← length_drop] at hnext
  refine ⟨pageChunks data.length (addr + 256) (if 256 < (data.drop 256).length then 256
    else (data.drop 256).length) (data.drop 256), ?_, ?_⟩
  · rw [pagePrograms, haddr, if_neg (by omega), pageChunks, if_neg (by omega)]
  · intro op hop
    obtain ⟨start, bytes, rfl, hpage, hlow, hhigh, -⟩ := mem_pageChunks hnext hop
    rw [length_drop] at hhigh
    exact ⟨start, bytes, rfl, hpage, hlow, by omega⟩

theorem inPage_of_mem_pagePrograms (hop : op ∈ pagePrograms addr data) : op.InPage 256 := by
  obtain ⟨start, bytes, rfl, hpage, -⟩ := mem_pagePrograms hop
  exact hpage

theorem norApply_of_other_sector {mem : Cells} {i : ℕ} (hpage : op.InPage 256)
    (hi : i / 4096 ≠ sectorOf op) : norApply mem op i = mem i := by
  cases op with
  | erase addr => exact eraseBlock_apply_of_ne hi
  | program addr data =>
    have hand : norApply mem (.program addr data) = andInto mem addr data :=
      programPage_eq_andInto _ _ _ hpage
    have hpage : addr % 256 + data.length ≤ 256 := hpage
    have hi : i / 4096 ≠ addr / 4096 := hi
    rw [hand]
    rcases lt_or_ge i addr with hlt | hge
    · exact andInto_apply_of_lt _ hlt
    · exact andInto_apply_of_ge (by omega)

end Easyio.W25q16
