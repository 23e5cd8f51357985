import Easyio.Runs.Partial
import Mathlib.Data.Int.Init

/-!
# The reference counts of the file descriptors

`fd_new`, `fd_get` and `fd_put` of `components/dfs/src/dfs.c`, and the calls of
`components/dfs/src/dfs_posix.c` that use them.  A call works on one entry of `fd_table`;
the entry also says whether it belongs to a file that has been opened and not yet closed,
which no code reads.  What the file system does is part of the call (`Answer`).

`dfs_file_open` clears the entry when the file system refuses, and `dfs_file_close` when it
agrees.  Both are followed by `fd_put`, which then counts down from 0.
-/

namespace Easyio.Dfs

open Function Option Runs.Partial

/-- An entry of `fd_table`; `opened` is not in the source. -/
structure Fd where
  refCount : ℤ
  magic : Bool
  pos : ℤ
  size : ℤ
  opened : Bool

/-- What a routine of the file system returns, and `pos` and `size` after it. -/
structure Answer where
  result : ℤ
  pos : ℤ
  size : ℤ

/-- The ways through `dfs_file_open`: no absolute path, no file system there, a file system
that cannot open files, or one that answers. -/
inductive OpenAnswer where
  | noPath
  | noFilesystem
  | noRoutine
  | routine (answer : Answer)

/-- A call, with the answers of the file system; `none` is a missing routine. -/
inductive Call where
  | open (file : OpenAnswer)
  | close (fd : ℤ) (answer : Option Answer)
  | read (fd : ℤ) (answer : Option Answer)
  | write (fd : ℤ) (answer : Option Answer)
  | lseek (fd offset whence : ℤ) (answer : Option Answer)
  | mkdir (path : OpenAnswer) (close : Option Answer)
  | opendir (name : OpenAnswer) (malloc : Bool) (close : Option Answer)

namespace Fd

/-- An entry of the table at the start. -/
@[simp] def unused : Fd := ⟨0, false, 0, 0, false⟩

variable (d : Fd)

/-- `rt_memset(fd, 0, sizeof(struct dfs_fd))` -/
@[simp] def clear : Fd := { unused with opened := d.opened }

/-- The part of `fd_new` that works on the entry it has found. -/
@[simp] def new : Fd := { d with refCount := 1, magic := true }

/-- The part of `fd_get` that works on a valid entry. -/
@[simp] def get : Fd := { d with refCount := d.refCount + 1 }

@[simp] def put : Fd :=
  if d.refCount - 1 = 0 then d.clear else { d with refCount := d.refCount - 1 }

/-- A routine of the file system has been called, if there is one. -/
@[simp] def asked : Option Answer → Fd
  | none => d
  | some answer => { d with pos := answer.pos, size := answer.size }

/-- The result of `dfs_file_open`, and the entry after it. -/
def dfsFileOpen : OpenAnswer → ℤ × Fd
  | .noPath => (-1, d)
  | .noFilesystem => (-2, d)
  | .noRoutine => (-38, d.clear)
  | .routine answer => if answer.result < 0 then (answer.result, d.clear) else (0, d.asked answer)

/-- The result of `dfs_file_close`, and the entry after it. -/
def dfsFileClose (answer : Option Answer) : ℤ × Fd :=
  let result := (answer.map (·.result)).getD 0
  if result < 0 then (result, d.asked answer) else (result, d.clear)

/-- The offset that `lseek` asks for, in 32 bits; `none` for another `whence`. -/
def target (offset : ℤ) : ℤ → Option ℤ
  | 0 => some offset
  | 1 => some ((offset + d.pos).bmod 0x100000000)
  | 2 => some ((offset + d.size).bmod 0x100000000)
  | _ => none

/-- The entry after `dfs_file_lseek`. -/
@[simp] def dfsFileLseek : Option Answer → Fd
  | none => d
  | some answer =>
    { d.asked answer with pos := if 0 ≤ answer.result then answer.result else answer.pos }

/-- What a call does to the entry that `fd_new` or `fd_get` has given it. -/
def act : Call → Fd
  | .open file =>
    let (result, d) := d.new.get.dfsFileOpen file
    if result < 0 then d.put.put else { d.put with opened := true }
  | .close _ answer =>
    let (result, d) := d.get.dfsFileClose answer
    if result < 0 then d.put else { d.put.put with opened := false }
  | .read _ answer | .write _ answer => (d.get.asked answer).put
  | .lseek _ offset whence answer =>
    match d.target offset whence with
    | none => d.get
    | some offset => if offset < 0 then d.get else (d.get.dfsFileLseek answer).put
  | .mkdir path close =>
    let (result, d) := d.new.get.dfsFileOpen path
    if result < 0 then d.put else (d.dfsFileClose close).2.put
  | .opendir name malloc close =>
    let (result, d) := d.new.get.dfsFileOpen name
    if result < 0 then d.put.put
    else if malloc then { d.put with opened := true }
    else (d.dfsFileClose close).2.put.put

end Fd

variable {max : ℕ} {s s' : ℕ → Fd} {d : Fd} {c : Call}

section

variable (max : ℕ) (s : ℕ → Fd)

/-- The index of `fd_new`: the first entry that is not in use. -/
def fdNew : Option ℕ := (List.range max).find? fun i => (s i).refCount ≤ 0

/-- The index of `fd_get`: the argument, if it is that of a valid entry. -/
def fdGet (fd : ℤ) : Option ℕ :=
  if 0 ≤ fd ∧ fd < max ∧ (s fd.toNat).magic then some fd.toNat else none

/-- The entry a call works on. -/
def Call.entry : Call → Option ℕ
  | .open _ | .mkdir _ _ | .opendir _ _ _ => fdNew max s
  | .close fd _ | .read fd _ | .write fd _ | .lseek fd _ _ _ => fdGet max s fd

/-- A call from beginning to end. -/
def step (c : Call) : Option (ℕ → Fd) :=
  match c.entry max s with
  | none => some s
  | some i => some (Function.update s i ((s i).act c))

end

/-- The count is that of the files: one for an open file, none otherwise. -/
def Fd.Accounted (d : Fd) : Prop := d.refCount = if d.opened then 1 else 0

instance : Decidable d.Accounted := inferInstanceAs (Decidable (_ = _))

/-- The file system has refused in the routine itself, or has none. -/
def OpenAnswer.Refused : OpenAnswer → Prop
  | .noRoutine => True
  | .routine answer => answer.result < 0
  | _ => False

/-- `dfs_file_close` succeeds. -/
def Closes (answer : Option Answer) : Prop := 0 ≤ (answer.map (·.result)).getD 0

/-- The call balances its gets and puts: it opens a file, or fails before the file system
is asked; it seeks a place in the file; it does not close; it is not `mkdir`. -/
def Fd.Balances (d : Fd) : Call → Prop
  | .open file => ¬file.Refused
  | .close _ answer => ¬Closes answer
  | .read _ _ | .write _ _ => True
  | .lseek _ offset whence _ => ∃ place ∈ d.target offset whence, 0 ≤ place
  | .mkdir _ _ => False
  | .opendir name malloc close =>
    ¬name.Refused ∧ (name = .noPath ∨ name = .noFilesystem ∨ malloc = true ∨ ¬Closes close)

/-! ## Each call -/

/-- Between calls the entries of the open files are the valid ones. -/
def Fd.Settled (d : Fd) : Prop := d.Accounted ∧ d.magic = d.opened

/-- The call works on an entry that is in use already. -/
@[simp] def Call.Uses : Call → Bool
  | .open _ | .mkdir _ _ | .opendir _ _ _ => false
  | .close _ _ | .read _ _ | .write _ _ | .lseek _ _ _ _ => true

theorem opened_entry {i : ℕ} (h : ∀ i, (s i).Settled) (hi : c.entry max s = some i) :
    (s i).opened = c.Uses := by
  obtain ⟨hcount, hmagic⟩ := h i
  have hnew : fdNew max s = some i → (s i).opened = false := by
    intro hi
    have hfound := List.find?_some hi
    have hfree := of_decide_eq_true hfound
    by_contra hopened
    rw [Fd.Accounted, if_pos (eq_true_of_ne_false hopened)] at hcount
    omega
  have hget : ∀ fd, fdGet max s fd = some i → (s i).opened = true := by
    intro fd hi
    obtain ⟨⟨-, -, hvalid⟩, hi⟩ := ite_none_right_eq_some.mp hi
    rw [← hmagic, ← some.inj hi, hvalid]
  cases c with
  | «open» file => exact hnew hi
  | mkdir path close | opendir name malloc close => exact hnew hi
  | close fd answer | read fd answer | write fd answer | lseek fd offset whence answer =>
    exact hget fd hi

namespace Fd

/-- `dfs_file_open` on an entry that has just been taken: a failure before the file system
is asked leaves the entry, one after it clears it. -/
theorem dfsFileOpen_cases (d : Fd) (file : OpenAnswer) :
    (∃ result < 0, d.dfsFileOpen file = (result, d) ∧ (file = .noPath ∨ file = .noFilesystem)) ∨
      (∃ result < 0, d.dfsFileOpen file = (result, d.clear) ∧ file.Refused) ∨
      ∃ answer, file = .routine answer ∧ ¬file.Refused ∧
        d.dfsFileOpen file = (0, d.asked answer) := by
  cases file with
  | noPath => exact .inl ⟨-1, by decide, rfl, .inl rfl⟩
  | noFilesystem => exact .inl ⟨-2, by decide, rfl, .inr rfl⟩
  | noRoutine => exact .inr (.inl ⟨-38, by decide, rfl, trivial⟩)
  | routine answer =>
    by_cases hresult : answer.result < 0
    · exact .inr (.inl ⟨_, hresult, if_pos hresult, hresult⟩)
    · exact .inr (.inr ⟨answer, rfl, hresult, if_neg hresult⟩)

theorem dfsFileClose_cases (d : Fd) (answer : Option Answer) :
    (∃ result < 0, d.dfsFileClose answer = (result, d.asked answer) ∧ ¬Closes answer) ∨
      ∃ result, 0 ≤ result ∧ d.dfsFileClose answer = (result, d.clear) ∧ Closes answer := by
  by_cases hresult : (answer.map (·.result)).getD 0 < 0
  · exact .inl ⟨_, hresult, if_pos hresult, Int.not_le.mpr hresult⟩
  · exact .inr ⟨_, Int.not_lt.mp hresult, if_neg hresult, Int.not_lt.mp hresult⟩

/-- On an entry that is as it should be, the calls that balance keep it so, and the others
do not. -/
theorem act_spec (h : d.Settled) (hopened : d.opened = c.Uses) :
    d.Balances c ∧ (d.act c).Settled ∨ ¬d.Balances c ∧ ¬(d.act c).Accounted := by
  obtain ⟨hcount, hmagic⟩ := h
  rw [Accounted] at hcount
  unfold Settled Accounted Balances act
  cases c with
  | «open» file =>
    obtain ⟨result, hneg, heq, hfile⟩ | ⟨result, hneg, heq, hfile⟩ | ⟨answer, rfl, hfile, heq⟩ :=
      dfsFileOpen_cases d.new.get file
    · simp only [heq]
      rcases hfile with rfl | rfl <;> simp [hneg, hopened, OpenAnswer.Refused]
    · simp only [heq]
      simp [hneg, hopened, hfile]
    · simp only [heq]
      simp [hfile]
  | close fd answer =>
    obtain ⟨result, hneg, heq, hclose⟩ | ⟨result, hpos, heq, hclose⟩ :=
      dfsFileClose_cases d.get answer
    · simp only [heq]
      cases answer <;> simp [hneg, hcount, hmagic, hopened, hclose]
    · simp only [heq]
      simp [Int.not_lt.mpr hpos, hclose]
  | read fd answer | write fd answer => cases answer <;> simp [hcount, hmagic, hopened]
  | lseek fd offset whence answer =>
    cases hplace : d.target offset whence with
    | none =>
      simp only [hplace]
      simp [hcount, hopened]
    | some place =>
      simp only [hplace]
      by_cases hneg : place < 0
      · simp [hneg, hcount, hopened]
      · cases answer <;> simp [hneg, Int.not_lt.mp hneg, hcount, hmagic, hopened]
  | mkdir path close =>
    obtain ⟨result, hneg, heq, -⟩ | ⟨result, hneg, heq, -⟩ | ⟨answer, -, -, heq⟩ :=
      dfsFileOpen_cases d.new.get path
    · simp only [heq]
      simp [hneg, hopened]
    · simp only [heq]
      simp [hneg, hopened]
    · obtain ⟨result, -, heq', -⟩ | ⟨result, -, heq', -⟩ :=
        dfsFileClose_cases (d.new.get.asked answer) close
      · simp only [heq, heq']
        cases close <;> simp [hopened]
      · simp only [heq, heq']
        simp [hopened]
  | opendir name malloc close =>
    obtain ⟨result, hneg, heq, hfile⟩ | ⟨result, hneg, heq, hfile⟩ | ⟨answer, rfl, hfile, heq⟩ :=
      dfsFileOpen_cases d.new.get name
    · simp only [heq]
      rcases hfile with rfl | rfl <;> simp [hneg, hopened, OpenAnswer.Refused]
    · simp only [heq]
      simp [hneg, hopened, hfile]
    · obtain ⟨result, hneg, heq', hclose⟩ | ⟨result, hneg, heq', hclose⟩ :=
        dfsFileClose_cases (d.new.get.asked answer) close
      · simp only [heq, heq']
        cases malloc <;> cases close <;> simp [hfile, hclose, hopened]
      · simp only [heq, heq']
        cases malloc <;> simp [hfile, hclose, hopened]

end Fd

/-! ## Runs -/

/-- **Descriptor accounting.**  Between the calls of a run every count is that of the open
files, if and only if all its calls balance. -/
theorem fd_accounting_iff (max : ℕ) (calls : List Call) :
    Always (step max) (fun s => ∀ i, (s i).Accounted) (fun _ => .unused) calls ↔
      Meets (step max) (fun s c => ∀ i ∈ c.entry max s, (s i).Balances c) (fun _ => .unused)
        calls := by
  refine always_iff_meets (fun s (h : ∀ i, (s i).Settled) i => (h i).1) ?_ ?_ ?_
  · intro s c s' h hbalances hs i
    unfold step at hs
    cases hentry : c.entry max s with
    | none =>
      rw [hentry] at hs
      exact some.inj hs ▸ h i
    | some j =>
      rw [hentry] at hs
      rw [← some.inj hs]
      by_cases hij : i = j
      · subst hij
        rw [update_self]
        rcases Fd.act_spec (h i) (opened_entry h hentry) with ⟨-, hsettled⟩ | ⟨hnot, -⟩
        · exact hsettled
        · exact absurd (hbalances i hentry) hnot
      · rw [update_of_ne hij]
        exact h i
  · intro s c s' h hs haccounted i hentry
    have hs' : update s i ((s i).act c) = s' := by
      rw [step, hentry] at hs
      exact some.inj hs
    have hact := haccounted i
    rw [← hs', update_self] at hact
    rcases Fd.act_spec (h i) (opened_entry h hentry) with ⟨hbalances, -⟩ | ⟨-, hnot⟩
    · exact hbalances
    · exact absurd hact hnot
  · exact fun _ => ⟨rfl, rfl⟩

/-- A file closed, a file that the file system refuses to open, a seek to nowhere, and a
directory made: the counts that they leave behind. -/
theorem fd_counts_off :
    let start : ℕ → Fd := fun _ => .unused
    let file : OpenAnswer := .routine ⟨0, 0, 10⟩
    let count calls := (run (step 4) start calls).map fun s => ((s 0).refCount, (s 0).opened)
    count [.open file, .close 0 none] = some (-2, false) ∧
      count [.open (.routine ⟨-5, 0, 0⟩)] = some (-2, false) ∧
      count [.open file, .lseek 0 (-1) 0 none] = some (2, true) ∧
      count [.mkdir file none] = some (-1, false) ∧
      count [.mkdir .noPath none] = some (1, false) := by
  decide

end Easyio.Dfs
