import Easyio.CString.Basic
import Easyio.Lists.Ring
import Easyio.Runs.Guarded

/-!
# The kernel's list of semaphores

The semaphore container of `src/object.c` with `rt_object_init`, `rt_object_find`
and `rt_sem_init`, and the calls of `gsmmux/easyio_cmux.c` that initialise
semaphores: `start_cmux` and the three AT command functions.  What these do besides,
the frames and the response buffers, is modelled with the receiver.

`rt_object_init` links the object behind the container's head without a look at
whether it is linked already.  Initialising a semaphore for the first time keeps
the list a ring (`Ring.insertAll`).  Initialising it again closes a loop that
leaves the head out, and no later initialisation opens the loop again (`Adrift.insertAll`).
-/

namespace Easyio.Kernel

open List Easyio.Lists CString Crash

/-- A list node the semaphore container can lead to: its head, the semaphore of one of the four
channels of `private_data`, or any other semaphore. -/
inductive SemNode where
  | null
  | objectList
  | vport (port : Fin 4)
  | other (id : ℕ)
  deriving DecidableEq

/-- The fields of a semaphore that its initialisation sets, without its list node
and the list of its waiting threads. -/
structure Semaphore where
  type : UInt8
  flag : UInt8
  name : List UInt8
  value : UInt32

/-- All semaphores and the list nodes embedded in them. -/
structure Semaphores where
  links : Links SemNode
  sem : SemNode → Semaphore

/-- `RT_NAME_MAX` -/
def rtNameMax : ℕ := 8

/-- `rt_strncpy` into a fresh array of `n` bytes. -/
def rtStrncpy (src : List UInt8) (n : ℕ) : List UInt8 :=
  (cString src).take n ++ replicate (n - (cString src).length) 0

/-- `rt_strncmp`; the callers only compare the result with 0. -/
def rtStrncmp : ℕ → List UInt8 → List UInt8 → UInt8
  | 0, _, _ => 0
  | count + 1, cs, ct =>
    let res := cs.headD 0 - ct.headD 0
    if res ≠ 0 ∨ cs.headD 0 = 0 then res else rtStrncmp count cs.tail ct.tail

namespace Semaphores

section

variable (s : Semaphores)

/-- `rt_object_init` for the semaphore at `n`. -/
def rtObjectInit (n : SemNode) (name : List UInt8) : Semaphores where
  links := s.links.insertAfter .objectList n
  -- `RT_Object_Class_Semaphore | RT_Object_Class_Static`
  sem := Function.update s.sem n { s.sem n with type := 0x81, name := rtStrncpy name rtNameMax }

/-- `rt_sem_init` -/
def rtSemInit (n : SemNode) (name : List UInt8) (value : UInt32) (flag : UInt8) : Semaphores :=
  let s := s.rtObjectInit n name
  { s with sem := Function.update s.sem n { s.sem n with value := value, flag := flag } }

/-- The loop of `rt_object_find`, from `node` on.  The outer `none` says that the
loop has not ended after `fuel` nodes. -/
def findFrom (s : Semaphores) (name : List UInt8) : ℕ → SemNode → Option (Option SemNode)
  | 0, _ => none
  | fuel + 1, node =>
    if node = .objectList then some none
    else if rtStrncmp rtNameMax (s.sem node).name name = 0 then some (some node)
    else findFrom s name fuel (s.links.next node)

/-- `rt_object_find` for a semaphore. -/
def rtObjectFind (name : List UInt8) (fuel : ℕ) : Option (Option SemNode) :=
  s.findFrom name fuel (s.links.next .objectList)

/-- The `memset` of `private_data` as far as it concerns the four semaphores. -/
def clearPrivateData : Semaphores :=
  (finRange 4).foldl (fun s i =>
    { links := (s.links.setNext (.vport i) .null).setPrev (.vport i) .null
      sem := Function.update s.sem (.vport i) ⟨0, 0, replicate 8 0, 0⟩ }) s

/-- `rt_sem_init(&private_data.vport[port].sem,"vps",0,0)` -/
def initPort (port : Fin 4) : Semaphores := s.rtSemInit (.vport port) (ascii "vps") 0 0

/-- The semaphores that `start_cmux` initialises, where `codes` are the results of
its `cmux_command` calls.  A negative one makes it return before the `memset`. -/
def startPorts (codes : List ℤ) : List (Fin 4) :=
  if codes.any (· < 0) then [] else finRange 4

/-- `start_cmux` -/
def startCmux (codes : List ℤ) : Semaphores :=
  if codes.any (· < 0) then s else (finRange 4).foldl initPort s.clearPrivateData

end

/-- A call of one of the AT command functions. -/
inductive Command where
  | cmuxAtCommand (port : Fin 4)
  | cmuxAtCommandCheckResp (port : Fin 4)
  | cmuxAtCommandWait (port : Fin 4)

def Command.port : Command → Fin 4
  | .cmuxAtCommand port => port
  | .cmuxAtCommandCheckResp port => port
  | .cmuxAtCommandWait port => port

/-- What a command does to the list: each initialises the semaphore of its channel
once, before it sends anything. -/
def command (s : Semaphores) : Command → Semaphores
  | .cmuxAtCommand port => s.initPort port
  | .cmuxAtCommandCheckResp port => s.initPort port
  | .cmuxAtCommandWait port => s.initPort port

/-- `start_cmux` and the commands after it. -/
def session (s : Semaphores) (codes : List ℤ) (commands : List Command) : Semaphores :=
  replay command (s.startCmux codes) commands

/-- The channels whose semaphore a session initialises, in order. -/
def initialised (codes : List ℤ) (commands : List Command) : List (Fin 4) :=
  startPorts codes ++ commands.map Command.port

/-- The list is a ring through the container's head that holds each of `sems`
exactly once and nothing else, so that looking for a name ends. -/
def Intact (s : Semaphores) (sems : List SemNode) : Prop :=
  (∃ xs, Ring s.links .objectList xs ∧ ∀ n, n ∈ xs ↔ n ∈ sems) ∧
    ∀ name, ∃ fuel, (s.rtObjectFind name fuel).isSome

/-! ## The list through a session -/

section

variable (s : Semaphores)
include s

theorem links_replay_command (commands : List Command) : (replay command s commands).links =
      s.links.insertAll .objectList (commands.map fun c => .vport c.port) := by
  induction commands generalizing s with
  | nil => rfl
  | cons c commands ih => cases c <;> exact ih _

/-- The `memset` only changes nodes of the four channels. -/
theorem links_clearPrivateData {n : SemNode} (hn : ∀ i, n ≠ .vport i) :
    s.clearPrivateData.links.next n = s.links.next n ∧
      s.clearPrivateData.links.prev n = s.links.prev n := by
  simp [clearPrivateData, finRange_succ, Links.setNext, Links.setPrev, hn]

/-- A session inserts the semaphores it initialises into a ring of the others. -/
theorem links_session {others : List ℕ}
    (hring : Ring s.links .objectList (others.map .other)) (codes : List ℤ)
    (commands : List Command) :
    ∃ base : Links SemNode, Ring base .objectList (others.map .other) ∧
      (s.session codes commands).links =
        base.insertAll .objectList ((initialised codes commands).map .vport) := by
  unfold session initialised startCmux startPorts
  by_cases hfail : codes.any (· < 0)
  · refine ⟨s.links, hring, ?_⟩
    rw [if_pos hfail, if_pos hfail, links_replay_command, nil_append, map_map]
    rfl
  · have hclear : Ring s.clearPrivateData.links .objectList (others.map .other) := by
      refine hring.congr fun m hm => s.links_clearPrivateData ?_
      rcases mem_cons.mp hm with rfl | hm
      · exact fun i => SemNode.noConfusion
      · obtain ⟨id, -, rfl⟩ := mem_map.mp hm
        exact fun i => SemNode.noConfusion
    refine ⟨s.clearPrivateData.links, hclear, ?_⟩
    rw [if_neg hfail, if_neg hfail, links_replay_command, map_append, map_map]
    rfl

/-- Looking for a name in a chain that ends at the head ends. -/
theorem findFrom_isSome (name : List UInt8) {a : SemNode} {xs : List SemNode}
    (hchain : Chain s.links a xs .objectList) :
    (s.findFrom name (xs.length + 1) (s.links.next a)).isSome := by
  induction xs generalizing a with
  | nil => simp [findFrom, hchain.1]
  | cons x xs ih =>
    rw [hchain.1, findFrom]
    split
    · rfl
    split
    · rfl
    exact ih hchain.2.2

/-- The list is a ring after a session exactly if no semaphore was initialised
twice, and then it holds the initialised ones in front of the others. -/
theorem ring_session_iff (others : List ℕ)
    (hring : Ring s.links .objectList (others.map .other)) (codes : List ℤ)
    (commands : List Command) : ((∃ xs, Ring (s.session codes commands).links .objectList xs) ↔
        (initialised codes commands).Nodup) ∧
      ((initialised codes commands).Nodup →
        Ring (s.session codes commands).links .objectList
          (((initialised codes commands).map .vport).reverse ++ others.map .other)) := by
  obtain ⟨base, hbase, hlinks⟩ := s.links_session hring codes commands
  have hhead : SemNode.objectList ∉ (initialised codes commands).map SemNode.vport := by simp
  have hothers : (others.map SemNode.other).Nodup := (nodup_cons.mp hring.nodup).2
  have hnodup : ((initialised codes commands).map SemNode.vport ++
      others.map SemNode.other).Nodup ↔ (initialised codes commands).Nodup := by
    rw [nodup_append, nodup_map_iff fun _ _ => SemNode.vport.inj]
    refine ⟨fun h => h.1, fun h => ⟨h, hothers, ?_⟩⟩
    simp
  rw [hlinks, ring_insertAll_iff hbase hhead]
  exact ⟨hnodup, fun h => hbase.insertAll hhead (hnodup.mpr h)⟩

end

/-- A successful `start_cmux` has initialised the semaphores of all channels, so that no command
leaves them initialised once. -/
theorem nodup_initialised_iff (codes : List ℤ) (commands : List Command) :
    (initialised codes commands).Nodup ↔
      if codes.any (· < 0) then (commands.map Command.port).Nodup else commands = [] := by
  unfold initialised startPorts
  split
  · rfl
  · refine ⟨fun h => eq_nil_iff_forall_not_mem.mpr fun c hc => ?_, ?_⟩
    · exact (nodup_append.mp h).2.2 c.port (mem_finRange _) c.port (mem_map_of_mem hc) rfl
    · rintro rfl
      decide

/-- **The semaphore list after `start_cmux` and any commands** is intact exactly if
no semaphore was initialised twice: after a failed handshake, if no two commands have the same
channel; after a successful one, which initialises the semaphores of all four channels, if there is
no command at all. -/
theorem semaphore_list_intact_iff (s : Semaphores) (others : List ℕ)
    (hring : Ring s.links .objectList (others.map .other)) (codes : List ℤ)
    (commands : List Command) :
    Intact (s.session codes commands)
        (others.map .other ++ (initialised codes commands).map .vport) ↔
      if codes.any (· < 0) then (commands.map Command.port).Nodup else commands = [] := by
  obtain ⟨hiff, hnodup⟩ := s.ring_session_iff others hring codes commands
  rw [← nodup_initialised_iff]
  constructor
  · rintro ⟨⟨xs, hxs, -⟩, -⟩
    exact hiff.mp ⟨xs, hxs⟩
  · intro h
    refine ⟨⟨_, hnodup h, fun n => ?_⟩, fun name => ⟨_, findFrom_isSome _ name (hnodup h).chain⟩⟩
    simp [or_comm]

/-- A container that nothing was put into yet. -/
def empty : Semaphores where
  links := ⟨id, id⟩
  sem _ := ⟨0, 0, replicate 8 0, 0⟩

theorem ring_empty : Ring empty.links .objectList [] := ⟨⟨rfl, rfl⟩, nodup_singleton _⟩

/-- Commands on two channels after a handshake that failed. -/
theorem semaphore_list_intact_iff_refused :
    Intact (empty.session [0, -1] [.cmuxAtCommand 1, .cmuxAtCommandWait 2])
      ((initialised [0, -1] [.cmuxAtCommand 1, .cmuxAtCommandWait 2]).map .vport) :=
  (semaphore_list_intact_iff empty [] ring_empty _ _).mpr (by decide)

/-- One AT command on channel 1 after a successful `start_cmux`. -/
theorem semaphore_list_broken_by_command :
    ¬ Intact (empty.session [0, 0, 0, 0, 0] [.cmuxAtCommand 1])
      ((initialised [0, 0, 0, 0, 0] [.cmuxAtCommand 1]).map .vport) := by
  rintro ⟨⟨xs, hxs, -⟩, -⟩
  have hnodup := (empty.ring_session_iff [] ring_empty [0, 0, 0, 0, 0]
    [.cmuxAtCommand 1]).1.mp ⟨xs, hxs⟩
  exact absurd hnodup (by decide)

end Semaphores

end Easyio.Kernel
