import Mathlib.Data.Nat.Bits
import Mathlib.Logic.Function.Basic
import Pdsh.Lib.Session
import Pdsh.Pcp.Client

/-!
# The file system of the server

What the calls of `_sink` do when the machine does not fail them: memory is there, the disk is not
full, and nobody is refused (the server runs as root, or on its own files). A node has one path, so
there are no links. The times of a node are those that `utimes` has set, as long as it was not
changed behind that: a write changes a file, a new entry the directory it is in.

What a `C` and a `D` record should come to is `Target.putFile`, `Target.enterDir` and
`Target.leaveDir`.
-/

namespace Pdsh.Pcp

open Lib.Process

/-- A file or a directory. -/
structure Node where
  isDir : Bool
  mode : Nat
  data : List Char := []
  times : Option Times := none
deriving DecidableEq, Repr

/-- The node has been changed. -/
def Node.touched (n : Node) : Node := { n with times := none }

/-- The nodes by their paths, the mask of new ones, and the open files with their offsets. -/
structure Target where
  nodes : CStr → Option Node
  mask : Nat
  fds : Nat → Option (CStr × Nat)

/-- `dirname`: the path of the directory an entry is in. -/
def dirname (path : CStr) : CStr := (path.rdropWhile fun c => decide (c ≠ '/')).dropLast

namespace Target

def kind (e : Target) (path : CStr) : Option FileType :=
  (e.nodes path).map fun n => if n.isDir then .dir else .other

def set (e : Target) (path : CStr) (n : Node) : Target :=
  { e with nodes := Function.update e.nodes path (some n) }

/-- Change the node at a path, if there is one. -/
def modify (e : Target) (path : CStr) (f : Node → Node) : Target :=
  { e with nodes := Function.update e.nodes path ((e.nodes path).map f) }

/-- A new node at a path, in the directory that is there. -/
def create (e : Target) (path : CStr) (n : Node) : Target :=
  (e.modify (dirname path) Node.touched).set path n

/-- The file of a descriptor, changed at its offset. -/
def modifyFd (e : Target) (fd : Nat) (f : Nat → Node → Node) : Target :=
  match e.fds fd with
  | some (path, offset) => e.modify path (f offset)
  | none => e

def seek (e : Target) (fd : Nat) (offset : Option (CStr × Nat)) : Target :=
  { e with fds := Function.update e.fds fd offset }

end Target

/-- What a file holds when `new` is written at an offset, with zeros up to there. -/
def splice (old : List Char) (offset : Nat) (new : List Char) : List Char :=
  (old ++ List.replicate (offset - old.length) '\x00').take offset ++ new ++
    old.drop (offset + new.length)

/-- What a file holds when it is given a size. -/
def resize (old : List Char) (size : Nat) : List Char :=
  old.take size ++ List.replicate (size - old.length) '\x00'

/-- `mkdir` takes the sticky bit, but neither set-id bit. -/
def mkdirMode (mode : Nat) : Nat := mode &&& 0x3FF

/-- The answer to a call, and the file system behind it. -/
def Target.does : World sinkSig Target
  | e, .stat path, a, e' => a = e.kind path ∧ e' = e
  | e, .mkdir path mode, a, e' =>
      if e.nodes path = none ∧ e.kind (dirname path) = some .dir then
        a = true ∧ e' = e.create path { isDir := true, mode := (mkdirMode mode).ldiff e.mask }
      else a = false ∧ e' = e
  | e, .chmod path mode, _, e' => e' = e.modify path fun n => { n with mode := mode }
  | e, .openFile path mode, a, e' =>
      match e.nodes path with
      | some n =>
          if n.isDir then a = none ∧ e' = e
          else ∃ fd, e.fds fd = none ∧ a = some fd ∧ e' = e.seek fd (some (path, 0))
      | none =>
          if e.kind (dirname path) = some .dir then
            ∃ fd, e.fds fd = none ∧ a = some fd ∧
              e' = (e.create path { isDir := false, mode := mode.ldiff e.mask }).seek fd
                (some (path, 0))
          else a = none ∧ e' = e
  | e, .utimes path tv, a, e' =>
      a = (e.nodes path).isSome ∧ e' = e.modify path fun n => { n with times := some tv }
  | e, .fchmod fd mode, _, e' => e' = e.modifyFd fd fun _ n => { n with mode := mode }
  | e, .fstat _, a, e' => (∃ st_blksize, a = some st_blksize) ∧ e' = e
  | e, .write fd data, a, e' =>
      a = true ∧ e' = (e.modifyFd fd fun offset n =>
        { n with data := splice n.data offset data, times := none }).seek fd
          ((e.fds fd).map fun f => (f.1, f.2 + data.length))
  | e, .ftruncate fd size, a, e' =>
      a = true ∧ e' = e.modifyFd fd fun _ n =>
        { n with data := resize n.data size.toNat, times := none }
  | e, .close fd, _, e' => e' = e.seek fd none
  | e, .umask mask, a, e' => a = e.mask ∧ e' = { e with mask := mask }
  | e, .malloc _, a, e' => a = true ∧ e' = e
  | e, .fdopen, a, e' => a = true ∧ e' = e
  | e, .strerror, _, e' => e' = e
  | e, .took .., _, e' => e' = e
  | e, .answering, _, e' => e' = e

/-! ## What a record comes to -/

/-- The times in a record. -/
def timesOf (sb : StatBuf) : Times := ⟨⟨sb.st_atime.toInt, 0⟩, ⟨sb.st_mtime.toInt, 0⟩⟩

/-- The mode a file gets. -/
def fileMode (preserve : Bool) (mask : Nat) (old : Option Node) (sb : StatBuf) : Nat :=
  match old with
  | some n => if preserve then sb.permissions else n.mode
  | none => sb.permissions.ldiff mask

/-- The mode a directory gets. -/
def dirMode (preserve : Bool) (mask : Nat) (old : Option Node) (sb : StatBuf) : Nat :=
  match old with
  | some n => if preserve then sb.permissions else n.mode
  | none => (mkdirMode sb.permissions).ldiff mask

namespace Target

/-- A node at a path, new or in the place of the one there. -/
def place (e : Target) (path : CStr) (n : Node) : Target :=
  match e.nodes path with
  | some _ => e.set path n
  | none => e.create path n

/-- The file of a `C` record. -/
def putFile (times preserve : Bool) (e : Target) (path : CStr) (sb : StatBuf) (data : List Char) :
    Target :=
  e.place path { isDir := false, mode := fileMode preserve e.mask (e.nodes path) sb, data := data,
                 times := if times then some (timesOf sb) else none }

/-- The directory of a `D` record before its entries. -/
def enterDir (preserve : Bool) (e : Target) (path : CStr) (sb : StatBuf) : Target :=
  let mode := dirMode preserve e.mask (e.nodes path) sb
  match e.nodes path with
  | some n => e.set path { n with mode := mode }
  | none => e.create path { isDir := true, mode := mode }

/-- The directory behind its entries. -/
def leaveDir (times : Bool) (e : Target) (path : CStr) (sb : StatBuf) : Target :=
  if times then e.modify path fun n => { n with times := some (timesOf sb) } else e

end Target

/-! ## An open file -/

namespace Target

variable {e : Target} {fd offset : Nat} {path : CStr} {n : Node}

/-- The file at a path is open. -/
def opened (e : Target) (fd : Nat) (path : CStr) (offset : Nat) (n : Node) : Target :=
  (e.set path n).seek fd (some (path, offset))

@[simp] theorem opened_fds (e : Target) (fd : Nat) (path : CStr) (offset : Nat) (n : Node) :
    (e.opened fd path offset n).fds fd = some (path, offset) := Function.update_self _ _ _

@[simp] theorem set_nodes (e : Target) (path : CStr) (n : Node) :
    (e.set path n).nodes path = some n := Function.update_self _ _ _

theorem set_nodes_of_ne {p : CStr} (hp : p ≠ path) (n : Node) : (e.set path n).nodes p = e.nodes p :=
  Function.update_of_ne hp _ _

theorem modify_nodes (e : Target) (path : CStr) (f : Node → Node) :
    (e.modify path f).nodes path = (e.nodes path).map f := Function.update_self _ _ _

theorem modify_nodes_of_ne {p : CStr} (hp : p ≠ path) (f : Node → Node) :
    (e.modify path f).nodes p = e.nodes p := Function.update_of_ne hp _ _

theorem set_self (h : e.nodes path = some n) : e.set path n = e := by
  rw [set, ← h, Function.update_eq_self]

@[simp] theorem modify_set (e : Target) (path : CStr) (n : Node) (f : Node → Node) :
    (e.set path n).modify path f = e.set path (f n) := by
  rw [modify, set_nodes, set, set, Function.update_idem]
  rfl

theorem modifyFd_opened (f : Nat → Node → Node) :
    (e.opened fd path offset n).modifyFd fd f = e.opened fd path offset (f offset n) := by
  rw [modifyFd, opened_fds]
  show ((e.set path n).modify path (f offset)).seek fd _ = _
  rw [modify_set]
  rfl

theorem seek_opened (offset' : Nat) :
    (e.opened fd path offset n).seek fd (some (path, offset')) = e.opened fd path offset' n := by
  simp only [opened, seek, Function.update_idem]

/-- A file that is closed leaves its node. -/
theorem close_opened (hfd : e.fds fd = none) :
    (e.opened fd path offset n).seek fd none = e.set path n := by
  have hfds : Function.update e.fds fd none = e.fds := by rw [← hfd, Function.update_eq_self]
  simp only [opened, seek, set, Function.update_idem, hfds]

end Target

/-! ## What is written -/

theorem splice_nil {old : List Char} {offset : Nat} (h : offset ≤ old.length) :
    splice old offset [] = old := by
  have hzero : offset - old.length = 0 := by omega
  rw [splice, hzero, List.replicate_zero, List.append_nil, List.append_nil, List.length_nil,
    Nat.add_zero, List.take_append_drop]

theorem length_splice (old : List Char) (offset : Nat) (new : List Char) :
    offset + new.length ≤ (splice old offset new).length := by
  simp only [splice, List.length_append, List.length_take, List.length_replicate, List.length_drop]
  omega

/-- Two writes one behind the other are one. -/
theorem splice_append (old : List Char) (offset : Nat) (new more : List Char) :
    splice (splice old offset new) (offset + new.length) more = splice old offset (new ++ more) := by
  have hle := length_splice old offset new
  have hzero : offset + new.length - (splice old offset new).length = 0 := by omega
  have hhead : ((old ++ List.replicate (offset - old.length) '\x00').take offset).length = offset := by
    rw [List.length_take, List.length_append, List.length_replicate]
    omega
  have htake : (splice old offset new).take (offset + new.length) =
      (old ++ List.replicate (offset - old.length) '\x00').take offset ++ new := by
    rw [splice, List.take_left' (by rw [List.length_append, hhead])]
  have hdrop : (splice old offset new).drop (offset + new.length + more.length) =
      old.drop (offset + new.length + more.length) := by
    rw [← List.drop_drop, splice, List.drop_left' (by rw [List.length_append, hhead]),
      List.drop_drop]
  rw [splice, hzero, List.replicate_zero, List.append_nil, htake, hdrop, splice,
    List.length_append, Nat.add_assoc]
  simp

/-- A file that is written from its beginning and cut behind that holds what was written. -/
theorem resize_splice (old new : List Char) : resize (splice old 0 new) new.length = new := by
  have hle := length_splice old 0 new
  rw [resize, splice, List.take_zero, List.nil_append, List.take_left]
  simp

end Pdsh.Pcp
