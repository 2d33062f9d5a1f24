import Pdsh.Cbuf.Buffer

/-!
# Lines of a circular buffer

The functions of `cbuf.c` that read, drop, replay, rewind and write whole lines, and all
public functions together as the steps of a store of buffers.
-/

namespace Pdsh

open Lib.Ring

namespace Cbuf

/-! ## Finding lines -/

/-- The variables of the loops that look for lines. -/
structure LineSearch where
  i : Int
  n : Int
  m : Int
  l : Int
  chars : Int
  lines : Int
deriving DecidableEq, Repr

/-- Count one more byte. -/
def LineSearch.count (s : LineSearch) : LineSearch :=
  { s with n := s.n + 1, chars := if s.chars > 0 then s.chars - 1 else s.chars }

/-- The byte just counted ends a line of which `m` bytes are returned. -/
def LineSearch.found (s : LineSearch) (m : Int) : LineSearch :=
  { s with lines := if s.lines > 0 then s.lines - 1 else s.lines, m := m, l := s.l + 1 }

/-- The loop of `cbuf_find_unread_line`. -/
def unreadLoop (cb : Cbuf) : Nat → LineSearch → LineSearch
  | 0, s => s
  | fuel + 1, s =>
      if s.i ≠ cb.i_in then
        let s := s.count
        let s := if cb.data s.i = '\n' then s.found s.n else s
        if s.chars = 0 ∨ s.lines = 0 then s
        else unreadLoop cb fuel { s with i := (cint (s.i + 1)).tmod (cb.size + 1) }
      else s

/-- `cbuf_find_unread_line`: the number of bytes, and of lines. Two slots are fewer than
`size + 1` passes apart. -/
def findUnreadLine (cb : Cbuf) (chars lines : Int) : Int × Int :=
  if lines = 0 ∨ (lines ≤ -1 ∧ chars ≤ 0) then (0, 0)
  else if cb.used = 0 then (0, 0)
  else
    let chars := if lines > 0 then -1 else chars
    let s := cb.unreadLoop (cb.size + 1).toNat ⟨cb.i_out, 0, 0, 0, chars, lines⟩
    if s.lines > 0 then (0, 0) else (s.m, s.l)

/-- The loop of `cbuf_find_replay_line`. -/
def replayLoop (cb : Cbuf) : Nat → LineSearch → LineSearch
  | 0, s => s
  | fuel + 1, s =>
      if s.i ≠ cb.i_rep then
        let s := { s with i := (cint (s.i + cb.size)).tmod (cb.size + 1) }
        let s := s.count
        -- the newline found ends the line before
        let s := if cb.data s.i = '\n' then s.found (s.n - 1) else s
        if s.chars = 0 ∨ s.lines = 0 then s else replayLoop cb fuel s
      else s

/-- What `cbuf_find_replay_line` finds: the number of bytes, of lines, and of newlines
missing at the end. -/
structure ReplayLine where
  m : Int
  nlines : Int
  nl : Int
deriving DecidableEq, Repr

/-- `cbuf_find_replay_line`. -/
def findReplayLine (cb : Cbuf) (chars lines : Int) : ReplayLine :=
  if lines = 0 ∨ (lines ≤ -1 ∧ chars ≤ 0) then ⟨0, 0, 0⟩
  else if cb.i_out = cb.i_rep then ⟨0, 0, 0⟩
  else
    let first := lines > 0
    let chars := if first then -1 else cint (chars + 1)
    -- the last line read needs no newline
    let terminated := cb.data ((cint (cb.i_out + cb.size)).tmod (cb.size + 1)) = '\n'
    let nl := if terminated then 0 else 1
    let chars := if terminated then chars else chars - 1
    let lines := if terminated ∧ first then cint (lines + 1) else lines
    let l := if terminated then -1 else 0
    let s := cb.replayLoop (cb.size + 1).toNat ⟨cb.i_out, 0, 0, l, chars, lines⟩
    -- the first line written needs no newline in front of it
    let s := if ¬ cb.got_wrap ∧ (s.chars > 0 ∨ s.lines > 0) then s.found s.n else s
    if s.lines > 0 then ⟨0, 0, nl⟩ else ⟨s.m, s.l, nl⟩

/-! ## Line by line -/

/-- `cbuf_drop_line`. -/
def dropLine (src : Cbuf) (len lines : Int) : Except Errno Int × Cbuf :=
  if len < 0 ∨ lines < -1 then (.error .EINVAL, src)
  else if lines = 0 then (.ok 0, src)
  else
    let n := (src.findUnreadLine len lines).1
    (.ok n, src.dropRead (.ok n))

/-- The string `cbuf_peek_line` and `cbuf_read_line` put into a buffer of `len` bytes. -/
def lineText (src : Cbuf) (len n : Int) : List Char :=
  if n > 0 ∧ len > 0 then
    let m := min n (len - 1)
    (if m > 0 then (src.reader m putMem []).2 else []) ++ ['\x00']
  else []

/-- `cbuf_peek_line`. -/
def peekLine (src : Cbuf) (null : Bool) (len lines : Int) : Except Errno Int × List Char :=
  if null ∨ len < 0 ∨ lines < -1 then (.error .EINVAL, [])
  else if lines = 0 then (.ok 0, [])
  else
    let n := (src.findUnreadLine (len - 1) lines).1
    (.ok n, src.lineText len n)

/-- `cbuf_read_line`. -/
def readLine (src : Cbuf) (null : Bool) (len lines : Int) : Except Errno Int × List Char × Cbuf :=
  if null ∨ len < 0 ∨ lines < -1 then (.error .EINVAL, [], src)
  else if lines = 0 then (.ok 0, [], src)
  else
    let n := (src.findUnreadLine (len - 1) lines).1
    (.ok n, src.lineText len n, src.dropRead (.ok n))

/-- `cbuf_replay_line`. -/
def replayLine (src : Cbuf) (null : Bool) (len lines : Int) : Except Errno Int × List Char :=
  if null ∨ len < 0 ∨ lines < -1 then (.error .EINVAL, [])
  else if lines = 0 then (.ok 0, [])
  else
    let r := src.findReplayLine (len - 1) lines
    if r.m > 0 ∧ len > 0 then
      let m := max (min r.m (len - 1 - r.nl)) 0
      let text := if m > 0 then (src.replayer m putMem []).2 else []
      (.ok (r.m + r.nl), text ++ (if r.nl ≠ 0 ∧ len > 1 then ['\n'] else []) ++ ['\x00'])
    else (.ok r.m, [])

/-- `cbuf_rewind_line`. -/
def rewindLine (src : Cbuf) (len lines : Int) : Except Errno Int × Cbuf :=
  if len < 0 ∨ lines < -1 then (.error .EINVAL, src)
  else if lines = 0 then (.ok 0, src)
  else
    let n := (src.findReplayLine len lines).m
    (.ok n, src.rewound n)

/-- The memory that holds a string. -/
def memoryOf (s : CStr) (i : Int) : Char := s.getD i.toNat '\x00'

/-- The bytes of `cbuf_write_line`, once they are known to fit: how many were dropped, and
the buffer. -/
def putLine (dst : Cbuf) (s : CStr) (ncopy len : Int) (reallocs : Nat → Bool) : Int × Cbuf :=
  let ndrop := if len > dst.size then len - dst.size else 0
  let ncopy := ncopy - ndrop
  let w : Written Int :=
    if ncopy > 0 then dst.writer ncopy (getMem (memoryOf s)) ndrop (reallocs 1)
    else ⟨.ok 0, none, ndrop, dst⟩
  let d := w.ndropped.getD 0
  let ndrop := if ncopy > 0 then ndrop + d else ndrop
  if memoryOf s (len - 1) ≠ '\n' then
    let w := w.dst.writer 1 (getMem (memoryOf ['\n'])) 0 (reallocs 2)
    (ndrop + w.ndropped.getD d, w.dst)
  else (ndrop, w.dst)

/-- `cbuf_write_line`; `reallocs` says which calls of `realloc` succeed. -/
def writeLine (dst : Cbuf) (srcbuf : Option CStr) (reallocs : Nat → Bool) :
    Except Errno Int × Int × Cbuf :=
  match srcbuf with
  | none => (.error .EINVAL, 0, dst)
  | some s =>
      let ncopy := cint s.length
      let len :=
        if ncopy = 0 ∨ memoryOf s (ncopy - 1) ≠ '\n' then cint (ncopy + 1) else ncopy
      let dst := (dst.attemptGrow len (reallocs 0)).2
      let full : Bool := match dst.overwrite with
        | .CBUF_NO_DROP => len > dst.size - dst.used
        | .CBUF_WRAP_ONCE => len > dst.size
        | .CBUF_WRAP_MANY => false
      if full then (.error .ENOSPC, 0, dst)
      else if len > 0 then
        let p := dst.putLine s ncopy len reallocs
        (.ok len, p.1, p.2)
      else (.ok len, 0, dst)

/-! ## All operations -/

/-- The functions that only look at a buffer. -/
inductive Query where
  | size | free | used | lines_used | reused | lines_reused | is_empty
  | opt_get (name : Int)
deriving DecidableEq, Repr

/-- The option value of an overwrite behavior. -/
def overwriteValue : CbufOverwrite → Int
  | .CBUF_NO_DROP => 0
  | .CBUF_WRAP_ONCE => 1
  | .CBUF_WRAP_MANY => 2

/-- `cbuf_size`, `cbuf_free`, `cbuf_used`, `cbuf_lines_used`, `cbuf_reused`,
`cbuf_lines_reused`, `cbuf_is_empty` and `cbuf_opt_get`. -/
def query (cb : Cbuf) : Query → Except Errno Int
  | .size => .ok cb.size
  | .free => .ok (cb.size - cb.used)
  | .used => .ok cb.used
  | .lines_used => .ok (cb.findUnreadLine cb.size (-1)).2
  | .reused => .ok cb.reused
  | .lines_reused => .ok (cb.findReplayLine cb.size (-1)).nlines
  | .is_empty => .ok (if cb.used = 0 then 1 else 0)
  | .opt_get name =>
      if name = CBUF_OPT_OVERWRITE then .ok (overwriteValue cb.overwrite) else .error .EINVAL

/-- A call of a function on one buffer, and what the environment answers. -/
inductive Call where
  | query (q : Query)
  | flush
  | opt_set (name value : Int)
  | drop (len : Int)
  | peek (null : Bool) (len : Int)
  | read (null : Bool) (len : Int)
  | replay (null : Bool) (len : Int)
  | rewind (len : Int)
  | write (srcbuf : Option (Int → Char)) (len : Int) (reallocs : Bool)
  | drop_line (len lines : Int)
  | peek_line (null : Bool) (len lines : Int)
  | read_line (null : Bool) (len lines : Int)
  | replay_line (null : Bool) (len lines : Int)
  | rewind_line (len lines : Int)
  | write_line (srcbuf : Option CStr) (reallocs : Nat → Bool)
  | peek_to_fd (dstfd : Int) (writes : List FdWrite) (len : Int)
  | read_to_fd (dstfd : Int) (writes : List FdWrite) (len : Int)
  | replay_to_fd (dstfd : Int) (writes : List FdWrite) (len : Int)
  | write_from_fd (srcfd : Int) (reads : List FdRead) (len : Int) (reallocs : Bool)

/-- What a call gives back: its value, the bytes it delivers and `*ndropped`. -/
structure Answer where
  ret : Except Errno Int
  bytes : List Char
  ndropped : Int

/-- One call on one buffer. -/
def call (cb : Cbuf) : Call → Answer × Cbuf
  | .query q => (⟨cb.query q, [], 0⟩, cb)
  | .flush => (⟨.ok 0, [], 0⟩, cb.flush)
  | .opt_set name value => let r := cb.optSet name value; (⟨r.1, [], 0⟩, r.2)
  | .drop len => let r := cb.drop len; (⟨r.1, [], 0⟩, r.2)
  | .peek null len => let r := cb.peek null len; (⟨r.1, r.2, 0⟩, cb)
  | .read null len => let r := cb.read null len; (⟨r.1, r.2.1, 0⟩, r.2.2)
  | .replay null len => let r := cb.replay null len; (⟨r.1, r.2, 0⟩, cb)
  | .rewind len => let r := cb.rewind len; (⟨r.1, [], 0⟩, r.2)
  | .write srcbuf len reallocs =>
      let r := cb.write srcbuf len reallocs; (⟨r.1, [], r.2.1⟩, r.2.2)
  | .drop_line len lines => let r := cb.dropLine len lines; (⟨r.1, [], 0⟩, r.2)
  | .peek_line null len lines => let r := cb.peekLine null len lines; (⟨r.1, r.2, 0⟩, cb)
  | .read_line null len lines =>
      let r := cb.readLine null len lines; (⟨r.1, r.2.1, 0⟩, r.2.2)
  | .replay_line null len lines => let r := cb.replayLine null len lines; (⟨r.1, r.2, 0⟩, cb)
  | .rewind_line len lines => let r := cb.rewindLine len lines; (⟨r.1, [], 0⟩, r.2)
  | .write_line srcbuf reallocs =>
      let r := cb.writeLine srcbuf reallocs; (⟨r.1, [], r.2.1⟩, r.2.2)
  | .peek_to_fd dstfd writes len => let r := cb.peekToFd dstfd writes len; (⟨r.1, r.2, 0⟩, cb)
  | .read_to_fd dstfd writes len =>
      let r := cb.readToFd dstfd writes len; (⟨r.1, r.2.1, 0⟩, r.2.2)
  | .replay_to_fd dstfd writes len =>
      let r := cb.replayToFd dstfd writes len; (⟨r.1, r.2, 0⟩, cb)
  | .write_from_fd srcfd reads len reallocs =>
      let r := cb.writeFromFd srcfd reads len reallocs; (⟨r.1, [], r.2.1⟩, r.2.2.2)

/-- A call of a function of `cbuf.c`; buffers are named by numbers. -/
inductive Op where
  | create (ndebug mallocs : Bool) (heap : Int → Char) (minsize maxsize : Int) (cb : Nat)
  | destroy (cb : Nat)
  | on (cb : Nat) (call : Call)
  | copy (src dst : Nat) (len : Int) (reallocs : Bool)
  | move (src dst : Nat) (len : Int) (reallocs : Bool)

/-- The buffers that exist. -/
abbrev Store := Nat → Option Cbuf

/-- One call. A name is free when a buffer is created and in use when it is given; otherwise
there is no such call. -/
def step (s : Store) : Op → Option (Answer × Store)
  | .create ndebug mallocs heap minsize maxsize h =>
      match s h, create ndebug mallocs heap minsize maxsize with
      | some _, _ => none
      | none, .ok cb => some (⟨.ok 0, [], 0⟩, Function.update s h (some cb))
      | none, .error e => some (⟨.error e, [], 0⟩, s)
  | .destroy h => (s h).map fun _ => (⟨.ok 0, [], 0⟩, Function.update s h none)
  | .on h c => (s h).map fun cb => ((cb.call c).1, Function.update s h (some (cb.call c).2))
  | .copy h k len reallocs =>
      match s h, s k with
      | some src, some dst =>
          let r := copy (h = k) src dst len reallocs
          some (⟨r.1, [], r.2.1⟩, Function.update s k (some r.2.2))
      | _, _ => none
  | .move h k len reallocs =>
      match s h, s k with
      | some src, some dst =>
          let r := move (h = k) src dst len reallocs
          some (⟨r.1, [], r.2.1⟩,
            Function.update (Function.update s h (some r.2.2.1)) k (some r.2.2.2))
      | _, _ => none

end Cbuf

end Pdsh
