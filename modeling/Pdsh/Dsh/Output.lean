import Pdsh.Cbuf.Refine
import Pdsh.Cbuf.LineSpec
import Pdsh.Lib.Lines
import Pdsh.Err

/-!
# The output of the hosts

Each host has a buffer for its standard output and one for its standard error. A thread that
finds its descriptor readable calls `_do_output`, which reads into the buffer and prints the
lines that are complete, and at its end `_flush_output`, which prints what is left.

`OutputState` is the table of hosts with the log of all calls of `outf`, in the order in which
they are made; the threads take their steps in any order. A step of a stream is a whole call of
`_do_output` with all its lines. The lines another thread prints in between would stand between
them in the log; but a call only touches the buffer and the return code of its own thread, so the
prints of each stream are the same and in the same order, and the results speak of these. Where the
whole text is read again, each print is a whole line behind its label, and `dshbak` sorts the lines
by their labels.
-/

namespace Pdsh.Dsh

open Lib.Transition

/-- `RC_MAGIC`. -/
def RC_MAGIC : CStr := "XXRETCODE:".toList

/-- `_extract_rc`: the return code, and the line without it. -/
def extractRc (buf : CStr) : Int × CStr :=
  match strstr RC_MAGIC buf with
  | none => (0, buf)
  | some p =>
      -- `p` has moved on by one when the magic is skipped
      if buf.getLast? = some '\n' ∧ p ≠ 0 then
        (atoi (buf.drop (p + 1 + RC_MAGIC.length)), buf.take p ++ ['\n'])
      else (atoi (buf.drop (p + RC_MAGIC.length)), buf.take p)

/-- What the output functions use of `thd_t`. -/
structure ThdOut where
  host : CStr
  labels : Bool
  rc : Int
deriving DecidableEq, Repr

/-- A message to the user: through `outf`, or through `err`. -/
inductive Print where
  | outf (text : CStr)
  | err (text : CStr)
deriving DecidableEq, Repr

/-- The characters printed. -/
def Print.text : Print → CStr
  | .outf text => text
  | .err text => text

/-- The string in a buffer of zeros that bytes were read into. -/
def stringIn (bytes : List Char) : CStr := bytes.takeWhile (· ≠ '\x00')

/-- What `_flush_lines` leaves behind. -/
structure Flushed where
  prints : List Print
  cb : Cbuf
  rc : Int

/-- `_flush_lines`. Every pass of its loop takes a line out of the buffer. -/
def flushLines (e : ErrState) (read_rc : Bool) (th : ThdOut) : Nat → Cbuf → (rc : Int) → Flushed
  | 0, cb, rc => ⟨[], cb, rc⟩
  | fuel + 1, cb, rc =>
      match (cb.peekLine false 1 1).1 with
      | .error _ =>
          ⟨[.err (verr e "%p: %S: Failed to peek line: %m\n".toList [.str th.host])], cb, rc⟩
      | .ok n =>
          if n = 0 then ⟨[], cb, rc⟩
          else
            match cb.read false n with
            | (.error _, _, cb) =>
                ⟨[.err (verr e "%p: %S: Failed to read line from buffer: %m\n".toList [.str th.host])],
                  cb, rc⟩
            | (.ok n, bytes, cb) =>
                if n = 0 then flushLines e read_rc th fuel cb rc
                else
                  let r := if read_rc then extractRc (stringIn bytes) else (rc, stringIn bytes)
                  let buf := r.2
                  let prints :=
                    if buf.length > 0 then
                      if th.labels then [Print.outf (verr e "%S: %s".toList [.str th.host, .str buf])]
                      else [Print.outf (verr e "%s".toList [.str buf])]
                    else []
                  let rest := flushLines e read_rc th fuel cb r.1
                  { rest with prints := prints ++ rest.prints }

/-- What `_do_output` leaves behind: its value, the prints, the buffer, what is left to read and
the return code. -/
structure DidOutput where
  ret : Int
  prints : List Print
  cb : Cbuf
  reads : List Cbuf.FdRead
  rc : Int

/-- `_do_output`, with memory to be had. -/
def doOutput (e : ErrState) (read_rc : Bool) (th : ThdOut) (fd : Int) (cb : Cbuf)
    (reads : List Cbuf.FdRead) : DidOutput :=
  match cb.writeFromFd fd reads (-1) true with
  | (.error errno, _, reads, cb) =>
      if errno = .EAGAIN then ⟨1, [], cb, reads, th.rc⟩
      else ⟨-1, [.err (verr e "%p: %S: read: %m\n".toList [.str th.host])], cb, reads, th.rc⟩
  | (.ok ret, _, reads, cb) =>
      let f := flushLines e read_rc th (cb.used.toNat + 1) cb th.rc
      ⟨ret, f.prints, f.cb, reads, f.rc⟩

/-- The loop of `_flush_output`, which reads what no newline ends. -/
def flushRest (e : ErrState) (th : ThdOut) : Nat → (labeled : Bool) → Cbuf → List Print × Cbuf
  | 0, _, cb => ([], cb)
  | fuel + 1, labeled, cb =>
      match cb.read false 8191 with
      | (.error _, _, cb) => ([], cb)
      | (.ok n, bytes, cb) =>
          if n > 0 then
            let label :=
              if th.labels ∧ ¬ labeled then [Print.outf (verr e "%S: ".toList [.str th.host])] else []
            let rest := flushRest e th fuel (labeled ∨ th.labels) cb
            (label ++ [.outf (verr e "%s".toList [.str (stringIn bytes)])] ++ rest.1, rest.2)
          else ([], cb)

/-- `_flush_output`; complete lines are printed for `t`, the first thread of the table. -/
def flushOutput (e : ErrState) (t th : ThdOut) (cb : Cbuf) : List Print × Cbuf :=
  let f := flushLines e false t (cb.used.toNat + 1) cb t.rc
  let rest := flushRest e th (f.cb.used.toNat + 1) false f.cb
  (f.prints ++ rest.1, rest.2)

/-! ## All hosts -/

/-- The two streams of a host. -/
inductive Which where
  | stdout | stderr
deriving DecidableEq, Repr

/-- One stream of a host: its buffer, its descriptor, whether the descriptor was closed, and
whether the buffer was flushed. -/
structure Stream where
  cb : Cbuf
  fd : Int
  reads : List Cbuf.FdRead
  closed : Bool
  flushed : Bool

/-- The threads of `dsh`, their streams, and everything printed so far. -/
structure OutputState where
  t : List ThdOut
  streams : Nat → Which → Stream
  log : List ((Nat × Which) × Print)

/-- A stream is read, or flushed. -/
inductive OutputEvent where
  | output (i : Nat) (w : Which)
  | flush (i : Nat) (w : Which)
deriving DecidableEq, Repr

/-- The other streams stay as they are. -/
def OutputState.setStream (s : OutputState) (i : Nat) (w : Which) (stream : Stream) : OutputState :=
  { s with streams := fun j v => if j = i ∧ v = w then stream else s.streams j v }

/-- Prints on behalf of a stream. -/
def OutputState.print (s : OutputState) (i : Nat) (w : Which) (prints : List Print) : OutputState :=
  { s with log := s.log ++ prints.map ((i, w), ·) }

/-- `_handle_rcmd_stdout` and `_handle_rcmd_stderr` of a stream that is open, and
`_flush_output`, once. -/
def outputStep (e : ErrState) (s : OutputState) : OutputEvent → Option OutputState
  | .output i w =>
      let stream := s.streams i w
      match s.t[i]? with
      | none => none
      | some th =>
          if stream.closed ∨ stream.flushed then none
          else
            let o := doOutput e (w = .stdout) th stream.fd stream.cb stream.reads
            let s := { s with t := s.t.set i { th with rc := o.rc } }
            let s := s.setStream i w
              { stream with cb := o.cb, reads := o.reads, closed := o.ret ≤ 0 }
            some (s.print i w o.prints)
  | .flush i w =>
      let stream := s.streams i w
      match s.t[i]?, s.t[0]? with
      | some th, some first =>
          if stream.flushed then none
          else
            let f := flushOutput e first th stream.cb
            let s := s.setStream i w { stream with cb := f.2, flushed := true }
            some (s.print i w f.1)
      | _, _ => none

/-- Everything printed on behalf of a stream. -/
def OutputState.printed (s : OutputState) (i : Nat) (w : Which) : CStr :=
  (s.log.filter (·.1 = (i, w))).flatMap (·.2.text)

end Pdsh.Dsh
