import Pdsh.Libc
import Pdsh.Lib.Process

/-!
# The server of a copy

`_sink` reads control records from the connection and makes the files and directories
they name. `T` carries times, `C` a file and its data, `D` a directory whose entries
follow, `E` ends a directory. Each record is answered with a NUL byte, or with a byte 1
and a line of text.

The connection is the input and the output of a program; the file system and the
process are behind its calls. The `while (1)` of `_sink` and its recursion are unrolled
to `fuel` records. Arithmetic on `off_t` and `time_t` wraps at 64 bits; the buffer of the data
is its length, `cnt`, and what is in it.
-/

namespace Pdsh.Pcp

open Lib.Decimal Lib.Process

/-- The size of the buffers of stdio. -/
def BUFSIZ : Nat := 8192

/-! ## The calls -/

/-- `struct timeval`. -/
structure Timeval where
  tv_sec : Int := 0
  tv_usec : Int := 0
deriving DecidableEq, Repr

/-- `struct timeval tv[2]`, the two times by their names. -/
structure Times where
  atime : Timeval := {}
  mtime : Timeval := {}
deriving DecidableEq, Repr

/-- `st_mode & S_IFMT`, as far as `_sink` asks. -/
inductive FileType where
  | dir
  | other
deriving DecidableEq, Repr

/-- What a record asks for: the text of a name is taken as it stands. -/
inductive Request where
  | times (tv : Times)
  | entry (isdir : Bool) (name : CStr)
  | data
  | leave
deriving DecidableEq, Repr

/-- The calls of `_sink`. `note` does nothing: it marks the place where a request has been
taken at the level `targ`, and the place where an answer is about to be sent. -/
inductive Call where
  | stat (path : CStr)
  | mkdir (path : CStr) (mode : Nat)
  | chmod (path : CStr) (mode : Nat)
  | openFile (path : CStr) (mode : Nat)
  | utimes (path : CStr) (tv : Times)
  | fchmod (fd : Nat) (mode : Nat)
  | fstat (fd : Nat)
  | write (fd : Nat) (data : List Char)
  | ftruncate (fd : Nat) (size : Int)
  | close (fd : Nat)
  | umask (mask : Nat)
  | malloc (size : Nat)
  | fdopen
  | strerror
  | took (targ : CStr) (request : Request)
  | answering
deriving DecidableEq, Repr

/-- The answers: false and none are failures, `strerror` is the text for `errno`. -/
def Call.Answer : Call → Type
  | stat _ => Option FileType
  | mkdir .. | utimes .. | write .. | ftruncate .. | malloc _ | fdopen => Bool
  | openFile .. | fstat _ => Option Nat
  | umask _ => Nat
  | strerror => CStr
  | chmod .. | fchmod .. | close _ | took .. | answering => Unit

/-- The calls of `_sink`, as a signature. -/
def sinkSig : Sig := ⟨Call, Call.Answer⟩

instance : DecidableEq sinkSig.Call := inferInstanceAs (DecidableEq Call)

/-- The path a call goes to. -/
def Call.path : Call → Option CStr
  | stat p | mkdir p _ | chmod p _ | openFile p _ | utimes p _ => some p
  | _ => none

/-- A program of the server. -/
abbrev SinkM (α : Type) := Prog Char sinkSig α

/-- An event of the server. -/
abbrev SinkEvent := Event Char sinkSig

/-- A call and its answer. -/
abbrev called (c : Call) (a : c.Answer) : SinkEvent := .call (S := sinkSig) c a

def stat (path : CStr) : SinkM (Option FileType) := Prog.ask (S := sinkSig) (.stat path)

def mkdir (path : CStr) (mode : Nat) : SinkM Bool := Prog.ask (S := sinkSig) (.mkdir path mode)

def chmod (path : CStr) (mode : Nat) : SinkM Unit := Prog.ask (S := sinkSig) (.chmod path mode)

def openFile (path : CStr) (mode : Nat) : SinkM (Option Nat) :=
  Prog.ask (S := sinkSig) (.openFile path mode)

def utimes (path : CStr) (tv : Times) : SinkM Bool := Prog.ask (S := sinkSig) (.utimes path tv)

def fchmod (fd : Nat) (mode : Nat) : SinkM Unit := Prog.ask (S := sinkSig) (.fchmod fd mode)

def fstat (fd : Nat) : SinkM (Option Nat) := Prog.ask (S := sinkSig) (.fstat fd)

def write (fd : Nat) (data : List Char) : SinkM Bool := Prog.ask (S := sinkSig) (.write fd data)

def ftruncate (fd : Nat) (size : Int) : SinkM Bool := Prog.ask (S := sinkSig) (.ftruncate fd size)

def close (fd : Nat) : SinkM Unit := Prog.ask (S := sinkSig) (.close fd)

def umask (mask : Nat) : SinkM Nat := Prog.ask (S := sinkSig) (.umask mask)

def malloc (size : Nat) : SinkM Bool := Prog.ask (S := sinkSig) (.malloc size)

def fdopen : SinkM Bool := Prog.ask (S := sinkSig) .fdopen

def strerror : SinkM CStr := Prog.ask (S := sinkSig) .strerror

def took (targ : CStr) (request : Request) : SinkM Unit :=
  Prog.ask (S := sinkSig) (.took targ request)

def answering : SinkM Unit := Prog.ask (S := sinkSig) .answering

/-- `struct pcp_server`; the descriptors are the connection. -/
structure Server where
  preserve : Bool
  target_is_dir : Bool
  outfile : CStr
deriving DecidableEq, Repr

/-! ## Answers -/

/-- `write (svr->outfd, "", 1) == 1`. -/
def ack : SinkM Bool := do
  answering
  let n ← Prog.send ['\x00']
  return n == 1

/-- `_error`: the text behind the byte 1, when `fdopen` works. -/
def error (text : CStr) : SinkM Unit := do
  if ← fdopen then
    answering
    let _ ← Prog.sendAll ('\x01' :: text)

/-- An `_error` whose format ends in `%m`. -/
def errorM (text : CStr) : SinkM Unit := do
  let m ← strerror
  error (text ++ m ++ ['\n'])

/-- `screwup`. -/
def screwup (why : String) : SinkM Unit :=
  error ("protocol screwup: ".toList ++ why.toList ++ ['\n'])

/-- `_verifydir`. -/
def verifydir (cp : CStr) : SinkM Bool := do
  match ← stat cp with
  | some .dir => return true
  | _ =>
    error (cp ++ " not a directory\n".toList)
    return false

/-- `_response`. -/
def response : SinkM Bool := do
  match ← Prog.recvByte with
  | none =>
    error "lost connection\n".toList
    return false
  | some resp =>
    if resp = '\x00' then return true
    error "invalid response received\n".toList
    return false

/-! ## Records -/

/-- `getnum`. -/
def getnum (cp : CStr) : Int × CStr :=
  (Int.bmod (value (cp.takeWhile Char.isDigit)) (2 ^ 64), cp.dropWhile Char.isDigit)

/-- A number that has to be followed by a blank. -/
def getnumBlank (why : String) (cp : CStr) : Except String (Int × CStr) :=
  match getnum cp with
  | (n, ' ' :: rest) => .ok (n, rest)
  | _ => .error why

/-- A control record. -/
inductive Record where
  | times (tv : Times)
  | entry (isdir : Bool) (mode : Nat) (size : Int) (name : CStr)
deriving DecidableEq, Repr

/-- The text behind a `T`. -/
def parseTimes (cp : CStr) : Except String Record := do
  let (msec, cp) ← getnumBlank "mtime.sec not delimited" cp
  let (musec, cp) ← getnumBlank "mtime.usec not delimited" cp
  let (asec, cp) ← getnumBlank "atime.sec not delimited" cp
  let (ausec, cp) := getnum cp
  if cp = [] then return .times ⟨⟨asec, ausec⟩, ⟨msec, musec⟩⟩
  throw "atime.usec not delimited"

/-- The loop over the octal digits of the mode. -/
def parseMode : Nat → Nat → CStr → Except String (Nat × CStr)
  | 0, mode, cp => .ok (mode, cp)
  | _ + 1, _, [] => .error "bad mode"
  | n + 1, mode, c :: cp =>
      if c < '0' ∨ c > '7' then .error "bad mode"
      else parseMode n (mode * 8 + (c.toNat - '0'.toNat)) cp

/-- The text behind a `C` or a `D`. -/
def parseEntry (isdir : Bool) (cp : CStr) : Except String Record := do
  let (mode, cp) ← parseMode 4 0 cp
  match cp with
  | ' ' :: cp =>
    let (size, cp) ← getnumBlank "size not delimited" cp
    return .entry isdir mode size cp
  | _ => throw "mode not delimited"

/-- The record in the buffer, `SCREWUP` by its text. -/
def parseRecord : CStr → Except String Record
  | 'T' :: cp => parseTimes cp
  | 'C' :: cp => parseEntry false cp
  | 'D' :: cp => parseEntry true cp
  | _ => .error "expected control record"

/-- The rest of a record: up to the newline, or until `room` bytes are there. -/
def restOfRecord : Nat → SinkM (Option CStr)
  | 0 => return some []
  | room + 1 => do
    match ← Prog.recvByte with
    | none => return none
    | some ch =>
      if ch = '\n' then return some [ch]
      let more ← restOfRecord room
      return more.map (ch :: ·)

/-- The buffer as a string: without the newline at its end, and up to the first NUL. -/
def bufText (bytes : List Char) : CStr :=
  (if bytes.getLast? = some '\n' then bytes.dropLast else bytes).takeWhile (· ≠ '\x00')

/-! ## Files -/

/-- The locals of a call of `_sink`. -/
structure Level where
  targ : CStr
  targisdir : Bool := false
  tv : Times := {}
  setimes : Nat := 0
  cursize : Nat := 0
deriving DecidableEq, Repr

/-- The path of an entry of the directory `targ`. -/
def entryPath (targ name : CStr) : CStr := targ ++ (if targ = [] then [] else ['/']) ++ name

/-- The path of a record at a level, none when there is no memory for it. -/
def namebuf (l : Level) (name : CStr) : SinkM (Option CStr × Level) := do
  if l.targisdir then
    let need := l.targ.length + name.length + 250
    if need > l.cursize then
      if ← malloc need then
        return (some (snprintf need (entryPath l.targ name)), { l with cursize := need })
      error "out of memory\n".toList
      return (none, { l with cursize := 0 })
    return (some (snprintf l.cursize (entryPath l.targ name)), l)
  return (some l.targ, l)

/-- The length of the buffer: `roundup (st_blksize, BUFSIZ)`, or `BUFSIZ` when that is zero. -/
def bufSize (st_blksize : Nat) : Nat :=
  let size := (st_blksize + (BUFSIZ - 1)) / BUFSIZ * BUFSIZ
  if size = 0 then BUFSIZ else size

/-- `_allocbuf`: the length of the buffer for a file, none when there is none. -/
def allocbuf (cnt fd : Nat) : SinkM (Option Nat × Nat) := do
  match ← fstat fd with
  | none =>
    errorM "fstat: ".toList
    return (none, cnt)
  | some st_blksize =>
    let size := bufSize st_blksize
    if cnt < size then
      if ← malloc size then return (some size, size)
      error "malloc: out of memory\n".toList
      return (none, 0)
    return (some size, size)

/-- `wrerr`. -/
inductive Wrerr where
  | yes
  | no
  | displayed
deriving DecidableEq, Repr

/-- `if (wrerr == NO && write (ofd, bp->buf, count) != count) wrerr = YES`. -/
def writeOut (fd : Nat) (buf : List Char) (wrerr : Wrerr) : SinkM Wrerr := do
  if wrerr = .no then
    if ← write fd buf then return .no
    return .yes
  return wrerr

/-- The loop over the data, in blocks of `BUFSIZ`: what is still in the buffer at its end,
none at the end of the input. -/
def readBlocks (cnt fd : Nat) : Nat → Nat → List Char → Wrerr → SinkM (Option (List Char × Wrerr))
  | 0, _, buf, wrerr => return some (buf, wrerr)
  | blocks + 1, left, buf, wrerr => do
    let amt := min BUFSIZ left
    match ← Prog.recvAll amt with
    | none =>
      errorM []
      return none
    | some data =>
      let buf := buf ++ data
      if buf.length = cnt then
        let wrerr ← writeOut fd buf wrerr
        readBlocks cnt fd blocks (left - amt) [] wrerr
      else readBlocks cnt fd blocks (left - amt) buf wrerr

/-- The data of a file, up to the end of its last write. -/
def readData (cnt fd : Nat) (size : Int) : SinkM (Option Wrerr) := do
  let left := size.toNat
  match ← readBlocks cnt fd ((left + (BUFSIZ - 1)) / BUFSIZ) left [] .no with
  | none => return none
  | some (buf, wrerr) =>
    if buf.length ≠ 0 then
      let wrerr ← writeOut fd buf wrerr
      return some wrerr
    return some wrerr

/-- `utimes`, with its message. -/
def setTimes (np : CStr) (tv : Times) : SinkM Bool := do
  if ← utimes np tv then return true
  errorM ("can't set times on ".toList ++ np ++ ": ".toList)
  return false

/-- `ftruncate`, with its message. -/
def truncate (np : CStr) (fd : Nat) (size : Int) (wrerr : Wrerr) : SinkM Wrerr := do
  if ← ftruncate fd size then return wrerr
  errorM ("can't truncate ".toList ++ np ++ ": ".toList)
  return .displayed

/-- The times of a file whose data is there. -/
def fileTimes (l : Level) (np : CStr) (wrerr : Wrerr) : SinkM (Wrerr × Level) := do
  if l.setimes ≠ 0 ∧ wrerr = .no then
    if ← setTimes np l.tv then return (.no, { l with setimes := 0 })
    return (.displayed, { l with setimes := 0 })
  return (wrerr, l)

/-- `write (svr->outfd, "", 1)`, with a message when it fails. -/
def ackOrError (text : String) : SinkM Unit := do
  if ← ack then return ()
  errorM text.toList

/-- The answer to the data of a file. -/
def answerFile (np : CStr) : Wrerr → SinkM Unit
  | .yes => errorM (np ++ ": ".toList)
  | .no => ackOrError "write failed to outfd: "
  | .displayed => return ()

/-- The end of a file: `ftruncate`, the NUL byte behind the data, the times and the answer.
False when the server ends. -/
def finishFile (l : Level) (np : CStr) (fd : Nat) (size : Int) (wrerr : Wrerr) :
    SinkM (Bool × Level) := do
  let wrerr ← truncate np fd size wrerr
  close fd
  if ← response then
    took np .data
    let (wrerr, l) ← fileTimes l np wrerr
    answerFile np wrerr
    return (true, l)
  return (false, l)

/-- `if (exists && svr->preserve) fchmod (ofd, mode)`. -/
def fchmodFound (svr : Server) (found : Bool) (fd mode : Nat) : SinkM Unit :=
  if found ∧ svr.preserve then fchmod fd mode else return ()

/-- A `C` record: the file at `np`, which `exists` or not, and its data. -/
def receiveFile (svr : Server) (l : Level) (np : CStr) (mode : Nat) (size : Int) (found : Bool)
    (cnt : Nat) : SinkM (Bool × Level × Nat) := do
  match ← openFile np mode with
  | none =>
    errorM (np ++ ": ".toList)
    return (true, l, cnt)
  | some ofd =>
    fchmodFound svr found ofd mode
    ackOrError "failed to write to outfd: "
    match ← allocbuf cnt ofd with
    | (none, cnt) =>
      close ofd
      return (true, l, cnt)
    | (some bp, cnt) =>
      match ← readData bp ofd size with
      | none => return (false, l, cnt)
      | some wrerr =>
        let (goesOn, l) ← finishFile l np ofd size wrerr
        return (goesOn, l, cnt)

/-! ## Directories -/

/-- A `D` record up to the recursion: false when the directory is refused. -/
def enterDir (svr : Server) (np : CStr) (mode : Nat) (st : Option FileType) : SinkM Bool := do
  match st with
  | some .dir =>
    if svr.preserve then
      chmod np mode
      return true
    return true
  | some .other =>
    -- `errno = ENOTDIR; goto bad`
    error (np ++ ": Not a directory\n".toList)
    return false
  | none =>
    if ← mkdir np mode then return true
    errorM (np ++ ": ".toList)
    return false

/-- A `D` record behind the recursion: the times of the directory. -/
def leaveDir (l : Level) (np : CStr) : SinkM Level := do
  if l.setimes ≠ 0 then
    let _ ← setTimes np l.tv
    return { l with setimes := 0 }
  return l

/-- `umask` at the start: the mask is cleared only to preserve modes. -/
def clearMask (svr : Server) : SinkM Unit := do
  let mask ← umask 0
  if svr.preserve then return ()
  let _ ← umask mask

/-- `if (svr->target_is_dir) _verifydir (svr, svr->outfile)`. -/
def verifyTarget (svr : Server) : SinkM Bool :=
  if svr.target_is_dir then verifydir svr.outfile else return true

/-- `_sink` up to its loop, none when it returns before. -/
def sinkStart (svr : Server) (targ : CStr) : SinkM (Option Level) := do
  if ← malloc BUFSIZ then
    clearMask svr
    if ← verifyTarget svr then
      if ← ack then
        let st ← stat targ
        return some { targ := targ, targisdir := st == some .dir }
      screwup "write failed"
      return none
    return none
  errorM "out of memory for buf: ".toList
  return none

/-- The loop of `_sink` at the level `l`; the result is `bufp->cnt`. -/
def sinkLoop (svr : Server) : Nat → Level → Nat → SinkM Nat
  | 0, _, _ => .unfinished
  | fuel + 1, l, cnt => do
    match ← Prog.recvByte with
    | none => return cnt
    | some c =>
      if c = '\n' then
        screwup "unexpected <newline>"
        return cnt
      match ← restOfRecord (BUFSIZ - 2) with
      | none =>
        screwup "lost connection"
        return cnt
      | some more =>
        if c = '\x01' then sinkLoop svr fuel l cnt
        else if c = '\x02' then return cnt
        else if c = 'E' then
          took l.targ .leave
          if ← ack then return cnt
          screwup "write failed"
          return cnt
        else
          match parseRecord (bufText (c :: more)) with
          | .error why =>
            screwup why
            return cnt
          | .ok (.times tv) =>
            took l.targ (.times tv)
            if ← ack then sinkLoop svr fuel { l with tv := tv, setimes := l.setimes + 1 } cnt
            else
              screwup "write failed"
              return cnt
          | .ok (.entry isdir mode size name) =>
            took l.targ (.entry isdir name)
            match ← namebuf l name with
            | (none, l) => sinkLoop svr fuel l cnt
            | (some np, l) =>
              let st ← stat np
              if isdir then
                if ← enterDir svr np mode st then
                  match ← sinkStart svr np with
                  | none =>
                    let l ← leaveDir l np
                    sinkLoop svr fuel l cnt
                  | some below =>
                    let cnt ← sinkLoop svr fuel below cnt
                    let l ← leaveDir l np
                    sinkLoop svr fuel l cnt
                else sinkLoop svr fuel l cnt
              else
                let (goesOn, l, cnt) ← receiveFile svr l np mode size st.isSome cnt
                if goesOn then sinkLoop svr fuel l cnt else return cnt

/-- `_sink`. -/
def sink (svr : Server) (fuel : Nat) (targ : CStr) (cnt : Nat) : SinkM Nat := do
  match ← sinkStart svr targ with
  | none => return cnt
  | some l => sinkLoop svr fuel l cnt

/-- `pcp_server`. -/
def pcpServer (fuel : Nat) (svr : Server) : SinkM Nat := sink svr fuel svr.outfile 0

end Pdsh.Pcp
