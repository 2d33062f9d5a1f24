import Pdsh.Err
import Pdsh.Xstring
import Pdsh.Pcp.Sink

/-!
# The client of a copy

`pcp_client` goes through the files and sends a request for each: the times when they are to be
preserved, then a `D` record, or a `C` record with the data and a NUL byte behind it. The answer
to each part is awaited. What a file gives that has no answer, or whose data fails, is left where it
is, and the next file is sent.

As for the server, the connection is the input and the output of a program and the file system is
behind its calls. The loop over the data is unrolled to `fuel` reads.
-/

namespace Pdsh.Pcp

open Lib.Process

/-! ## The calls -/

/-- `struct stat`, as far as the client reads it. -/
structure StatBuf where
  st_mode : UInt32
  st_size : Int64
  st_mtime : Int64
  st_atime : Int64
deriving DecidableEq, Repr

/-- `S_ISDIR`. -/
def StatBuf.isDir (sb : StatBuf) : Bool := sb.st_mode &&& 0xF000 = 0x4000

/-- `S_ISREG`. -/
def StatBuf.isReg (sb : StatBuf) : Bool := sb.st_mode &&& 0xF000 = 0x8000

/-- `st_mode & RCP_MODEMASK`. -/
def StatBuf.permissions (sb : StatBuf) : Nat := (sb.st_mode &&& 0xFFF).toNat

/-- The calls of the client. The last four do nothing: they mark where a file is begun, where the
end of a directory is sent, where the answer to a `C` or `D` record has come, and where the NUL
byte behind the data is sent. -/
inductive ClientCall where
  | stat (path : CStr)
  | openFile (path : CStr)
  | readFile
  | close
  | err (format : String) (args : List MesgArg)
  | turn
  | leave
  | accepted (size : Option Int64)
  | status
deriving DecidableEq, Repr

/-- The answers: none is a failure; `read` gives nothing at the end of the file. -/
def ClientCall.Answer : ClientCall → Type
  | stat _ => Option StatBuf
  | openFile _ => Bool
  | readFile => Option (List Char)
  | close | err .. | turn | leave | accepted _ | status => Unit

/-- The calls of the client, as a signature. -/
def clientSig : Sig := ⟨ClientCall, ClientCall.Answer⟩

instance : DecidableEq clientSig.Call := inferInstanceAs (DecidableEq ClientCall)

/-- A program of the client. -/
abbrev ClientM (α : Type) := Prog Char clientSig α

/-- An event of the client. -/
abbrev ClientEvent := Event Char clientSig

def clientStat (path : CStr) : ClientM (Option StatBuf) := Prog.ask (S := clientSig) (.stat path)

def openRead (path : CStr) : ClientM Bool := Prog.ask (S := clientSig) (.openFile path)

def readFile : ClientM (Option (List Char)) := Prog.ask (S := clientSig) .readFile

def closeRead : ClientM Unit := Prog.ask (S := clientSig) .close

def err (format : String) (args : List MesgArg) : ClientM Unit :=
  Prog.ask (S := clientSig) (.err format args)

def turn : ClientM Unit := Prog.ask (S := clientSig) .turn

def leave : ClientM Unit := Prog.ask (S := clientSig) .leave

def accepted (size : Option Int64) : ClientM Unit := Prog.ask (S := clientSig) (.accepted size)

def status : ClientM Unit := Prog.ask (S := clientSig) .status

/-- `struct pcp_filename`. -/
structure PcpFilename where
  filename : CStr
  file_specified_by_user : Bool
deriving DecidableEq, Repr

/-- `struct pcp_client`; the descriptors are the connection. -/
structure Client where
  preserve : Bool
  pcp_client : Bool
  host : CStr
  infiles : List PcpFilename
deriving DecidableEq, Repr

/-- `EXIT_SUBDIR_FILENAME`. -/
def EXIT_SUBDIR_FILENAME : CStr := "a!b@c#d$".toList

/-- `EXIT_SUBDIR_FLAG`. -/
def EXIT_SUBDIR_FLAG : CStr := "E\n".toList

/-! ## Records -/

/-- `%04o` and the like: an octal number, filled up with zeros. -/
def octText (width n : Nat) : CStr :=
  List.replicate (width - (Nat.toDigits 8 n).length) '0' ++ Nat.toDigits 8 n

/-- The `T` record. -/
def timesRecord (sb : StatBuf) : CStr :=
  snprintf BUFSIZ ('T' :: intText 1 sb.st_mtime.toInt ++ ' ' :: intText 1 0 ++
    ' ' :: intText 1 sb.st_atime.toInt ++ ' ' :: intText 1 0 ++ ['\n'])

/-- The `D` record. -/
def dirRecord (sb : StatBuf) (output_file : CStr) : CStr :=
  snprintf BUFSIZ ('D' :: octText 4 sb.permissions ++ ' ' :: intText 1 0 ++ ' ' :: xbasename
    output_file ++ ['\n'])

/-- The `C` record. -/
def fileRecord (sb : StatBuf) (output_file : CStr) : CStr :=
  snprintf BUFSIZ ('C' :: octText 4 sb.permissions ++ ' ' :: intText 1 sb.st_size.toInt ++
    ' ' :: xbasename output_file ++ ['\n'])

/-- Whether the asserts of `pcp_sendstr` hold of a string. -/
def Sendable (str : CStr) : Prop := str.getLast? = some '\n'

instance (str : CStr) : Decidable (Sendable str) := inferInstanceAs (Decidable (_ = _))

/-! ## Sending -/

/-- How a part of the client ends: it failed, it did its work, or the process is at its end. -/
inductive Outcome where
  | failed
  | succeeded
  | exited
deriving DecidableEq, Repr

/-- `_pcp_write`. -/
def pcpWrite (buf : List Char) : ClientM Bool := Prog.sendAll buf

/-- `pcp_sendstr`. -/
def pcpSendstr (str : CStr) : ClientM Outcome := do
  if Sendable str then
    if ← pcpWrite str then return .succeeded
    return .failed
  return .exited

/-- `fd_read_line`. -/
def fdReadLine : Nat → ClientM CStr
  | 0 => return []
  | room + 1 => do
    match ← Prog.recvByte with
    | none => return []
    | some c =>
      if c = '\n' then return [c]
      let more ← fdReadLine room
      return c :: more

/-- `pcp_response`. -/
def pcpResponse (host : CStr) : ClientM Bool := do
  match ← Prog.recvByte with
  | none => return false
  | some resp =>
    if resp = '\x00' then return true
    else if resp = '\x01' then
      let errstr ← fdReadLine (BUFSIZ - 1)
      err "%p: %S: %s: %s" [.str host, .str "fatal".toList, .str errstr]
      return false
    else
      let errstr ← fdReadLine (BUFSIZ - 2)
      err "%p: %S: %s: %s" [.str host, .str "error".toList, .str (resp :: errstr)]
      return true

/-- The loop of `_pcp_send_file_data`. -/
def sendDataLoop (filename host : CStr) : Nat → ClientM Bool
  | 0 => .unfinished
  | fuel + 1 => do
    match ← readFile with
    | none =>
      err "%S: _pcp_send_file_data: read %s: %m\n" [.str host, .str filename]
      return false
    | some [] => return true
    | some (b :: tmpbuf) =>
      if ← pcpWrite (b :: tmpbuf) then sendDataLoop filename host fuel
      else
        err "%S: _pcp_send_file_data: write: %m\n" [.str host]
        return false

/-- `_pcp_send_file_data`. -/
def pcpSendFileData (fuel : Nat) (filename host : CStr) : ClientM Bool := do
  if ← openRead filename then
    if ← sendDataLoop filename host fuel then
      closeRead
      return true
    return false
  else
    err "%S: _pcp_send_file_data: open %s: %m\n" [.str host, .str filename]
    return false

/-- `pcp_sendfile` up to the answer to the times. -/
def sendTimes (pcp : Client) (sb : StatBuf) : ClientM Outcome := do
  if pcp.preserve then
    match ← pcpSendstr (timesRecord sb) with
    | .succeeded =>
      if ← pcpResponse pcp.host then return .succeeded
      return .failed
    | r => return r
  return .succeeded

/-- `pcp_sendfile` from the answer to the record on. -/
def sendContents (fuel : Nat) (pcp : Client) (file : CStr) (sb : StatBuf) : ClientM Outcome := do
  if sb.isReg then
    if ← pcpSendFileData fuel file pcp.host then
      status
      if ← pcpWrite ['\x00'] then
        if ← pcpResponse pcp.host then return .succeeded
        return .failed
      return .failed
    return .failed
  return .succeeded

/-- `pcp_sendfile`. -/
def pcpSendfile (fuel : Nat) (pcp : Client) (file : CStr) (output_file : Option CStr) :
    ClientM Outcome := do
  let output_file := output_file.getD file
  match ← clientStat file with
  | none =>
    err "%S: %s: %m\n" [.str pcp.host, .str file]
    return .failed
  | some sb =>
    match ← sendTimes pcp sb with
    | .succeeded =>
      match ← pcpSendstr (if sb.isDir then dirRecord sb output_file else fileRecord sb
        output_file) with
      | .succeeded =>
        if ← pcpResponse pcp.host then
          accepted (if sb.isDir then none else some sb.st_size)
          sendContents fuel pcp file sb
        else return .failed
      | r => return r
    | r => return r

/-- `_pcp_sendfile`: false when the process ends. -/
def pcpSendfileEntry (fuel : Nat) (pcp : Client) (pf : PcpFilename) : ClientM Bool := do
  turn
  if pf.filename = EXIT_SUBDIR_FILENAME then
    leave
    match ← pcpSendstr EXIT_SUBDIR_FLAG with
    | .succeeded =>
      if ← pcpResponse pcp.host then return true
      err "%p: failed to exit subdir properly\n" []
      return false
    | _ =>
      err "%p: failed to send exit subdir flag\n" []
      return false
  else
    let output_filename :=
      if pcp.pcp_client ∧ pf.file_specified_by_user then some (pf.filename ++ '.' :: pcp.host)
        else none
    let r ← pcpSendfile fuel pcp pf.filename output_filename
    return r ≠ .exited

/-- The loop over the files. -/
def sendFiles (fuel : Nat) (pcp : Client) : List PcpFilename → ClientM Unit
  | [] => return ()
  | pf :: infiles => do
    if ← pcpSendfileEntry fuel pcp pf then sendFiles fuel pcp infiles

/-- `pcp_client`. -/
def pcpClient (fuel : Nat) (pcp : Client) : ClientM Int := do
  if ← pcpResponse pcp.host then
    sendFiles fuel pcp pcp.infiles
    return 0
  return -1

end Pdsh.Pcp
