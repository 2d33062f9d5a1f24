import Pdsh.Lib.Run
import Pdsh.Libc

/-!
# Errors that end the process

`errx` prints a message and exits with status 1; `lsd_fatal_error`, which the
host list code calls on a bad range, is `errx` with the place of the call in
front. `%p` of the messages is the name of the program and is left as it is.
-/

namespace Pdsh

/-- The fatal errors on the paths of the host lists, the options and the modules. -/
inductive Fatal where
  /-- `_parse_single_range`: more than `MAX_RANGE` hosts. -/
  | tooManyHosts (orig : CStr)
  /-- `_parse_single_range`: not a number or a range of numbers. -/
  | invalidRange (orig : CStr)
  /-- `get_host_rcmd_type`: a user in front of an rcmd type. -/
  | badHostSpec (hosts : CStr)
  /-- `wcoll_arg_process`: the rcmd type or its hosts were not accepted. -/
  | registerRcmd (rcmdType : Option CStr) (hosts : CStr)
  /-- `wcoll_arg_process`: a regular expression was not accepted. -/
  | regexError
  /-- `wcoll_arg_process`: the file of hosts could not be read. -/
  | readWcoll (file : CStr)
  /-- `_get_dir_name`: no way into the directory. -/
  | chdir (path : CStr)
  /-- `_get_dir_name`: the directory has no name that fits. -/
  | getcwd (path : CStr)
deriving DecidableEq, Repr

/-- The message handed to `errx` or `lsd_fatal_error`. `_error` cuts its message
to the 1023 characters of its buffer. -/
def Fatal.mesg : Fatal → CStr
  | .tooManyHosts orig => snprintf 1024 ("Too many hosts in range `".toList ++ orig ++ ['\''])
  | .invalidRange orig => snprintf 1024 ("Invalid range: `".toList ++ orig ++ ['\''])
  | .badHostSpec hosts =>
      "Host spec \"".toList ++ hosts ++ "\" not of form [rcmd_type:][user@]hosts\n".toList
  | .registerRcmd rcmdType hosts =>
      "%p: Failed to register rcmd \"".toList ++ rcmdType.getD [] ++ "\" for \"".toList ++ hosts ++
        "\"\n".toList
  | .regexError => "%p: Fatal error\n".toList
  | .readWcoll file => "%p: Error reading wcoll: ".toList ++ file ++ ": %m\n".toList
  | .chdir path => "Unable to chdir() to ".toList ++ path ++ ": %m".toList
  | .getcwd path => "Unable to get working directory for module path: ".toList ++ path ++ "\n".toList

/-! ## `_verr` -/

/-- What `err.c` knows of its process: its name and host, whether host names keep their domain,
and the text of `errno`. -/
structure ErrState where
  prog : CStr
  host : CStr
  keep_host_domain : Bool
  strerror : CStr
deriving DecidableEq, Repr

/-- An argument behind a format. -/
inductive MesgArg where
  | str (s : CStr)
  | int (n : Int)
deriving DecidableEq, Repr

/-- `LINEBUFSIZE`. -/
def LINEBUFSIZE : Nat := 2048

/-- A number with at least `width` digits. -/
def intText (width : Nat) (n : Int) : CStr :=
  (if n < 0 then ['-'] else []) ++ Lib.Decimal.pad width n.natAbs

/-- `%S`: a host name, without its domain unless it is an address or domains are kept. -/
def hostText (keep_host_domain : Bool) (s : CStr) : CStr :=
  let tmpstr := snprintf LINEBUFSIZE s
  if ¬ (tmpstr.head?.map Char.isDigit).getD false ∧ ¬ keep_host_domain then
    tmpstr.takeWhile (· ≠ '.')
  else tmpstr

/-- One conversion of `_verr`: its text, and the arguments that are left. -/
def verrConversion (e : ErrState) (c : Char) (args : List MesgArg) : CStr × List MesgArg :=
  match c, args with
  | 's', .str s :: args => (s, args)
  | 'S', .str s :: args => (hostText e.keep_host_domain s, args)
  | 'z', .int n :: args => (snprintf LINEBUFSIZE (intText 3 n), args)
  | 'c', .int n :: args => ([Char.ofNat (n % 256).toNat], args)
  | 'd', .int n :: args => (snprintf LINEBUFSIZE (intText 1 n), args)
  | 'm', args => (e.strerror, args)
  | 'P', args => (e.prog, args)
  | 'H', args => (e.host, args)
  | 'p', args => (snprintf LINEBUFSIZE (e.prog ++ '@' :: e.host), args)
  | c, args => ([c], args)

/-- `_verr`: the text it prints. -/
def verr (e : ErrState) : CStr → List MesgArg → CStr
  | '%' :: c :: format, args =>
      let r := verrConversion e c args
      r.1 ++ verr e format r.2
  | '%' :: [], _ => []
  | c :: format, args => c :: verr e format args
  | [], _ => []

/-- A call that may end the process with a fatal error. -/
abbrev Proc := Lib.Run Fatal

end Pdsh
