import Pdsh.Hostlist.Iterator
import Pdsh.Hostlist.Parse
import Pdsh.Hostlist.Print

/-!
# Target and exclusion arguments

What `opt_args` makes of the `-w` and `-x` options. Each is cut into pieces at
commas outside brackets; a piece is a file of hosts (`^`), a regular expression
(`/`) or a host list expression, to be added or, behind a `-`, excluded.
Exclusions are only collected. When all options are read they are applied to
`wcoll`, then the regular expressions, and last every name that is left is read
once more, for its second bracket.

`Env` is what lies outside: the modules, files, regular expressions and the
`slack` of `hostlist_create`. `exclude_list` and `regex_list` are lists whether
they have been allocated or not, and `list_push` puts a new element in front.
-/

namespace Pdsh

open Lib Lib.Memory

/-! ## State and surroundings -/

/-- `struct regex_info`, without the compiled expression. -/
structure RegexInfo where
  exclude : Bool
  pattern : CStr
deriving DecidableEq, Repr

/-- `struct node_rcmd_info`, with the name of its module. -/
structure NodeRcmdInfo where
  hostname : CStr
  username : Option CStr
  rmod : Option CStr
deriving DecidableEq, Repr

/-- The part of `opt_t` and of the static variables the target options change. -/
structure Opt where
  wcoll : Option Hostlist
  excludeList : List CStr
  regexList : List RegexInfo
  hostInfoList : List NodeRcmdInfo
deriving DecidableEq, Repr

/-- Nothing read yet. -/
def optDefault : Opt := ⟨none, [], [], []⟩

/-- What the options are read in. -/
structure Env where
  /-- what `cur_tok` of `hostlist_create` holds from its last byte on -/
  slack : CStr
  /-- `read_wcoll` on a file name -/
  readWcoll : CStr → Proc (Option Hostlist)
  /-- `regcomp` accepts the pattern -/
  regcomp : CStr → Bool
  /-- `regexec` of a pattern on a host -/
  regexec : CStr → CStr → Int
  /-- `rcmd_module_register` finds the module and its functions -/
  rcmdModule : CStr → Bool
  /-- what the `read_wcoll` functions of the modules return, when not NULL -/
  moduleWcolls : List Hostlist
  /-- the variable `WCOLL` -/
  wcollVar : Option CStr

/-- The separator of the target options. -/
def wcollSep (c : Char) : Bool := c = ','

/-- `list_split (",", str)`. -/
def listSplit (str : CStr) : List CStr := tokens wcollSep str

/-! ## rcmd types and users -/

/-- `hosts` cut up by `get_host_rcmd_type`. -/
structure HostSpec where
  rcmdType : Option CStr
  user : Option CStr
  hosts : CStr
deriving DecidableEq, Repr

/-- `get_host_rcmd_type`, which ends the process when an `@` stands in front of the
first `:`. -/
def getHostRcmdType (hosts : CStr) : Proc HostSpec :=
  match strchr ':' hosts, strchr '@' hosts with
  | some (beforeP, afterP), some (beforeQ, _) =>
      if beforeP.length > beforeQ.length then .exit (.badHostSpec hosts)
      else if afterP.head? ≠ some ':' then
        -- the `@` is behind the `:`, so it is found again in the rest
        let user := strchr '@' afterP
        .ret ⟨some beforeP, user.map (·.1), (user.map (·.2)).getD afterP⟩
      else
        let user := strchr '@' hosts
        .ret ⟨none, user.map (·.1), (user.map (·.2)).getD hosts⟩
  | some (beforeP, afterP), none =>
      if afterP.head? ≠ some ':' then .ret ⟨some beforeP, none, afterP⟩ else .ret ⟨none, none, hosts⟩
  | none, some (beforeQ, afterQ) => .ret ⟨none, some beforeQ, afterQ⟩
  | none, none => .ret ⟨none, none, hosts⟩

/-- The loop of `hostlist_register_rcmd`; `nhosts` rounds pop every host. -/
def registerRcmdLoop (rmod user : Option CStr) :
    Nat → Hostlist → List NodeRcmdInfo → List NodeRcmdInfo
  | 0, _, info => info
  | fuel + 1, hl, info =>
      match hostlistPop hl with
      | (none, _) => info
      | (some host, hl) =>
          let info := if info.any (·.hostname = host) then info else info ++ [⟨host, user, rmod⟩]
          registerRcmdLoop rmod user fuel hl info

/-- `hostlist_register_rcmd`; `none` is a result of -1. -/
def hostlistRegisterRcmd (env : Env) (hosts : CStr) (rmod user : Option CStr)
    (info : List NodeRcmdInfo) : Proc (Option (List NodeRcmdInfo)) := do
  let hl ← hostlistCreate env.slack hosts
  pure (hl.map fun hl => registerRcmdLoop rmod user hl.nhosts.toInt.toNat hl info)

/-- `rcmd_register_defaults` with hosts; `none` is a result of -1. -/
def rcmdRegisterDefaults (env : Env) (hosts : CStr) (rcmdName user : Option CStr)
    (info : List NodeRcmdInfo) : Proc (Option (List NodeRcmdInfo)) :=
  if rcmdName.any (!env.rcmdModule ·) then .ret none
  else hostlistRegisterRcmd env hosts rcmdName user info

/-! ## Pieces -/

/-- `list_push_hostlist`: the string put on the list. The loop that should enlarge
the buffer multiplies `n` by the value of a comparison, 1, and so never ends once
the first 4096 bytes are too few. -/
def listPushHostlist (l : List CStr) (hl : Hostlist) : Proc (List CStr) :=
  let printed := hostlistRangedString hl 4095 fun _ => NUL
  if printed.2 < 0 then .hang else .ret (text printed.1 0 printed.2.toNat :: l)

/-- `hostlist_assign`. -/
def hostlistAssign (wcoll : Option Hostlist) (hl : Hostlist) : Hostlist :=
  (hostlistPushList (wcoll.getD hostlistNew) hl).1

/-- A piece behind its `^`. -/
def wcollFileProcess (env : Env) (excluded : Bool) (file : CStr) (opt : Opt) : Proc Opt := do
  let hl ← env.readWcoll file
  match hl with
  | none => .exit (.readWcoll file)
  | some hl =>
      if excluded then do
        let l ← listPushHostlist opt.excludeList hl
        pure { opt with excludeList := l }
      else pure { opt with wcoll := some (hostlistAssign opt.wcoll hl) }

/-- A piece behind its `/`. -/
def wcollRegexProcess (env : Env) (excluded : Bool) (p : CStr) (opt : Opt) : Proc Opt :=
  let p := if p.getLast? = some '/' then p.dropLast else p
  if env.regcomp p then .ret { opt with regexList := ⟨excluded, p⟩ :: opt.regexList }
  else .exit .regexError

/-- A host list expression to be added. -/
def wcollHostsProcess (env : Env) (p : CStr) (opt : Opt) : Proc Opt := do
  let wcoll := opt.wcoll.getD hostlistNew
  let spec ← getHostRcmdType p
  let pushed ← hostlistPush env.slack wcoll spec.hosts
  if spec.rcmdType.isSome ∨ spec.user.isSome then do
    let info ← rcmdRegisterDefaults env spec.hosts spec.rcmdType spec.user opt.hostInfoList
    match info with
    | none => .exit (.registerRcmd spec.rcmdType spec.hosts)
    | some info => pure { opt with wcoll := some pushed.2, hostInfoList := info }
  else pure { opt with wcoll := some pushed.2 }

/-- `wcoll_arg_process`. -/
def wcollArgProcess (env : Env) (arg : CStr) (opt : Opt) : Proc Opt :=
  let excluded := arg.head? = some '-'
  let p := (if excluded then arg.tail else arg).dropWhile isspace
  match p with
  | '^' :: file => wcollFileProcess env excluded file opt
  | '/' :: pattern => wcollRegexProcess env excluded pattern opt
  | p =>
      if excluded then .ret { opt with excludeList := p :: opt.excludeList }
      else wcollHostsProcess env p opt

/-- `list_for_each (l, wcoll_arg_process, opt)`. -/
def wcollPiecesProcess (env : Env) : List CStr → Opt → Proc Opt
  | [], opt => .ret opt
  | arg :: rest, opt => do
      let opt ← wcollArgProcess env arg opt
      wcollPiecesProcess env rest opt

/-- `wcoll_args_process`. -/
def wcollArgsProcess (env : Env) (args : CStr) (opt : Opt) : Proc Opt :=
  wcollPiecesProcess env (listSplit args) opt

/-- `wcoll_append_excluded`. -/
def wcollAppendExcluded (env : Env) (excludeArgs : CStr) (opt : Opt) : Proc Opt :=
  (listSplit excludeArgs).foldlM (fun opt s => wcollArgsProcess env ('-' :: s) opt) opt

/-! ## Filters -/

/-- The loop of `wcoll_apply_excluded`. -/
def applyExcludedLoop (slack : CStr) : List CStr → Hostlist → Proc Hostlist
  | [], hl => .ret hl
  | arg :: rest, hl => do
      let deleted ← hostlistDelete slack hl arg
      applyExcludedLoop slack rest deleted.2

/-- The loop of `hostlist_filter_regex`. -/
def filterRegexLoop (env : Env) (re : RegexInfo) : Nat → Hostlist → Iterator → Proc Hostlist
  | 0, _, _ => .hang
  | fuel + 1, hl, i =>
      match hostlistNext hl i with
      | (none, _) => .ret hl
      | (some host, i) =>
          let rc := env.regexec re.pattern host
          -- 1 is `REG_NOMATCH`
          if (re.exclude ∧ rc = 0) ∨ (!re.exclude ∧ rc = 1) then
            let removed := hostlistRemove hl i
            filterRegexLoop env re fuel removed.1 removed.2
          else filterRegexLoop env re fuel hl i

/-- `hostlist_filter_regex`. Between two removals the iterator passes every host at
most once, so the rounds are bounded by the square of the hosts. -/
def hostlistFilterRegex (env : Env) (hl : Hostlist) (re : RegexInfo) : Proc Hostlist :=
  let hosts := (hl.hr.map fun hr => (hostrangeCount hr).toNat).sum
  filterRegexLoop env re ((hosts + 2) * (hosts + 2)) hl hostlistIteratorCreate

/-- `wcoll_expand` from the list `hl`, with the new `wcoll`; `nhosts` rounds shift off
every host. -/
def wcollExpandLoop (slack : CStr) : Nat → Hostlist → Hostlist → Proc Hostlist
  | 0, _, wcoll => .ret wcoll
  | fuel + 1, hl, wcoll =>
      match hostlistShift hl with
      | (none, _) => .ret wcoll
      | (some hosts, hl) => do
          let pushed ← hostlistPush slack wcoll hosts
          wcollExpandLoop slack fuel hl pushed.2

/-- `wcoll_expand`. -/
def wcollExpand (slack : CStr) (hl : Hostlist) : Proc Hostlist :=
  wcollExpandLoop slack hl.nhosts.toInt.toNat hl hostlistNew

/-- The filters `opt_args` applies to a `wcoll`. -/
def filterWcoll (env : Env) (opt : Opt) (hl : Hostlist) : Proc Hostlist := do
  let hl ← applyExcludedLoop env.slack opt.excludeList hl
  let hl ← opt.regexList.foldlM (hostlistFilterRegex env) hl
  wcollExpand env.slack hl

/-! ## `opt_args` -/

/-- The options that give targets. -/
inductive TargetArg where
  /-- `-w` -/
  | w (optarg : CStr)
  /-- `-x` -/
  | x (optarg : CStr)
deriving DecidableEq, Repr

/-- One round of the option loop. -/
def optArg (env : Env) (opt : Opt) : TargetArg → Proc Opt
  | .w optarg => wcollArgsProcess env (if optarg = ['-'] then ['^', '-'] else optarg) opt
  | .x optarg => wcollAppendExcluded env optarg opt

/-- `mod_read_wcoll`. -/
def modReadWcoll (env : Env) (wcoll : Option Hostlist) : Option Hostlist :=
  env.moduleWcolls.foldl (fun wcoll hl => some (match wcoll with
    | none => hl
    | some wcoll => (hostlistPushList wcoll hl).1)) wcoll

/-- The hosts of the modules and of the file `WCOLL` names. -/
def readOtherWcoll (env : Env) (wcoll : Option Hostlist) : Proc (Option Hostlist) :=
  match modReadWcoll env wcoll, env.wcollVar with
  | none, some val => env.readWcoll val
  | wcoll, _ => .ret wcoll

/-- `opt_args`: the target options one after the other, and what follows the loop. -/
def optArgs (env : Env) (args : List TargetArg) : Proc Opt := do
  let opt ← args.foldlM (optArg env) optDefault
  let wcoll ← readOtherWcoll env opt.wcoll
  match wcoll with
  | none => pure { opt with wcoll := none }
  | some hl => do
      let hl ← filterWcoll env opt hl
      pure { opt with wcoll := some hl }

end Pdsh
