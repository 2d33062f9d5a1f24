import Pdsh.Mod.Register
import Pdsh.Hostlist.Token
import Pdsh.Lib.Run
import Pdsh.Opt.Wcoll

/-!
# Modules are started

`opt_register`, `_mod_initialize` and `mod_load_modules`, and how an option finds its module.
What the modules were asked to do is kept as a list of events, oldest first.
-/

namespace Pdsh.Mod

open Lib

/-! ## The options -/

/-- `GEN_ARGS`, `DSH_ARGS` and `PCP_ARGS`. -/
def genArgs : CStr := "hLNKR:M:t:cqf:w:x:l:u:bI:dVT:Q".toList

def dshArgs (env : Env) : CStr := if env.magicRshellCleanup then "sSk".toList else "Sk".toList

def pcpArgs : CStr := "pryzZe:".toList

/-- `_init_pdsh_options`. -/
def initPdshOptions (env : Env) : CStr :=
  genArgs ++ match env.pers with
    | .dsh => dshArgs env
    | .pcp => pcpArgs

/-- `personality & p->personality`. -/
def PdshModuleOption.suits (p : PdshModuleOption) (pers : Pers) : Bool := pers.bit &&& p.personality ≠ 0

/-- `opt_register`: whether all options of the table are registered, and `pdsh_options`. -/
def optRegister (env : Env) (optTable : Option (List PdshModuleOption)) (pdshOptions : Option CStr) :
    Bool × Option CStr :=
  match optTable with
  | none => (true, pdshOptions)
  | some table =>
      let options := pdshOptions.getD (initPdshOptions env)
      if table.any fun p => p.suits env.pers && (strchr p.opt options).isSome then (false, some options)
      else
        (true, some (table.foldl (fun options p =>
          if p.suits env.pers then options ++ p.opt :: (if p.arginfo.isSome then [':'] else [])
          else options) options))

/-! ## Starting modules -/

/-- What happened to the module made by a call of `mod_create`. -/
inductive Event where
  /-- `opt_register` took its options. -/
  | registered (self : Nat)
  /-- Its `init` was called and returned `rc`. -/
  | init (self : Nat) (rc : Int32)
deriving DecidableEq, Repr

/-- What the `init` of a module returns, behind these events. -/
abbrev Inits := Nat → List Event → Int32

/-- The state of the loader. -/
structure State where
  moduleList : List ModuleComponents
  pdshOptions : Option CStr
  events : List Event
deriving DecidableEq, Repr

/-- `mod->initialized = 1`. -/
def setInitialized (l : List ModuleComponents) (self : Nat) : List ModuleComponents :=
  l.map fun m => if m.self = self then { m with initialized := true } else m

/-- `_mod_initialize`. -/
def modInitialize (env : Env) (inits : Inits) (mod : ModuleComponents) (st : State) : Bool × State :=
  let (ok, options) := optRegister env mod.pmod.optTable st.pdshOptions
  let st := { st with pdshOptions := options }
  if !ok then (false, st)
  else
    let st := { st with events := st.events ++ [Event.registered mod.self] }
    if mod.pmod.init then
      let rc := inits mod.self st.events
      let st := { st with events := st.events ++ [Event.init mod.self rc] }
      if rc < 0 then (false, st)
      else (true, { st with moduleList := setInitialized st.moduleList mod.self })
    else (true, { st with moduleList := setInitialized st.moduleList mod.self })

/-- `_mod_find_misc`. -/
def modFindMisc (mod : ModuleComponents) (name : CStr) : Bool :=
  mod.pmod.type = some "misc".toList ∧ mod.pmod.name = some name

/-- `_mod_initialize_by_name`. -/
def modInitializeByName (env : Env) (inits : Inits) (st : State) (name : CStr) : State :=
  match st.moduleList.find? (modFindMisc · name) with
  | some mod => (modInitialize env inits mod st).2
  | none => st

/-- The names in a list of misc modules; no list at all is NULL. -/
def miscNames (names : Option CStr) : List CStr :=
  match names with
  | none => []
  | some names => if names = [] then [] else listSplit names

/-- `_mod_initialize_modules_by_name`. -/
def modInitializeModulesByName (env : Env) (inits : Inits) (names : Option CStr) (st : State) : State :=
  (miscNames names).foldl (modInitializeByName env inits) st

/-- `_mod_init_list_safe` on every module. -/
def modInitList (env : Env) (inits : Inits) (st : State) : State :=
  st.moduleList.foldl (fun st mod => (modInitialize env inits mod st).2) st

/-! ## `mod_load_modules` -/

/-- `_cmp_f`. -/
def cmpF (x y : ModuleComponents) : Int :=
  if x.priority = y.priority then strcmp (x.pmod.name.getD []) (y.pmod.name.getD [])
  else (y.priority - x.priority).toInt

/-- In front of the first element that `x` is below. -/
def listInsert {α : Type} (f : α → α → Int) (x : α) : List α → List α
  | [] => [x]
  | y :: l => if f x y < 0 then x :: y :: l else y :: listInsert f x l

/-- One element of `list_sort`: it stays behind the sorted ones, unless it is below the last of
them. -/
def listPlace {α : Type} (f : α → α → Int) (sorted : List α) (x : α) : List α :=
  match sorted.getLast? with
  | some last => if f x last < 0 then listInsert f x sorted else sorted ++ [x]
  | none => [x]

/-- `list_sort`. -/
def listSort {α : Type} (f : α → α → Int) (l : List α) : List α := l.foldl (listPlace f) []

/-- The errors that end pdsh while it loads modules. -/
inductive Error where
  | noModulesFound
deriving DecidableEq, Repr

/-- `_mod_load_static_modules` or `_mod_load_dynamic_modules`: the result and the list. -/
def modLoad (env : Env) : Modules → Run Error (Int × List ModuleComponents)
  | .static mods => .ret (0, (mods.foldl (modLoadStatic env) .init).moduleList)
  | .dynamic none => .ret (-1, [])
  | .dynamic (some dir) =>
      let ld := dir.entries.foldl (modLoadEntry env dir.dir) .init
      if ld.count = 0 then .exit .noModulesFound else .ret (0, ld.moduleList)

/-- `mod_load_modules`, behind `opt_default`. -/
def modLoadModules (env : Env) (inits : Inits) (mods : Modules) (miscModules : Option CStr) :
    Run Error (Int × State) := do
  let (rc, l) ← modLoad env mods
  let st : State := ⟨listSort cmpF l, some (initPdshOptions env), []⟩
  let st := modInitializeModulesByName env inits miscModules st
  pure (rc, modInitList env inits st)

/-! ## Dispatch -/

/-- `_mod_find_opt`. -/
def modFindOpt (mod : ModuleComponents) (opt : Char) : Option PdshModuleOption :=
  (mod.pmod.optTable.getD []).find? (·.opt = opt)

/-- `mod_process_opt`: the module and the entry of its table whose function is called. -/
def modProcessOpt (st : State) (c : Char) : Option (ModuleComponents × PdshModuleOption) :=
  (st.moduleList.filter (·.initialized)).findSome? fun mod => (modFindOpt mod c).map (mod, ·)

/-- The options that `opt_args` handles by itself. -/
def ownOption (env : Env) (c : Char) : Bool :=
  c ∈ "MNLRSfwxqtublVTQhKk".toList ∨ (env.magicRshellCleanup ∧ c = 's') ∨
    (env.pers = .pcp ∧ c ∈ "rpeyzZ".toList)

/-- What `opt_args` does with an option of a module. -/
def optArgsModule (env : Env) (st : State) (c : Char) : Option (ModuleComponents × PdshModuleOption) :=
  if ownOption env c then none else modProcessOpt st c

end Pdsh.Mod
