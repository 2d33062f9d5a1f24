import Pdsh.Libc
import Mathlib.Data.List.Basic

/-!
# The list of modules

`_mod_register` and what fills the list: the static modules, or the files of the module
directory. A module is known by the call of `mod_create` that made it. Each file is a library
of its own.
-/

namespace Pdsh.Mod

/-- `pers_t`. -/
inductive Pers where
  | dsh
  | pcp
deriving DecidableEq, Repr

/-- `DSH` and `PCP`, as bits of a mask. -/
def Pers.bit : Pers → UInt32
  | .dsh => 1
  | .pcp => 2

/-- `struct pdsh_module_option`; the option 0 ends a table. -/
structure PdshModuleOption where
  opt : Char
  arginfo : Option CStr
  personality : UInt32
  opt_ne : opt ≠ '\x00'
deriving DecidableEq, Repr

/-- `struct pdsh_module`, as far as it is read when modules are loaded. -/
structure PdshModule where
  type : Option CStr
  name : Option CStr
  personality : UInt32
  /-- `mod_ops` has an `init` -/
  init : Bool
  optTable : Option (List PdshModuleOption)
deriving DecidableEq, Repr

/-- `struct module_components`; `self` tells which `mod_create` it comes from. -/
structure ModuleComponents where
  self : Nat
  filename : CStr
  priority : Int32
  initialized : Bool
  pmod : PdshModule
deriving DecidableEq, Repr

/-- The module is of this type and has this name. -/
def modDescriptionMatch (m : ModuleComponents) (type name : CStr) : Bool :=
  m.pmod.type = some type ∧ m.pmod.name = some name

/-- `mod_get_module`. -/
def modGetModule (l : List ModuleComponents) (type name : CStr) : Option ModuleComponents :=
  l.find? (modDescriptionMatch · type name)

/-- `_mod_delete`. -/
def modDelete (l : List ModuleComponents) (type name : CStr) : List ModuleComponents :=
  l.filter (!modDescriptionMatch · type name)

/-- `mod->pmod->personality & pdsh_personality ()`. -/
def acceptable (pers : Pers) (mod : ModuleComponents) : Bool := mod.pmod.personality &&& pers.bit ≠ 0

/-- `_mod_register`: whether the module is in, and the list. -/
def modRegister (pers : Pers) (mod : ModuleComponents) (l : List ModuleComponents) :
    Bool × List ModuleComponents :=
  match mod.pmod.type, mod.pmod.name with
  | some type, some name =>
      match modGetModule l type name with
      | some prev =>
          if mod.priority > prev.priority then
            -- the previous module goes before the personality is looked at
            let l := modDelete l type name
            if acceptable pers mod then (true, mod :: l) else (false, l)
          else (false, l)
      | none => if acceptable pers mod then (true, mod :: l) else (false, l)
  | _, _ => (false, l)

/-! ## Where modules come from -/

/-- What the loader finds in a module file. -/
structure ModuleFile where
  /-- `dlopen` succeeds -/
  handle : Bool
  /-- the symbol `pdsh_module_info` -/
  pmod : Option PdshModule
  /-- the symbol `pdsh_module_priority` -/
  priority : Option Int32
deriving DecidableEq, Repr

/-- The part of `struct stat` that is looked at. -/
structure Stat where
  isReg : Bool
  uid : Nat
  iwoth : Bool
deriving DecidableEq, Repr

/-- An entry of the module directory; `stat` may fail. -/
structure Dirent where
  dName : CStr
  stat : Option Stat
  file : ModuleFile
deriving DecidableEq, Repr

/-- The entries of a directory in the order `readdir` returns them; no name is there twice. -/
structure Directory where
  dir : CStr
  entries : List Dirent
  names : (entries.map (·.dName)).Nodup

/-- The modules a build of pdsh finds: those it was linked with, or those of a directory, if
that can be read. -/
inductive Modules where
  | static (mods : List (PdshModule × Int32))
  | dynamic (dir : Option Directory)

/-- Who runs pdsh, and as what. -/
structure Env where
  pers : Pers
  /-- pdsh was built with `HAVE_MAGIC_RSHELL_CLEANUP` -/
  magicRshellCleanup : Bool
  uid : Nat
  pdshOwner : Nat

/-- `DEFAULT_MODULE_PRIORITY`. -/
def defaultModulePriority : Int32 := 100

/-- The list while modules are loaded: `count` files were loaded, `created` modules made. -/
structure Loading where
  moduleList : List ModuleComponents
  created : Nat
  count : Nat
deriving DecidableEq, Repr

/-- `_mod_load_static`. -/
def modLoadStatic (env : Env) (ld : Loading) (mod : PdshModule × Int32) : Loading :=
  let (ok, l) := modRegister env.pers ⟨ld.created, "static".toList, mod.2, false, mod.1⟩ ld.moduleList
  ⟨l, ld.created + 1, if ok then ld.count + 1 else ld.count⟩

/-- `_is_loaded`. -/
def isLoaded (l : List ModuleComponents) (filename : CStr) : Bool := l.any (·.filename = filename)

/-- `_mod_load_dynamic`. -/
def modLoadDynamic (env : Env) (fqPath : CStr) (file : ModuleFile) (ld : Loading) : Loading :=
  let fail : Loading := { ld with created := ld.created + 1 }
  if !file.handle then fail
  else if isLoaded ld.moduleList fqPath then fail
  else
    match file.pmod with
    | none => fail
    | some pmod =>
        let mod : ModuleComponents :=
          ⟨ld.created, fqPath, file.priority.getD defaultModulePriority, false, pmod⟩
        let (ok, l) := modRegister env.pers mod ld.moduleList
        ⟨l, ld.created + 1, if ok then ld.count + 1 else ld.count⟩

/-- The file could not have been altered by just anyone. -/
def secure (env : Env) (st : Stat) : Bool :=
  (st.uid = 0 ∨ st.uid = env.uid ∨ st.uid = env.pdshOwner) ∧ st.iwoth = false

/-- One round of the loop of `_mod_load_dynamic_modules`. -/
def modLoadEntry (env : Env) (dir : CStr) (ld : Loading) (entry : Dirent) : Loading :=
  match entry.stat with
  | none => ld
  | some st =>
      if st.isReg ∧ secure env st then modLoadDynamic env (dir ++ '/' :: entry.dName) entry.file ld
      else ld

/-- Nothing loaded yet. -/
def Loading.init : Loading := ⟨[], 0, 0⟩

end Pdsh.Mod
