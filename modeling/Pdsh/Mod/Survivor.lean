import Pdsh.Mod.Load
import Pdsh.Lib.Holder
import Mathlib.Tactic

/-!
# Which module is left of those with one type and name

For one type and name, the list has one place, and the modules that are loaded contest it one
after the other (`foldl_register`): one of a higher priority removes the module in the list
and takes its place only if the personality suits. So the best suitable module is left unless
one that is not suitable comes behind it with a higher priority (`module_survives_iff`).
-/

namespace Pdsh.Mod

open Lib Lib.Holder

variable {env : Env} {inits : Inits} {l : List ModuleComponents} {m x : ModuleComponents}
  {type name : CStr} {cur : Option ModuleComponents}

/-! ## One registration -/

/-- The modules of a type and name. -/
def named (type name : CStr) (l : List ModuleComponents) : List ModuleComponents :=
  l.filter (modDescriptionMatch · type name)

/-- What modules are compared by. -/
abbrev prio (m : ModuleComponents) : Int := m.priority.toInt

theorem named_cons : named type name (x :: l) =
    if modDescriptionMatch x type name then x :: named type name l else named type name l := by
  unfold named
  rw [List.filter_cons]

theorem modDescriptionMatch_iff : modDescriptionMatch m type name = true ↔
    m.pmod.type = some type ∧ m.pmod.name = some name := by
  unfold modDescriptionMatch
  exact decide_eq_true_iff

theorem modGetModule_eq (h : named type name l = cur.toList) : modGetModule l type name = cur := by
  unfold modGetModule
  unfold named at h
  rw [← List.head?_filter, h]
  cases cur with
  | none => rfl
  | some m => rfl

/-- Deleting a type and name leaves none of them. -/
theorem named_modDelete : named type name (modDelete l type name) = [] := by
  unfold modDelete named
  rw [List.filter_filter]
  refine List.filter_eq_nil_iff.mpr fun x _ h => ?_
  simp at h

/-- It leaves the others as they are. -/
theorem named_modDelete_of_ne {type' name' : CStr} (hne : ¬ (type' = type ∧ name' = name)) :
    named type name (modDelete l type' name') = named type name l := by
  unfold modDelete named
  rw [List.filter_filter]
  refine List.filter_congr fun x _ => ?_
  cases hx : modDescriptionMatch x type name with
  | false => rfl
  | true =>
      obtain ⟨htype, hname⟩ := modDescriptionMatch_iff.mp hx
      have hother : modDescriptionMatch x type' name' = false := by
        rw [Bool.eq_false_iff]
        intro h
        obtain ⟨htype', hname'⟩ := modDescriptionMatch_iff.mp h
        rw [htype] at htype'
        rw [hname] at hname'
        exact hne ⟨(Option.some.inj htype').symm, (Option.some.inj hname').symm⟩
      rw [hother]
      rfl

/-- A module contests the place of its own type and name and no other. -/
theorem named_modRegister (pers : Pers) (x : ModuleComponents) (h : named type name l = cur.toList) :
    named type name (modRegister pers x l).2 =
      (if modDescriptionMatch x type name then challenge prio (acceptable pers) cur x else cur).toList := by
  unfold modRegister
  split
  · rename_i type' name' htype hname
    by_cases hx : modDescriptionMatch x type name = true
    · -- its own place
      obtain ⟨htype', hname'⟩ := modDescriptionMatch_iff.mp hx
      obtain rfl : type' = type := Option.some.inj (htype.symm.trans htype')
      obtain rfl : name' = name := Option.some.inj (hname.symm.trans hname')
      rw [if_pos hx, modGetModule_eq h]
      cases cur with
      | none =>
          by_cases hfit : acceptable pers x = true
          · simp [challenge, hfit, named_cons, hx, h]
          · simp [challenge, hfit, h]
      | some prev =>
          simp only [challenge, gt_iff_lt, Int32.lt_iff_toInt_lt]
          by_cases hlt : prev.priority.toInt < x.priority.toInt
          · rw [if_pos hlt, if_pos hlt]
            by_cases hfit : acceptable pers x = true
            · simp [hfit, named_cons, hx, named_modDelete]
            · simp [hfit, named_modDelete]
          · rw [if_neg hlt, if_neg hlt]
            exact h
    · rw [if_neg hx]
      have hne : ¬ (type' = type ∧ name' = name) := by
        rintro ⟨rfl, rfl⟩
        exact hx (modDescriptionMatch_iff.mpr ⟨htype, hname⟩)
      have hcons (l : List ModuleComponents) : named type name (x :: l) = named type name l :=
        named_cons.trans (if_neg hx)
      split
      · split
        · simp only
          split
          · rw [hcons, named_modDelete_of_ne hne, h]
          · rw [named_modDelete_of_ne hne, h]
        · exact h
      · split
        · rw [hcons, h]
        · exact h
  · -- no type or no name
    rename_i hnone
    rw [if_neg, h]
    intro hx
    obtain ⟨htype, hname⟩ := modDescriptionMatch_iff.mp hx
    exact hnone _ _ htype hname

/-- All registrations: one place, contested in the order of loading. -/
theorem foldl_register (pers : Pers) (loaded : List ModuleComponents) (h : named type name l = cur.toList) :
    named type name (loaded.foldl (fun l m => (modRegister pers m l).2) l) =
      (holder prio (acceptable pers) cur (named type name loaded)).toList := by
  induction loaded generalizing l cur with
  | nil => exact h
  | cons x loaded ih =>
      rw [List.foldl_cons, ih (named_modRegister pers x h)]
      by_cases hx : modDescriptionMatch x type name = true
      · rw [if_pos hx, named_cons, if_pos hx]
        rfl
      · rw [if_neg hx, named_cons, if_neg hx]

/-- A registration adds the module in front at most, and may drop others. -/
theorem modRegister_sublist (pers : Pers) (x : ModuleComponents) (l : List ModuleComponents) :
    (modRegister pers x l).2.Sublist (x :: l) := by
  have hdelete (type name : CStr) : (modDelete l type name).Sublist l := List.filter_sublist
  unfold modRegister
  split
  · rename_i type name _ _
    split
    · split
      · simp only
        split
        · exact (hdelete type name).cons_cons x
        · exact (hdelete type name).cons x
      · exact List.sublist_cons_self x l
    · split
      · exact .refl _
      · exact List.sublist_cons_self x l
  · exact List.sublist_cons_self x l

theorem modRegister_mem {pers : Pers} (h : m ∈ (modRegister pers x l).2) : m = x ∨ m ∈ l :=
  List.mem_cons.mp ((modRegister_sublist pers x l).subset h)

/-! ## The modules that are loaded -/

/-- The module a file holds, made by call `created` of `mod_create`. -/
def fileModule (created : Nat) (fqPath : CStr) (file : ModuleFile) : Option ModuleComponents :=
  if file.handle then
    file.pmod.map (⟨created, fqPath, file.priority.getD defaultModulePriority, false, ·⟩)
  else none

/-- The entry is a file that pdsh opens. -/
def eligible (env : Env) (e : Dirent) : Bool := e.stat.any fun st => st.isReg && secure env st

/-- The modules of the files of a directory, in the order they are read. -/
def fileModules (env : Env) (dir : CStr) : (created : Nat) → List Dirent → List ModuleComponents
  | _, [] => []
  | created, e :: es =>
      if eligible env e then
        (fileModule created (dir ++ '/' :: e.dName) e.file).toList ++ fileModules env dir (created + 1) es
      else fileModules env dir created es

/-- The modules pdsh was linked with. -/
def staticModules : (created : Nat) → List (PdshModule × Int32) → List ModuleComponents
  | _, [] => []
  | created, m :: mods => ⟨created, "static".toList, m.2, false, m.1⟩ :: staticModules (created + 1) mods

/-- Every module that is loaded, in this order. -/
def loaded (env : Env) : Modules → List ModuleComponents
  | .static mods => staticModules 0 mods
  | .dynamic none => []
  | .dynamic (some dir) => fileModules env dir.dir 0 dir.entries

/-- Registering one module after the other. -/
abbrev registerAll (pers : Pers) (l loaded : List ModuleComponents) : List ModuleComponents :=
  loaded.foldl (fun l m => (modRegister pers m l).2) l

theorem registerAll_sublist (pers : Pers) (l loaded : List ModuleComponents) :
    (registerAll pers l loaded).Sublist (loaded.reverse ++ l) := by
  induction loaded generalizing l with
  | nil => exact .refl l
  | cons x loaded ih =>
      rw [List.reverse_cons, List.append_assoc]
      exact (ih _).trans ((modRegister_sublist pers x l).append_left _)

theorem modLoadStatic_list (env : Env) (mods : List (PdshModule × Int32)) (ld : Loading) :
    (mods.foldl (modLoadStatic env) ld).moduleList =
      registerAll env.pers ld.moduleList (staticModules ld.created mods) := by
  induction mods generalizing ld with
  | nil => rfl
  | cons m mods ih => exact ih (modLoadStatic env ld m)

/-- What one entry of the directory does when no file of this path was loaded. -/
theorem modLoadEntry_spec (env : Env) (dir : CStr) (ld : Loading) (e : Dirent)
    (hnew : ∀ m ∈ ld.moduleList, m.filename ≠ dir ++ '/' :: e.dName) :
    let mods := if eligible env e then
      (fileModule ld.created (dir ++ '/' :: e.dName) e.file).toList else []
    (modLoadEntry env dir ld e).moduleList = registerAll env.pers ld.moduleList mods ∧
      (modLoadEntry env dir ld e).created =
        (if eligible env e then ld.created + 1 else ld.created) ∧
      (modLoadEntry env dir ld e).count = ld.count +
        (mods.filter fun m => (modRegister env.pers m ld.moduleList).1).length := by
  have hfresh : isLoaded ld.moduleList (dir ++ '/' :: e.dName) = false := by
    unfold isLoaded
    rw [List.any_eq_false]
    intro m hm h
    exact hnew m hm (of_decide_eq_true h)
  unfold modLoadEntry eligible
  cases e.stat with
  | none => exact ⟨rfl, rfl, rfl⟩
  | some st =>
      simp only [Option.any_some, Bool.and_eq_true]
      by_cases hok : st.isReg = true ∧ secure env st = true
      · simp only [if_pos hok]
        unfold modLoadDynamic fileModule
        rw [hfresh]
        cases hhandle : e.file.handle with
        | false => exact ⟨rfl, rfl, rfl⟩
        | true =>
            cases e.file.pmod with
            | none => exact ⟨rfl, rfl, rfl⟩
            | some pmod =>
                refine ⟨rfl, rfl, ?_⟩
                simp only [Bool.not_true, Bool.false_eq_true, if_false, if_true, Option.map_some,
                  Option.toList_some, List.filter_cons, List.filter_nil]
                split
                · rfl
                · rfl
      · simp only [if_neg hok]
        exact ⟨rfl, trivial, rfl⟩

/-- The entries of a directory have different paths, so each file is loaded. -/
theorem modLoadEntry_list (env : Env) (dir : CStr) (es : List Dirent) (ld : Loading)
    (hnodup : (es.map (·.dName)).Nodup)
    (hnew : ∀ m ∈ ld.moduleList, ∀ e ∈ es, m.filename ≠ dir ++ '/' :: e.dName) :
    (es.foldl (modLoadEntry env dir) ld).moduleList =
      registerAll env.pers ld.moduleList (fileModules env dir ld.created es) := by
  induction es generalizing ld with
  | nil => rfl
  | cons e es ih =>
      rw [List.map_cons, List.nodup_cons] at hnodup
      obtain ⟨hnot, hnodup⟩ := hnodup
      obtain ⟨hlist, hcreated, -⟩ := modLoadEntry_spec env dir ld e
        fun m hm => hnew m hm e List.mem_cons_self
      rw [List.foldl_cons, ih _ hnodup, hlist, hcreated]
      · rw [fileModules]
        split
        · exact List.foldl_append.symm
        · rfl
      · -- the file of this entry has another path than those behind it
        intro m hm e' he'
        rw [hlist] at hm
        have hne : dir ++ '/' :: e.dName ≠ dir ++ '/' :: e'.dName := by
          intro h
          have hname : e.dName = e'.dName := (List.cons.inj (List.append_cancel_left h)).2
          exact hnot (hname ▸ List.mem_map_of_mem he')
        have hrest : ∀ m ∈ ld.moduleList, m.filename ≠ dir ++ '/' :: e'.dName :=
          fun m hm => hnew m hm e' (List.mem_cons_of_mem _ he')
        split at hm
        · cases hfile : fileModule ld.created (dir ++ '/' :: e.dName) e.file with
          | none =>
              rw [hfile] at hm
              exact hrest m hm
          | some x =>
              rw [hfile] at hm
              rcases modRegister_mem hm with rfl | hm
              · unfold fileModule at hfile
                split at hfile
                · obtain ⟨pmod, -, rfl⟩ := Option.map_eq_some_iff.mp hfile
                  exact hne
                · cases hfile
              · exact hrest m hm
        · exact hrest m hm

/-! ## Calls of `mod_create` are told apart -/

theorem fileModule_self {created : Nat} {path : CStr} {file : ModuleFile}
    (h : m ∈ (fileModule created path file).toList) : m.self = created ∧ m.initialized = false := by
  unfold fileModule at h
  split at h
  · rw [Option.mem_toList] at h
    obtain ⟨pmod, -, rfl⟩ := Option.map_eq_some_iff.mp h
    exact ⟨rfl, rfl⟩
  · cases h

theorem fileModules_self (env : Env) (dir : CStr) (es : List Dirent) (created : Nat) :
    (∀ m ∈ fileModules env dir created es, created ≤ m.self ∧ m.initialized = false) ∧
      (fileModules env dir created es).Pairwise (·.self < ·.self) := by
  induction es generalizing created with
  | nil => exact ⟨fun m hm => absurd hm List.not_mem_nil, .nil⟩
  | cons e es ih =>
      rw [fileModules]
      split
      · obtain ⟨hself, hpair⟩ := ih (created + 1)
        constructor
        · intro m hm
          rcases List.mem_append.mp hm with hm | hm
          · obtain ⟨heq, hinit⟩ := fileModule_self hm
            exact ⟨heq.ge, hinit⟩
          · obtain ⟨hle, hinit⟩ := hself m hm
            exact ⟨by omega, hinit⟩
        · refine List.pairwise_append.mpr ⟨?_, hpair, fun a ha b hb => ?_⟩
          · cases fileModule created (dir ++ '/' :: e.dName) e.file with
            | none => exact .nil
            | some m => exact List.pairwise_singleton _ _
          · have hlt := (hself b hb).1
            rw [(fileModule_self ha).1]
            omega
      · exact ih created

theorem staticModules_self (mods : List (PdshModule × Int32)) (created : Nat) :
    (∀ m ∈ staticModules created mods, created ≤ m.self ∧ m.initialized = false) ∧
      (staticModules created mods).Pairwise (·.self < ·.self) := by
  induction mods generalizing created with
  | nil => exact ⟨fun m hm => absurd hm List.not_mem_nil, .nil⟩
  | cons x mods ih =>
      obtain ⟨hself, hpair⟩ := ih (created + 1)
      refine ⟨List.forall_mem_cons.mpr ⟨⟨le_rfl, rfl⟩, fun m hm => ?_⟩, List.pairwise_cons.mpr ⟨fun m hm => ?_, hpair⟩⟩
      · obtain ⟨hle, hinit⟩ := hself m hm
        exact ⟨by omega, hinit⟩
      · exact (hself m hm).1

theorem loaded_self (env : Env) (mods : Modules) :
    (∀ m ∈ loaded env mods, m.initialized = false) ∧ (loaded env mods).Pairwise (·.self < ·.self) := by
  cases mods with
  | static mods =>
      obtain ⟨hself, hpair⟩ := staticModules_self mods 0
      exact ⟨fun m hm => (hself m hm).2, hpair⟩
  | dynamic dir =>
      cases dir with
      | none => exact ⟨fun m hm => absurd hm List.not_mem_nil, .nil⟩
      | some dir =>
          obtain ⟨hself, hpair⟩ := fileModules_self env dir.dir dir.entries 0
          exact ⟨fun m hm => (hself m hm).2, hpair⟩

/-- What the loader leaves, when it returns, is what registering all modules leaves. -/
theorem modLoad_list {mods : Modules} {rc : Int} (h : modLoad env mods = .ret (rc, l)) :
    l = registerAll env.pers [] (loaded env mods) := by
  cases mods with
  | static mods =>
      cases h
      exact modLoadStatic_list env mods .init
  | dynamic dir =>
      cases dir with
      | none =>
          cases h
          rfl
      | some dir =>
          simp only [modLoad] at h
          split at h
          · cases h
          · cases h
            exact modLoadEntry_list env dir.dir dir.entries .init dir.names fun m hm => absurd hm List.not_mem_nil

/-! ## No modules found -/

theorem count_le (env : Env) (dir : CStr) (ld : Loading) (es : List Dirent) :
    ld.count ≤ (es.foldl (modLoadEntry env dir) ld).count := by
  induction es generalizing ld with
  | nil => exact le_rfl
  | cons e es ih =>
      refine le_trans ?_ (ih _)
      unfold modLoadEntry
      split
      · exact le_rfl
      · split
        · unfold modLoadDynamic
          simp only
          split
          · exact le_rfl
          · split
            · exact le_rfl
            · split
              · exact le_rfl
              · simp only
                split <;> omega
        · exact le_rfl

/-- The first suitable module that is loaded gets in. -/
theorem modRegister_nil {pers : Pers} (h : (modRegister pers m []).1 = false) :
    (modRegister pers m []).2 = [] ∧ (modDescriptionMatch m type name → acceptable pers m = false) := by
  unfold modRegister at h ⊢
  simp only [modGetModule, List.find?_nil] at h ⊢
  split at h
  · split at h
    · cases h
    · rename_i hfit
      rw [if_neg hfit]
      exact ⟨rfl, fun _ => Bool.eq_false_iff.mpr hfit⟩
  · rename_i hnone
    refine ⟨rfl, fun hmatch => ?_⟩
    obtain ⟨htype, hname⟩ := modDescriptionMatch_iff.mp hmatch
    exact absurd hname (hnone _ _ htype)

theorem unsuitable_of_count (env : Env) (dir : CStr) (es : List Dirent) (ld : Loading)
    (hlist : ld.moduleList = []) (hcount : (es.foldl (modLoadEntry env dir) ld).count = ld.count) :
    ∀ m ∈ named type name (fileModules env dir ld.created es), acceptable env.pers m = false := by
  induction es generalizing ld with
  | nil => exact fun m hm => absurd hm List.not_mem_nil
  | cons e es ih =>
      obtain ⟨hlist', hcreated, hcount'⟩ := modLoadEntry_spec env dir ld e
        (by rw [hlist]; exact fun m hm => absurd hm List.not_mem_nil)
      have hle := count_le env dir (modLoadEntry env dir ld e) es
      rw [List.foldl_cons] at hcount
      rw [hlist] at hlist' hcount'
      -- no module of this entry got in
      have hnone : ∀ m ∈ if eligible env e then (fileModule ld.created (dir ++ '/' :: e.dName) e.file).toList
          else [], (modRegister env.pers m []).1 = false := by
        intro m hm
        have hempty := List.length_eq_zero_iff.mp (by omega :
          ((if eligible env e then (fileModule ld.created (dir ++ '/' :: e.dName) e.file).toList else []).filter
            fun m => (modRegister env.pers m []).1).length = 0)
        exact Bool.eq_false_iff.mpr (List.filter_eq_nil_iff.mp hempty m hm)
      have hnext : (modLoadEntry env dir ld e).moduleList = [] := by
        rw [hlist']
        split
        · rename_i heligible
          rw [if_pos heligible] at hnone
          cases hfile : fileModule ld.created (dir ++ '/' :: e.dName) e.file with
          | none => rfl
          | some x =>
              rw [hfile] at hnone
              exact (@modRegister_nil x [] [] env.pers (hnone x (List.mem_singleton.mpr rfl))).1
        · rfl
      have hrest := ih _ hnext (by omega)
      rw [hcreated] at hrest
      rw [fileModules]
      split
      · rename_i heligible
        rw [if_pos heligible] at hnone hrest
        intro m hm
        unfold named at hm
        rw [List.filter_append] at hm
        rcases List.mem_append.mp hm with hm | hm
        · obtain ⟨hm, hmatch⟩ := List.mem_filter.mp hm
          exact (modRegister_nil (hnone m hm)).2 hmatch
        · exact hrest m hm
      · rename_i heligible
        rw [if_neg heligible] at hrest
        exact hrest

/-! ## Sorting and starting -/

theorem listInsert_perm {α : Type} (f : α → α → Int) (x : α) (l : List α) :
    (listInsert f x l).Perm (x :: l) := by
  induction l with
  | nil => exact .refl _
  | cons y l ih =>
      unfold listInsert
      split
      · exact .refl _
      · exact (ih.cons y).trans (.swap x y l)

theorem listPlace_perm {α : Type} (f : α → α → Int) (sorted : List α) (x : α) :
    (listPlace f sorted x).Perm (x :: sorted) := by
  unfold listPlace
  cases hlast : sorted.getLast? with
  | none =>
      obtain rfl : sorted = [] := List.getLast?_eq_none_iff.mp hlast
      exact .refl _
  | some last =>
      simp only
      split
      · exact listInsert_perm f x sorted
      · exact List.perm_append_singleton x sorted

/-- `list_sort` loses no element and adds none. -/
theorem listSort_perm {α : Type} (f : α → α → Int) (l : List α) : (listSort f l).Perm l := by
  have hfold : ∀ (l sorted : List α), (l.foldl (listPlace f) sorted).Perm (sorted ++ l) := by
    intro l
    induction l with
    | nil =>
        intro sorted
        rw [List.append_nil]
        exact .refl _
    | cons x l ih =>
        intro sorted
        have hmiddle : (sorted ++ x :: l).Perm (x :: sorted ++ l) := List.perm_middle
        exact (ih _).trans (((listPlace_perm f sorted x).append_right l).trans hmiddle.symm)
  exact hfold l []

/-- The module as it was when it was loaded. -/
def ModuleComponents.asLoaded (m : ModuleComponents) : ModuleComponents := { m with initialized := false }

theorem setInitialized_asLoaded (l : List ModuleComponents) (self : Nat) :
    (setInitialized l self).map ModuleComponents.asLoaded = l.map ModuleComponents.asLoaded := by
  unfold setInitialized
  rw [List.map_map]
  refine List.map_congr_left fun m _ => ?_
  simp only [Function.comp_apply]
  split
  · rfl
  · rfl

theorem modInitialize_asLoaded (env : Env) (inits : Inits) (mod : ModuleComponents) (st : State) :
    (modInitialize env inits mod st).2.moduleList.map ModuleComponents.asLoaded =
      st.moduleList.map ModuleComponents.asLoaded := by
  unfold modInitialize
  simp only
  split
  · rfl
  · split
    · split
      · rfl
      · exact setInitialized_asLoaded _ _
    · exact setInitialized_asLoaded _ _

theorem modInitializeByName_asLoaded (env : Env) (inits : Inits) (st : State) (name : CStr) :
    (modInitializeByName env inits st name).moduleList.map ModuleComponents.asLoaded =
      st.moduleList.map ModuleComponents.asLoaded := by
  unfold modInitializeByName
  split
  · exact modInitialize_asLoaded _ _ _ _
  · rfl

/-- Starting modules changes nothing but `initialized`. -/
theorem foldl_asLoaded {β : Type} {f : State → β → State}
    (hf : ∀ st b, (f st b).moduleList.map ModuleComponents.asLoaded =
      st.moduleList.map ModuleComponents.asLoaded) (bs : List β) (st : State) :
    (bs.foldl f st).moduleList.map ModuleComponents.asLoaded =
      st.moduleList.map ModuleComponents.asLoaded := by
  induction bs generalizing st with
  | nil => rfl
  | cons b bs ih => rw [List.foldl_cons, ih, hf]

theorem modLoadModules_list {mods : Modules} {misc : Option CStr} {rc : Int} {st : State}
    (h : modLoadModules env inits mods misc = .ret (rc, st)) :
    st.moduleList.map ModuleComponents.asLoaded =
      (listSort cmpF (registerAll env.pers [] (loaded env mods))).map ModuleComponents.asLoaded := by
  obtain ⟨⟨rc', l⟩, hload, h⟩ := Run.bind_eq_ret_iff.mp h
  cases h
  rw [modLoad_list hload, modInitList, foldl_asLoaded fun st mod => modInitialize_asLoaded env inits mod st,
    modInitializeModulesByName, foldl_asLoaded (modInitializeByName_asLoaded env inits)]

/-! ## The survivor -/

theorem named_asLoaded (type name : CStr) (l : List ModuleComponents) :
    named type name (l.map ModuleComponents.asLoaded) =
      (named type name l).map ModuleComponents.asLoaded := by
  unfold named
  rw [List.filter_map]
  rfl

theorem named_loaded (env : Env) (mods : Modules) (type name : CStr) :
    (named type name (loaded env mods)).Nodup ∧
      ∀ m ∈ named type name (loaded env mods), m.asLoaded = m := by
  obtain ⟨hinit, hpair⟩ := loaded_self env mods
  refine ⟨(hpair.imp fun hlt heq => ?_).sublist List.filter_sublist, fun m hm => ?_⟩
  · rw [heq] at hlt
    exact Nat.lt_irrefl _ hlt
  · have hfalse := hinit m (List.mem_filter.mp hm).1
    unfold ModuleComponents.asLoaded
    rw [← hfalse]

/-- The list has one place for a type and name, and the modules that are loaded contest it. -/
theorem named_moduleList {mods : Modules} {misc : Option CStr} {rc : Int} {st : State}
    (h : modLoadModules env inits mods misc = .ret (rc, st)) (type name : CStr) :
    (named type name st.moduleList).map ModuleComponents.asLoaded =
      (holder prio (acceptable env.pers) none (named type name (loaded env mods))).toList := by
  have hregister : named type name (registerAll env.pers [] (loaded env mods)) =
      (holder prio (acceptable env.pers) none (named type name (loaded env mods))).toList :=
    foldl_register env.pers (loaded env mods) rfl
  have hperm : ((named type name (listSort cmpF (registerAll env.pers [] (loaded env mods)))).map
      ModuleComponents.asLoaded).Perm
      ((holder prio (acceptable env.pers) none (named type name (loaded env mods))).toList.map
        ModuleComponents.asLoaded) := by
    rw [← hregister]
    exact ((listSort_perm _ _).filter _).map _
  rw [← named_asLoaded, modLoadModules_list h, named_asLoaded]
  cases hend : holder prio (acceptable env.pers) none (named type name (loaded env mods)) with
  | none =>
      rw [hend] at hperm
      exact hperm.eq_nil
  | some m =>
      rw [hend] at hperm
      rcases holder_mem hend with hno | ⟨hmem, -⟩
      · cases hno
      · rw [hperm.eq_singleton]
        show [m.asLoaded] = [m]
        rw [(named_loaded env mods type name).2 m hmem]

/-- Of the candidates, the modules of one type and name in the order of loading, only the one of
the highest priority among the suitable ones is left, the first one on ties; none if none is
suitable. -/
structure Survives (pers : Pers) (candidates left : List ModuleComponents) : Prop where
  one : (∃ m ∈ candidates, acceptable pers m = true) → ∃ before m after,
    candidates = before ++ m :: after ∧ Best prio (acceptable pers) before m after ∧
      left.map ModuleComponents.asLoaded = [m]
  none : (∀ m ∈ candidates, acceptable pers m = false) → left = []

/-- No module, suitable or not, comes behind the best suitable one with a higher priority. -/
def NotOutranked (pers : Pers) (candidates : List ModuleComponents) : Prop :=
  ∀ before m after, candidates = before ++ m :: after → Best prio (acceptable pers) before m after →
    ∀ x ∈ after, prio x ≤ prio m

/-- Where `mod_load_modules` returns, the right module of a type and name is left if and only if
the best suitable one is not outranked behind it; where it ends pdsh no module is suitable. -/
theorem module_survives_iff (env : Env) (inits : Inits) (mods : Modules) (misc : Option CStr) :
    (∀ rc st, modLoadModules env inits mods misc = .ret (rc, st) → ∀ type name,
      (Survives env.pers (named type name (loaded env mods)) (named type name st.moduleList) ↔
        NotOutranked env.pers (named type name (loaded env mods)))) ∧
    (∀ e, modLoadModules env inits mods misc = .exit e → ∀ type name,
      ∀ m ∈ named type name (loaded env mods), acceptable env.pers m = false) := by
  constructor
  · intro rc st h type name
    have hlist := named_moduleList h type name
    obtain ⟨hnodup, -⟩ := named_loaded env mods type name
    -- whether one best element is left
    have hone (before : List ModuleComponents) (m : ModuleComponents) (after : List ModuleComponents)
        (heq : named type name (loaded env mods) = before ++ m :: after)
        (hbest : Best prio (acceptable env.pers) before m after) :
        (named type name st.moduleList).map ModuleComponents.asLoaded = [m] ↔ ∀ x ∈ after, prio x ≤ prio m := by
      rw [heq] at hlist hnodup
      have hm : m ∉ after := (List.nodup_cons.mp (List.nodup_append.mp hnodup).2.1).1
      rw [hlist, ← holder_iff hbest hm]
      cases holder prio (acceptable env.pers) Option.none (before ++ m :: after) with
      | none => simp
      | some x => simp
    constructor
    · intro hsurvives before m after heq hbest
      obtain ⟨before', m', after', heq', hbest', hleft⟩ :=
        hsurvives.one ⟨m, by rw [heq]; simp, hbest.best⟩
      obtain rfl := hbest.unique hbest' (heq.symm.trans heq')
      exact (hone before m after heq hbest).mp hleft
    · intro hrank
      refine ⟨fun hsome => ?_, fun hnone => ?_⟩
      · obtain ⟨before, m, after, heq, hbest⟩ := @exists_best _ _ _ prio _ _ hsome
        exact ⟨before, m, after, heq, hbest, (hone before m after heq hbest).mpr (hrank _ _ _ heq hbest)⟩
      · rw [holder_none hnone] at hlist
        exact List.map_eq_nil_iff.mp hlist
  · intro e h type name
    unfold modLoadModules at h
    cases mods with
    | static mods => cases h
    | dynamic dir =>
        cases dir with
        | none => cases h
        | some dir =>
            simp only [modLoad] at h
            split at h
            · rename_i hcount
              exact unsuitable_of_count env dir.dir dir.entries .init rfl hcount
            · cases h

/-! ## A module that does not suit removes one that does -/

/-- A misc module without options. -/
def plainModule (name : CStr) (personality : UInt32) : PdshModule :=
  ⟨some "misc".toList, some name, personality, false, none⟩

/-- The second module is for pdcp only; under pdsh it removes the first and is not registered. -/
theorem module_outranked :
    ∃ st, modLoadModules ⟨.dsh, false, 0, 0⟩ (fun _ _ => 0)
        (.static [(plainModule "a".toList 3, 100), (plainModule "a".toList 2, 120)]) none = .ret (0, st) ∧
      ¬ Survives .dsh (named "misc".toList "a".toList (loaded ⟨.dsh, false, 0, 0⟩
          (.static [(plainModule "a".toList 3, 100), (plainModule "a".toList 2, 120)])))
        (named "misc".toList "a".toList st.moduleList) := by
  refine ⟨_, rfl, fun h => ?_⟩
  obtain ⟨_, _, _, -, -, hleft⟩ :=
    h.one ⟨⟨0, "static".toList, 100, false, plainModule "a".toList 3⟩, by decide, by decide⟩
  cases hleft

/-- In the other order the first is not registered and the second is. -/
theorem module_survives_iff_order :
    ∃ st, modLoadModules ⟨.dsh, false, 0, 0⟩ (fun _ _ => 0)
        (.static [(plainModule "a".toList 2, 120), (plainModule "a".toList 3, 100)]) none = .ret (0, st) ∧
      Survives .dsh (named "misc".toList "a".toList (loaded ⟨.dsh, false, 0, 0⟩
          (.static [(plainModule "a".toList 2, 120), (plainModule "a".toList 3, 100)])))
        (named "misc".toList "a".toList st.moduleList) := by
  refine ⟨_, rfl, ((module_survives_iff ⟨.dsh, false, 0, 0⟩ (fun _ _ => 0)
    (.static [(plainModule "a".toList 2, 120), (plainModule "a".toList 3, 100)]) none).1 0 _ rfl
    "misc".toList "a".toList).mpr ?_⟩
  intro before m after heq hbest x hx
  -- only the second module is suitable, and nothing is behind it
  match before, heq with
  | [], heq =>
      cases heq
      exact absurd hbest.best (by decide)
  | [_], heq =>
      cases heq
      cases hx
  | _ :: _ :: before, heq =>
      have hlength := congrArg List.length heq
      simp only [List.length_cons, List.length_append] at hlength
      have htwo : (named "misc".toList "a".toList (loaded ⟨.dsh, false, 0, 0⟩
        (.static [(plainModule "a".toList 2, 120), (plainModule "a".toList 3, 100)]))).length = 2 := rfl
      omega

end Pdsh.Mod
