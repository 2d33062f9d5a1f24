import Pdsh.Mod.Survivor

/-!
# Starting each module once

An attempt to start a module first registers its options, which only succeeds while none of
its letters is taken, and then calls its `init`. Nothing else keeps a module from being started
again, and nothing takes its letters back.
-/

namespace Pdsh.Mod

open Lib

variable {env : Env} {inits : Inits} {m x y : ModuleComponents} {st : State} {c : Char}

/-! ## Registering options -/

/-- The options of a module for the personality, by their letters. -/
def letters (pers : Pers) (m : ModuleComponents) : List Char :=
  ((m.pmod.optTable.getD []).filter (·.suits pers)).map (·.opt)

/-- What is appended to `pdsh_options` for them. -/
def added (pers : Pers) (m : ModuleComponents) : CStr :=
  ((m.pmod.optTable.getD []).filter (·.suits pers)).flatMap fun p =>
    p.opt :: if p.arginfo.isSome then [':'] else []

/-- The options in use. -/
def registry (env : Env) (st : State) : CStr := st.pdshOptions.getD (initPdshOptions env)

/-- No letter of the module is in use. -/
def Free (env : Env) (m : ModuleComponents) (st : State) : Prop :=
  ∀ c ∈ letters env.pers m, c ∉ registry env st

instance : Decidable (Free env m st) := inferInstanceAs (Decidable (∀ c ∈ letters env.pers m, _))

theorem mem_added {pers : Pers} (h : c ∈ letters pers m) : c ∈ added pers m := by
  obtain ⟨p, hp, rfl⟩ := List.mem_map.mp h
  exact List.mem_flatMap.mpr ⟨p, hp, List.mem_cons_self⟩

theorem added_eq_nil_iff {pers : Pers} : added pers m = [] ↔ letters pers m = [] := by
  unfold added letters
  cases (m.pmod.optTable.getD []).filter (·.suits pers) with
  | nil => exact ⟨fun _ => rfl, fun _ => rfl⟩
  | cons p l => exact ⟨fun h => (nomatch h), fun h => (nomatch h)⟩

/-- `opt_register` succeeds when all letters are free, and appends them. -/
theorem optRegister_free (h : Free env m st) :
    ∃ o, optRegister env m.pmod.optTable st.pdshOptions = (true, o) ∧
      o.getD (initPdshOptions env) = registry env st ++ added env.pers m := by
  unfold Free letters registry at h
  unfold optRegister added registry
  cases htable : m.pmod.optTable with
  | none => exact ⟨st.pdshOptions, rfl, (List.append_nil _).symm⟩
  | some table =>
      rw [htable] at h
      have hfree : table.any (fun p => p.suits env.pers &&
          (strchr p.opt (st.pdshOptions.getD (initPdshOptions env))).isSome) = false := by
        rw [List.any_eq_false]
        intro p hp htaken
        obtain ⟨hsuits, hmem⟩ := (Bool.and_eq_true _ _).mp htaken
        have hnot := h p.opt (List.mem_map_of_mem (List.mem_filter.mpr ⟨hp, hsuits⟩))
        rw [strchr_eq_none_iff.mpr hnot] at hmem
        cases hmem
      have happend : ∀ (table : List PdshModuleOption) (options : CStr), table.foldl (fun options p =>
          if p.suits env.pers then options ++ p.opt :: (if p.arginfo.isSome then [':'] else [])
          else options) options = options ++ (table.filter (·.suits env.pers)).flatMap fun p =>
            p.opt :: if p.arginfo.isSome then [':'] else [] := by
        intro table
        induction table with
        | nil => exact fun options => (List.append_nil options).symm
        | cons p table ih =>
            intro options
            rw [List.foldl_cons, ih, List.filter_cons]
            split
            · rw [List.flatMap_cons, List.append_assoc]
            · rfl
      simp only [hfree, Bool.false_eq_true, if_false]
      exact ⟨_, rfl, happend table _⟩

/-- One letter in use is enough for it to fail, and it appends none then. -/
theorem optRegister_conflict (h : ¬ Free env m st) :
    ∃ o, optRegister env m.pmod.optTable st.pdshOptions = (false, o) ∧
      o.getD (initPdshOptions env) = registry env st := by
  unfold Free letters registry at h
  unfold optRegister registry
  push Not at h
  obtain ⟨c, hc, hmem⟩ := h
  obtain ⟨p, hp, rfl⟩ := List.mem_map.mp hc
  obtain ⟨hp, hsuits⟩ := List.mem_filter.mp hp
  cases htable : m.pmod.optTable with
  | none =>
      rw [htable] at hp
      cases hp
  | some table =>
      rw [htable] at hp
      have htaken : table.any (fun p => p.suits env.pers &&
          (strchr p.opt (st.pdshOptions.getD (initPdshOptions env))).isSome) = true := by
        refine List.any_eq_true.mpr ⟨p, hp, (Bool.and_eq_true _ _).mpr ⟨hsuits, ?_⟩⟩
        rw [Option.isSome_iff_ne_none, Ne, strchr_eq_none_iff]
        exact not_not.mpr hmem
      simp only [htaken, if_true]
      exact ⟨_, rfl, rfl⟩

/-! ## One attempt -/

/-- What `init` returns in an attempt whose options are registered; none if there is no `init`. -/
def outcome (inits : Inits) (m : ModuleComponents) (events : List Event) : Option Int32 :=
  if m.pmod.init then some (inits m.self (events ++ [.registered m.self])) else none

/-- It is an error. -/
def failed (inits : Inits) (m : ModuleComponents) (events : List Event) : Bool :=
  (outcome inits m events).any (· < 0)

/-- The next state of `_mod_initialize`. -/
abbrev attempt (env : Env) (inits : Inits) (st : State) (m : ModuleComponents) : State :=
  (modInitialize env inits m st).2

theorem attempt_conflict (h : ¬ Free env m st) :
    (modInitialize env inits m st).1 = false ∧
      registry env (attempt env inits st m) = registry env st ∧
      (attempt env inits st m).events = st.events ∧
      (attempt env inits st m).moduleList = st.moduleList := by
  obtain ⟨o, hregister, ho⟩ := optRegister_conflict h
  unfold attempt modInitialize
  rw [hregister]
  exact ⟨rfl, ho, rfl, rfl⟩

theorem attempt_free (h : Free env m st) :
    (modInitialize env inits m st).1 = !failed inits m st.events ∧
      registry env (attempt env inits st m) = registry env st ++ added env.pers m ∧
      (attempt env inits st m).events =
        st.events ++ .registered m.self :: ((outcome inits m st.events).map (.init m.self)).toList ∧
      (attempt env inits st m).moduleList =
        if failed inits m st.events then st.moduleList else setInitialized st.moduleList m.self := by
  obtain ⟨o, hregister, ho⟩ := optRegister_free h
  unfold attempt modInitialize failed outcome
  rw [hregister]
  cases m.pmod.init with
  | false => exact ⟨rfl, ho, rfl, rfl⟩
  | true =>
      simp only [Bool.not_true, Bool.false_eq_true, if_false, if_true, Option.any_some, Option.map_some,
        Option.toList_some, decide_eq_true_eq, List.append_assoc, List.cons_append, List.nil_append]
      split
      · rename_i hneg
        exact ⟨by rw [decide_eq_true hneg]; rfl, ho, rfl, rfl⟩
      · rename_i hneg
        exact ⟨by rw [decide_eq_false hneg]; rfl, ho, rfl, rfl⟩

/-- Letters stay in use. -/
theorem registry_attempt (h : c ∈ registry env st) : c ∈ registry env (attempt env inits st m) := by
  by_cases hfree : Free env m st
  · rw [(attempt_free hfree).2.1]
    exact List.mem_append_left _ h
  · rw [(attempt_conflict hfree).2.1]
    exact h

/-! ## An attempt that fails -/

/-- Attempts one after the other. -/
abbrev starts (env : Env) (inits : Inits) (st : State) (ms : List ModuleComponents) : State :=
  ms.foldl (attempt env inits) st

theorem optRegister_iff : (optRegister env m.pmod.optTable st.pdshOptions).1 = true ↔ Free env m st := by
  by_cases hfree : Free env m st
  · obtain ⟨o, hregister, -⟩ := optRegister_free hfree
    rw [hregister]
    exact iff_of_true rfl hfree
  · obtain ⟨o, hregister, -⟩ := optRegister_conflict hfree
    rw [hregister]
    exact iff_of_false Bool.false_ne_true hfree

/-- What later attempts register depends on the letters in use and nothing else. -/
theorem registry_starts {st' : State} (h : registry env st = registry env st') (later : List ModuleComponents) :
    registry env (starts env inits st later) = registry env (starts env inits st' later) := by
  induction later generalizing st st' with
  | nil => exact h
  | cons m later ih =>
      refine ih ?_
      by_cases hfree : Free env m st
      · have hfree' : Free env m st' := fun c hc => h ▸ hfree c hc
        rw [(attempt_free hfree).2.1, (attempt_free hfree').2.1, h]
      · have hfree' : ¬ Free env m st' := fun hno => hfree fun c hc => h.symm ▸ hno c hc
        rw [(attempt_conflict hfree).2.1, (attempt_conflict hfree').2.1, h]

/-- An attempt fails at its options or at `init`. Whether it fails or not, it leaves the options
in use as they were, and every later module can register its own as if the attempt had not been
made, if and only if the module has no letter for the personality or one of them was in use. -/
theorem failed_start_traceless_iff (env : Env) (inits : Inits) (m : ModuleComponents) (st : State) :
    ((modInitialize env inits m st).1 = false ↔ ¬ Free env m st ∨ failed inits m st.events = true) ∧
    ((registry env (attempt env inits st m) = registry env st ∧
      ∀ (later : List ModuleComponents) (next : ModuleComponents),
        (optRegister env next.pmod.optTable (starts env inits (attempt env inits st m) later).pdshOptions).1 =
          (optRegister env next.pmod.optTable (starts env inits st later).pdshOptions).1) ↔
      letters env.pers m = [] ∨ ¬ Free env m st) := by
  refine ⟨?_, ?_⟩
  · by_cases hfree : Free env m st
    · rw [(attempt_free hfree).1]
      simp [hfree]
    · exact iff_of_true (attempt_conflict hfree).1 (.inl hfree)
  · constructor
    · rintro ⟨hsame, -⟩
      by_cases hfree : Free env m st
      · -- the letters were appended before `init` was called
        rw [(attempt_free hfree).2.1] at hsame
        exact .inl (added_eq_nil_iff.mp (List.append_right_eq_self.mp hsame))
      · exact .inr hfree
    · intro hcond
      have hsame : registry env (attempt env inits st m) = registry env st := by
        by_cases hfree : Free env m st
        · have hnone : letters env.pers m = [] := hcond.resolve_right (not_not_intro hfree)
          rw [(attempt_free hfree).2.1, added_eq_nil_iff.mpr hnone, List.append_nil]
        · exact (attempt_conflict hfree).2.1
      refine ⟨hsame, fun later next => ?_⟩
      rw [Bool.eq_iff_iff, optRegister_iff, optRegister_iff]
      unfold Free
      rw [registry_starts hsame later]

/-- A misc module with one option, which suits every personality. -/
def optionModule (name : CStr) (opt : PdshModuleOption) : PdshModule :=
  ⟨some "misc".toList, some name, 3, true, some [opt]⟩

/-- The option `-g` without an argument. -/
def optG (personality : UInt32) : PdshModuleOption := ⟨'g', none, personality, by decide⟩

/-- The `init` of the first module fails, and the second one cannot have its letter. -/
theorem failed_start_keeps_letters :
    (modInitialize ⟨.dsh, false, 0, 0⟩ (fun _ _ => -1) ⟨0, [], 100, false, optionModule ['a'] (optG 3)⟩
        ⟨[], some (initPdshOptions ⟨.dsh, false, 0, 0⟩), []⟩).1 = false ∧
      (optRegister ⟨.dsh, false, 0, 0⟩ (some [optG 3])
        (modInitialize ⟨.dsh, false, 0, 0⟩ (fun _ _ => -1) ⟨0, [], 100, false, optionModule ['a'] (optG 3)⟩
          ⟨[], some (initPdshOptions ⟨.dsh, false, 0, 0⟩), []⟩).2.pdshOptions).1 = false ∧
      (optRegister ⟨.dsh, false, 0, 0⟩ (some [optG 3])
        (some (initPdshOptions ⟨.dsh, false, 0, 0⟩))).1 = true := by
  decide +kernel

/-! ## The attempts of `mod_load_modules` -/

/-- What is tried: the misc modules that are named, then all. -/
def attempts (misc : Option CStr) (l : List ModuleComponents) : List ModuleComponents :=
  (miscNames misc).filterMap (fun name => l.find? (modFindMisc · name)) ++ l

/-- A search by name does not look at `initialized`. -/
theorem modInitializeByName_eq {l : List ModuleComponents}
    (hl : st.moduleList.map ModuleComponents.asLoaded = l) (name : CStr) :
    modInitializeByName env inits st name = starts env inits st (l.find? (modFindMisc · name)).toList := by
  have hfind : l.find? (modFindMisc · name) =
      (st.moduleList.find? (modFindMisc · name)).map ModuleComponents.asLoaded := by
    rw [← hl, List.find?_map]
    rfl
  unfold modInitializeByName
  rw [hfind]
  cases st.moduleList.find? (modFindMisc · name) with
  | none => rfl
  | some m => rfl

theorem modInitializeByName_foldl {l : List ModuleComponents} (names : List CStr)
    (hl : st.moduleList.map ModuleComponents.asLoaded = l) :
    names.foldl (modInitializeByName env inits) st =
      starts env inits st (names.filterMap fun name => l.find? (modFindMisc · name)) := by
  induction names generalizing st with
  | nil => rfl
  | cons name names ih =>
      rw [List.foldl_cons, ih ((modInitializeByName_asLoaded env inits st name).trans hl),
        modInitializeByName_eq hl, List.filterMap_cons]
      cases l.find? (modFindMisc · name) with
      | none => rfl
      | some m => rfl

theorem modInitList_eq {l : List ModuleComponents} (hl : st.moduleList.map ModuleComponents.asLoaded = l) :
    modInitList env inits st = starts env inits st l := by
  rw [← hl]
  unfold modInitList
  rw [starts, List.foldl_map]
  rfl

/-- No module is started when the list is sorted. -/
theorem listSorted_asLoaded (env : Env) (mods : Modules) :
    (listSort cmpF (registerAll env.pers [] (loaded env mods))).map ModuleComponents.asLoaded =
      listSort cmpF (registerAll env.pers [] (loaded env mods)) := by
  refine (List.map_congr_left fun m hm => ?_).trans (List.map_id _)
  have hmem := (listSort_perm cmpF _).mem_iff.mp hm
  have hfrom := (registerAll_sublist env.pers [] (loaded env mods)).subset hmem
  rw [List.append_nil, List.mem_reverse] at hfrom
  have hfalse := (loaded_self env mods).1 m hfrom
  unfold ModuleComponents.asLoaded
  rw [← hfalse]
  rfl

/-- `mod_load_modules` is one attempt after the other. -/
theorem modLoadModules_starts {mods : Modules} {misc : Option CStr} {rc : Int}
    (h : modLoadModules env inits mods misc = .ret (rc, st)) :
    st = starts env inits ⟨listSort cmpF (registerAll env.pers [] (loaded env mods)),
      some (initPdshOptions env), []⟩
      (attempts misc (listSort cmpF (registerAll env.pers [] (loaded env mods)))) := by
  obtain ⟨⟨rc', l⟩, hload, h⟩ := Run.bind_eq_ret_iff.mp h
  have hl := modLoad_list hload
  cases h
  have hfresh : (listSort cmpF l).map ModuleComponents.asLoaded = listSort cmpF l := by
    rw [hl]
    exact listSorted_asLoaded env mods
  have hlist := foldl_asLoaded (fun st mod => modInitialize_asLoaded env inits mod st)
    ((miscNames misc).filterMap fun name => (listSort cmpF l).find? (modFindMisc · name))
    ⟨listSort cmpF l, some (initPdshOptions env), []⟩
  rw [← hl, modInitializeModulesByName, modInitializeByName_foldl _ hfresh,
    modInitList_eq (hlist.trans hfresh), attempts]
  exact List.foldl_append.symm

/-! ## How often `init` is called -/

/-- The call is one of this module's `init`. -/
def Event.isInit (self : Nat) : Event → Bool
  | .registered _ => false
  | .init s _ => s = self

/-- How often its `init` was called. -/
def initCalls (self : Nat) (events : List Event) : Nat := events.countP (Event.isInit self)

/-- An attempt calls `init` if the module has one and its letters are free. -/
theorem initCalls_attempt (self : Nat) :
    initCalls self (attempt env inits st m).events =
      initCalls self st.events + if m.self = self ∧ m.pmod.init = true ∧ Free env m st then 1 else 0 := by
  by_cases hfree : Free env m st
  · unfold initCalls
    rw [(attempt_free hfree).2.2.1, List.countP_append]
    unfold outcome
    by_cases hinit : m.pmod.init = true
    · by_cases hself : m.self = self
      · simp [hinit, hself, hfree, Event.isInit]
      · simp [hinit, hself, Event.isInit]
    · simp [hinit, Event.isInit]
  · rw [(attempt_conflict hfree).2.2.1, if_neg fun h => hfree h.2.2, Nat.add_zero]

/-- A module whose letters are in use stays so. -/
theorem not_free_attempt (h : ¬ Free env m st) : ¬ Free env m (attempt env inits st x) := by
  intro hfree
  exact h fun c hc hmem => hfree c hc (registry_attempt hmem)

/-- Its own letters are in use behind an attempt. -/
theorem not_free_of_attempt (hletters : letters env.pers m ≠ []) : ¬ Free env m (attempt env inits st m) := by
  by_cases hfree : Free env m st
  · obtain ⟨c, hc⟩ := List.exists_mem_of_ne_nil _ hletters
    intro hnow
    refine hnow c hc ?_
    rw [(attempt_free hfree).2.1]
    exact List.mem_append_right _ (mem_added hc)
  · exact not_free_attempt hfree

/-- A module with a letter of its own is not called twice. -/
theorem initCalls_le_one {ms : List ModuleComponents} (hsame : ∀ x ∈ ms, x.self = m.self → x = m)
    (hletters : letters env.pers m ≠ []) (hle : initCalls m.self st.events ≤ 1)
    (hused : initCalls m.self st.events = 1 → ¬ Free env m st) :
    initCalls m.self (starts env inits st ms).events ≤ 1 := by
  induction ms generalizing st with
  | nil => exact hle
  | cons x ms ih =>
      obtain ⟨hx, hms⟩ := List.forall_mem_cons.mp hsame
      have hcalls := @initCalls_attempt env inits x st m.self
      refine ih hms ?_ fun hone => ?_
      · rw [hcalls]
        split
        · rename_i hcond
          rw [hx hcond.1] at hcond
          have hzero : initCalls m.self st.events ≠ 1 := fun hone => hused hone hcond.2.2
          omega
        · exact hle
      · by_cases hself : x.self = m.self
        · rw [hx hself]
          exact not_free_of_attempt hletters
        · rw [hcalls, if_neg fun h => hself h.1] at hone
          exact not_free_attempt (hused hone)

/-- A module without letters is called in each attempt. -/
theorem initCalls_eq_count {ms : List ModuleComponents} (hsame : ∀ x ∈ ms, x.self = m.self → x = m)
    (hletters : letters env.pers m = []) (hinit : m.pmod.init = true) :
    initCalls m.self (starts env inits st ms).events =
      initCalls m.self st.events + ms.countP (·.self = m.self) := by
  induction ms generalizing st with
  | nil => rfl
  | cons x ms ih =>
      obtain ⟨hx, hms⟩ := List.forall_mem_cons.mp hsame
      show initCalls m.self (starts env inits (attempt env inits st x) ms).events = _
      rw [ih hms, initCalls_attempt, List.countP_cons]
      by_cases hself : x.self = m.self
      · have hfree : Free env m st := fun c hc => absurd hc (by rw [hletters]; exact List.not_mem_nil)
        rw [hx hself, if_pos ⟨rfl, hinit, hfree⟩, if_pos (decide_eq_true rfl)]
        omega
      · rw [if_neg fun h => hself h.1, if_neg fun h => hself (of_decide_eq_true h)]
        omega

/-- A module that has no `init`, or is not tried, is not called. -/
theorem initCalls_eq_zero {self : Nat} {ms : List ModuleComponents}
    (hno : ∀ x ∈ ms, x.self = self → x.pmod.init = false) :
    initCalls self (starts env inits st ms).events = initCalls self st.events := by
  induction ms generalizing st with
  | nil => rfl
  | cons x ms ih =>
      obtain ⟨hx, hms⟩ := List.forall_mem_cons.mp hno
      show initCalls self (starts env inits (attempt env inits st x) ms).events = _
      rw [ih hms, initCalls_attempt, if_neg, Nat.add_zero]
      rintro ⟨hself, hinit, -⟩
      rw [hx hself] at hinit
      cases hinit

/-- The list that is sorted: each module is there once, and has a `self` of its own; there is at
most one for a type and name. -/
theorem sorted_unique (env : Env) (mods : Modules) :
    ((listSort cmpF (registerAll env.pers [] (loaded env mods))).map (·.self)).Nodup ∧
    (∀ type name, ∀ x ∈ listSort cmpF (registerAll env.pers [] (loaded env mods)),
      ∀ y ∈ listSort cmpF (registerAll env.pers [] (loaded env mods)),
        modDescriptionMatch x type name → modDescriptionMatch y type name → x = y) := by
  have hperm := listSort_perm cmpF (registerAll env.pers [] (loaded env mods))
  constructor
  · have hnodup : ((loaded env mods).map (·.self)).Nodup :=
      List.pairwise_map.mpr ((loaded_self env mods).2.imp Nat.ne_of_lt)
    have hsub := (registerAll_sublist env.pers [] (loaded env mods)).map (·.self)
    rw [List.append_nil, List.map_reverse] at hsub
    exact (hperm.map _).nodup_iff.mpr ((List.nodup_reverse.mpr hnodup).sublist hsub)
  · intro type name x hx y hy hx' hy'
    have hone : named type name (registerAll env.pers [] (loaded env mods)) = _ :=
      @foldl_register [] type name none env.pers (loaded env mods) rfl
    have hx'' : x ∈ named type name (registerAll env.pers [] (loaded env mods)) :=
      List.mem_filter.mpr ⟨hperm.mem_iff.mp hx, hx'⟩
    have hy'' : y ∈ named type name (registerAll env.pers [] (loaded env mods)) :=
      List.mem_filter.mpr ⟨hperm.mem_iff.mp hy, hy'⟩
    rw [hone, Option.mem_toList] at hx'' hy''
    exact Option.some.inj (hx''.symm.trans hy'')

/-- The module is tried before the others: it is a misc module and named. -/
def Requested (misc : Option CStr) (m : ModuleComponents) : Prop :=
  ∃ name ∈ miscNames misc, modFindMisc m name = true

/-- Requested modules are those that are tried twice. -/
theorem countP_attempts {mods : Modules} {misc : Option CStr}
    (hm : m ∈ listSort cmpF (registerAll env.pers [] (loaded env mods))) :
    1 < (attempts misc (listSort cmpF (registerAll env.pers [] (loaded env mods)))).countP
      (·.self = m.self) ↔ Requested misc m := by
  obtain ⟨hnodup, hname⟩ := sorted_unique env mods
  generalize listSort cmpF (registerAll env.pers [] (loaded env mods)) = l at *
  have hself {x : ModuleComponents} (hx : x ∈ l) (h : x.self = m.self) : x = m :=
    List.inj_on_of_nodup_map hnodup hx hm h
  have hone : l.countP (·.self = m.self) = 1 := by
    rw [← List.count_eq_one_of_mem hnodup.of_map hm]
    refine List.countP_congr fun x hx => ?_
    rw [decide_eq_true_iff, beq_iff_eq]
    exact ⟨hself hx, fun h => congrArg _ h⟩
  unfold attempts Requested
  rw [List.countP_append, hone]
  have hpos : 1 < (List.filterMap (fun name => l.find? (modFindMisc · name)) (miscNames misc)).countP
      (·.self = m.self) + 1 ↔ 0 < (List.filterMap (fun name => l.find? (modFindMisc · name))
        (miscNames misc)).countP (·.self = m.self) := by omega
  rw [hpos, List.countP_pos_iff]
  constructor
  · rintro ⟨x, hx, hsame⟩
    obtain ⟨name, hmem, hfind⟩ := List.mem_filterMap.mp hx
    obtain rfl := hself (List.mem_of_find?_eq_some hfind) (of_decide_eq_true hsame)
    exact ⟨name, hmem, @List.find?_some _ (modFindMisc · name) _ _ hfind⟩
  · rintro ⟨name, hmem, hfound⟩
    cases hfind : l.find? (modFindMisc · name) with
    | none => exact absurd hfound (by simpa using List.find?_eq_none.mp hfind m hm)
    | some x =>
        -- only one misc module has the name
        have hmatch : modFindMisc x name = true :=
          @List.find?_some _ (modFindMisc · name) _ _ hfind
        obtain rfl := hname "misc".toList name x (List.mem_of_find?_eq_some hfind) m hm hmatch hfound
        exact ⟨x, List.mem_filterMap.mpr ⟨name, hmem, hfind⟩, decide_eq_true rfl⟩

theorem mem_attempts {misc : Option CStr} {l : List ModuleComponents} (h : x ∈ attempts misc l) : x ∈ l := by
  rcases List.mem_append.mp h with h | h
  · obtain ⟨name, -, hfind⟩ := List.mem_filterMap.mp h
    exact List.mem_of_find?_eq_some hfind
  · exact h

/-- Where `mod_load_modules` returns, no `init` was called twice if and only if every module
that has one and was requested has a letter for the personality. -/
theorem init_once_iff {mods : Modules} {misc : Option CStr} {rc : Int}
    (h : modLoadModules env inits mods misc = .ret (rc, st)) :
    (∀ self, initCalls self st.events ≤ 1) ↔
      ∀ m ∈ st.moduleList, m.pmod.init = true → Requested misc m → letters env.pers m ≠ [] := by
  have hsorted := modLoadModules_list h
  have hstarts := modLoadModules_starts h
  obtain ⟨hnodup, -⟩ := sorted_unique env mods
  have hasLoaded := listSorted_asLoaded env mods
  rw [hasLoaded] at hsorted
  -- the modules of the list are those that are tried
  have hsame {m : ModuleComponents} (hm : m ∈ listSort cmpF (registerAll env.pers [] (loaded env mods))) :
      ∀ x ∈ attempts misc (listSort cmpF (registerAll env.pers [] (loaded env mods))),
        x.self = m.self → x = m :=
    fun x hx hself => List.inj_on_of_nodup_map hnodup (mem_attempts hx) hm hself
  have hall : (∀ m ∈ st.moduleList, m.pmod.init = true → Requested misc m → letters env.pers m ≠ []) ↔
      ∀ m ∈ listSort cmpF (registerAll env.pers [] (loaded env mods)),
        m.pmod.init = true → Requested misc m → letters env.pers m ≠ [] := by
    rw [← hsorted, List.forall_mem_map]
    exact Iff.rfl
  rw [hall, hstarts]
  constructor
  · intro honce m hm hinit hrequested hletters
    have hcalls := honce m.self
    rw [initCalls_eq_count (hsame hm) hletters hinit] at hcalls
    have htwice := (countP_attempts hm).mpr hrequested
    omega
  · intro hcond self
    by_cases hinit : ∃ m ∈ listSort cmpF (registerAll env.pers [] (loaded env mods)),
        m.self = self ∧ m.pmod.init = true
    · obtain ⟨m, hm, rfl, hinit⟩ := hinit
      by_cases hletters : letters env.pers m = []
      · rw [initCalls_eq_count (hsame hm) hletters hinit]
        have hnot := mt (countP_attempts hm).mp fun hrequested => hcond m hm hinit hrequested hletters
        show 0 + List.countP _ _ ≤ 1
        omega
      · exact initCalls_le_one (hsame hm) hletters (Nat.zero_le 1) fun hone => by cases hone
    · rw [initCalls_eq_zero]
      · exact Nat.zero_le 1
      · intro x hx hself
        rw [Bool.eq_false_iff]
        exact fun hx' => hinit ⟨x, mem_attempts hx, hself, hx'⟩

/-- A misc module `a` without options, with an `init`, requested by name. -/
theorem init_twice :
    ∃ st, modLoadModules ⟨.dsh, false, 0, 0⟩ (fun _ _ => 0)
        (.static [(⟨some "misc".toList, some "a".toList, 3, true, none⟩, 100)]) (some "a".toList) = .ret (0, st) ∧
      initCalls 0 st.events = 2 :=
  ⟨_, rfl, by decide +kernel⟩

/-- With an option it is not called again. -/
theorem init_once_iff_option :
    ∃ st, modLoadModules ⟨.dsh, false, 0, 0⟩ (fun _ _ => 0)
        (.static [(optionModule "a".toList (optG 3), 100)]) (some "a,a".toList) = .ret (0, st) ∧
      ∀ self, initCalls self st.events ≤ 1 := by
  refine ⟨_, rfl, (@init_once_iff ⟨.dsh, false, 0, 0⟩ (fun _ _ => 0) _
    (.static [(optionModule "a".toList (optG 3), 100)]) (some "a,a".toList) 0 rfl).mpr ?_⟩
  intro m hm _ _
  have hall : ∀ m ∈ [(⟨0, "static".toList, 100, true, optionModule "a".toList (optG 3)⟩ : ModuleComponents)],
      letters .dsh m ≠ [] := by decide
  exact hall m hm

/-! ## Dispatch -/

theorem mem_setInitialized {l : List ModuleComponents} {self : Nat} (h : y ∈ setInitialized l self) :
    ∃ x ∈ l, y.asLoaded = x.asLoaded ∧ y.self = x.self ∧
      (y.initialized = true ↔ x.self = self ∨ x.initialized = true) := by
  obtain ⟨x, hx, rfl⟩ := List.mem_map.mp h
  refine ⟨x, hx, ?_⟩
  split
  · rename_i hself
    exact ⟨rfl, rfl, iff_of_true rfl (.inl hself)⟩
  · rename_i hself
    exact ⟨rfl, rfl, (or_iff_right hself).symm⟩

/-- What holds behind attempts to start modules of a list. -/
structure Started (env : Env) (l : List ModuleComponents) (st : State) : Prop where
  list : st.moduleList.map ModuleComponents.asLoaded = l
  used : ∀ m ∈ l, .registered m.self ∈ st.events → ∀ c ∈ letters env.pers m, c ∈ registry env st
  apart : ∀ x ∈ l, ∀ y ∈ l, .registered x.self ∈ st.events → .registered y.self ∈ st.events →
    ∀ c ∈ letters env.pers x, c ∈ letters env.pers y → x.self = y.self
  called : ∀ self rc, .init self rc ∈ st.events → .registered self ∈ st.events
  active : ∀ m ∈ st.moduleList, m.initialized = true → .registered m.self ∈ st.events
  result : ∀ m ∈ st.moduleList, letters env.pers m ≠ [] → .registered m.self ∈ st.events →
    (m.initialized = true ↔ ∀ rc, .init m.self rc ∈ st.events → 0 ≤ rc)

theorem Started.attempt {l : List ModuleComponents} (h : Started env l st) (hnodup : (l.map (·.self)).Nodup)
    (hx : x ∈ l) : Started env l (attempt env inits st x) := by
  by_cases hfree : Free env x st
  · obtain ⟨-, hregistry, hevents, hlist⟩ := @attempt_free env inits x st hfree
    have hmem (e : Event) : e ∈ (Mod.attempt env inits st x).events ↔
        e ∈ st.events ∨ e = .registered x.self ∨ ∃ rc, outcome inits x st.events = some rc ∧ e = .init x.self rc := by
      rw [hevents]
      simp [eq_comm]
    have hregistered (self : Nat) : Event.registered self ∈ (Mod.attempt env inits st x).events ↔
        Event.registered self ∈ st.events ∨ self = x.self := by
      rw [hmem]
      simp
    have hself {m : ModuleComponents} (hm : m ∈ l) (h : m.self = x.self) : m = x :=
      List.inj_on_of_nodup_map hnodup hm hx h
    have hold {y : ModuleComponents} (hy : y ∈ (Mod.attempt env inits st x).moduleList) :
        ∃ m ∈ st.moduleList, y.asLoaded = m.asLoaded ∧ y.self = m.self ∧
          (y.initialized = true ↔ (m.self = x.self ∧ failed inits x st.events = false) ∨ m.initialized = true) := by
      rw [hlist] at hy
      split at hy
      · rename_i hfailed
        refine ⟨y, hy, rfl, rfl, ?_⟩
        rw [hfailed]
        simp
      · rename_i hfailed
        obtain ⟨m, hm, heq, hself, hiff⟩ := mem_setInitialized hy
        refine ⟨m, hm, heq, hself, ?_⟩
        rw [hiff, Bool.eq_false_iff.mpr hfailed]
        simp
    refine ⟨(modInitialize_asLoaded env inits x st).trans h.list, ?_, ?_, ?_, ?_, ?_⟩
    · intro m hm hreg c hc
      rcases (hregistered m.self).mp hreg with hreg | hsame
      · exact registry_attempt (h.used m hm hreg c hc)
      · rw [hself hm hsame] at hc
        rw [hregistry]
        exact List.mem_append_right _ (mem_added hc)
    · -- the letters of `x` were free
      intro y hy z hz hregy hregz c hcy hcz
      rcases (hregistered y.self).mp hregy with hregy | hsamey
      · rcases (hregistered z.self).mp hregz with hregz | hsamez
        · exact h.apart y hy z hz hregy hregz c hcy hcz
        · rw [hself hz hsamez] at hcz
          exact absurd (h.used y hy hregy c hcy) (hfree c hcz)
      · rcases (hregistered z.self).mp hregz with hregz | hsamez
        · rw [hself hy hsamey] at hcy
          exact absurd (h.used z hz hregz c hcz) (hfree c hcy)
        · rw [hsamey, hsamez]
    · intro self rc hinit
      rw [hregistered]
      rcases (hmem _).mp hinit with hold | hno | ⟨rc', -, heq⟩
      · exact .inl (h.called self rc hold)
      · cases hno
      · cases heq
        exact .inr rfl
    · intro y hy hinit
      obtain ⟨m, hm, -, hsame, hiff⟩ := hold hy
      rw [hregistered, hsame]
      rcases hiff.mp hinit with ⟨hx, -⟩ | hinit
      · exact .inr hx
      · exact .inl (h.active m hm hinit)
    · intro y hy hletters hreg
      obtain ⟨m, hm, heq, hsame, hiff⟩ := hold hy
      have hloaded : m.asLoaded ∈ l := h.list ▸ List.mem_map_of_mem hm
      have hpmod : y.asLoaded.pmod = m.asLoaded.pmod := congrArg _ heq
      have hsameLetters : letters env.pers y = letters env.pers m := by
        unfold letters
        rw [show y.pmod = m.pmod from hpmod]
      rw [hsameLetters] at hletters
      rw [hiff, hsame]
      by_cases hmx : m.self = x.self
      · -- `x` was not registered before
        have hx' : m.asLoaded = x := hself hloaded hmx
        have hnot : Event.registered m.self ∉ st.events := by
          intro hreg
          obtain ⟨c, hc⟩ := List.exists_mem_of_ne_nil _ hletters
          have hc' : c ∈ letters env.pers x := hx' ▸ hc
          exact hfree c hc' (h.used x hx (hmx ▸ hreg) c hc')
        have hinactive : ¬ m.initialized = true := fun hinit => hnot (h.active m hm hinit)
        have hcalls (rc : Int32) : Event.init m.self rc ∈ (Mod.attempt env inits st x).events ↔
            outcome inits x st.events = some rc := by
          rw [hmem]
          constructor
          · rintro (hold | hno | ⟨rc', hrc, heq⟩)
            · exact absurd (h.called _ _ hold) hnot
            · cases hno
            · obtain ⟨-, rfl⟩ := Event.init.inj heq
              exact hrc
          · exact fun hrc => .inr (.inr ⟨rc, hrc, by rw [hmx]⟩)
        rw [forall_congr' fun rc => imp_congr_left (hcalls rc)]
        simp only [hinactive, Bool.false_eq_true, or_false, hmx, true_and]
        unfold failed
        cases outcome inits x st.events with
        | none => simp
        | some rc => simp [Int32.not_lt]
      · rw [hregistered, hsame, or_iff_left hmx] at hreg
        rw [or_iff_right fun hboth => hmx hboth.1, h.result m hm hletters hreg]
        refine forall_congr' fun rc => imp_congr_left ?_
        rw [hmem]
        constructor
        · exact fun hold => .inl hold
        · rintro (hold | hno | ⟨rc', -, heq⟩)
          · exact hold
          · cases hno
          · exact absurd (Event.init.inj heq).1 hmx
  · obtain ⟨-, hregistry, hevents, hlist⟩ := @attempt_conflict env inits x st hfree
    refine ⟨hlist ▸ h.list, ?_, ?_, ?_, ?_, ?_⟩
    · rw [hevents, hregistry]
      exact h.used
    · rw [hevents]
      exact h.apart
    · rw [hevents]
      exact h.called
    · rw [hevents, hlist]
      exact h.active
    · rw [hevents, hlist]
      exact h.result

theorem Started.starts {l ms : List ModuleComponents} (h : Started env l st) (hnodup : (l.map (·.self)).Nodup)
    (hms : ∀ x ∈ ms, x ∈ l) : Started env l (starts env inits st ms) := by
  induction ms generalizing st with
  | nil => exact h
  | cons x ms ih =>
      obtain ⟨hx, hms⟩ := List.forall_mem_cons.mp hms
      exact ih (h.attempt hnodup hx) hms

/-- `mod_load_modules` leaves such a state. -/
theorem modLoadModules_started {mods : Modules} {misc : Option CStr} {rc : Int}
    (h : modLoadModules env inits mods misc = .ret (rc, st)) :
    Started env (listSort cmpF (registerAll env.pers [] (loaded env mods))) st := by
  obtain ⟨hnodup, -⟩ := sorted_unique env mods
  have hinactive : ∀ m ∈ listSort cmpF (registerAll env.pers [] (loaded env mods)), ¬ m.initialized = true := by
    intro m hm
    rw [← listSorted_asLoaded] at hm
    obtain ⟨x, -, rfl⟩ := List.mem_map.mp hm
    exact Bool.false_ne_true
  rw [modLoadModules_starts h]
  refine Started.starts ⟨listSorted_asLoaded env mods, ?_, ?_, ?_, ?_, ?_⟩ hnodup fun x hx => mem_attempts hx
  · exact fun m _ hno => absurd hno List.not_mem_nil
  · exact fun x _ y _ hno => absurd hno List.not_mem_nil
  · exact fun self rc hno => absurd hno List.not_mem_nil
  · exact fun m hm hinit => absurd hinit (hinactive m hm)
  · exact fun m _ _ hno => absurd hno List.not_mem_nil

theorem modFindOpt_eq_none_iff :
    modFindOpt m c = none ↔ ∀ p ∈ m.pmod.optTable.getD [], p.opt ≠ c := by
  unfold modFindOpt
  rw [List.find?_eq_none]
  exact forall₂_congr fun p _ => not_congr decide_eq_true_iff

/-- A module with the option is found unless it is inactive or an active one in front of it has
the option too. -/
theorem modProcessOpt_iff {front back : List ModuleComponents} (hlist : st.moduleList = front ++ m :: back)
    (hm : m ∉ front) (hopt : modFindOpt m c ≠ none) :
    (modProcessOpt st c).map (·.1) = some m ↔
      m.initialized = true ∧ ∀ x ∈ front, x.initialized = true → modFindOpt x c = none := by
  -- what a search finds is an active module of the list
  have hfound {l : List ModuleComponents} {r : ModuleComponents × PdshModuleOption}
      (h : (l.filter (·.initialized)).findSome? (fun mod => (modFindOpt mod c).map (mod, ·)) = some r) :
      r.1 ∈ l ∧ r.1.initialized = true ∧ modFindOpt r.1 c ≠ none := by
    obtain ⟨x, hx, hr⟩ := List.exists_of_findSome?_eq_some h
    obtain ⟨p, hp, rfl⟩ := Option.map_eq_some_iff.mp hr
    obtain ⟨hx, hinit⟩ := List.mem_filter.mp hx
    exact ⟨hx, hinit, by rw [hp]; exact Option.some_ne_none p⟩
  unfold modProcessOpt
  rw [hlist, List.filter_append, List.findSome?_append]
  cases hfront : (front.filter (·.initialized)).findSome? (fun mod => (modFindOpt mod c).map (mod, ·)) with
  | some r =>
      obtain ⟨hr, hinit, hsome⟩ := hfound hfront
      refine iff_of_false (fun h => ?_) fun h => hsome (h.2 r.1 hr hinit)
      exact hm (Option.some.inj h ▸ hr)
  | none =>
      have hnone : ∀ x ∈ front, x.initialized = true → modFindOpt x c = none := by
        intro x hx hinit
        have hx' := List.findSome?_eq_none_iff.mp hfront x (List.mem_filter.mpr ⟨hx, hinit⟩)
        exact Option.map_eq_none_iff.mp hx'
      by_cases hinit : m.initialized = true
      · obtain ⟨p, hp⟩ := Option.ne_none_iff_exists'.mp hopt
        rw [List.filter_cons_of_pos hinit, List.findSome?_cons, hp]
        exact iff_of_true rfl ⟨hinit, hnone⟩
      · rw [List.filter_cons_of_neg hinit]
        refine iff_of_false (fun h => ?_) fun h => hinit h.1
        obtain ⟨r, hr, heq⟩ := Option.map_eq_some_iff.mp h
        exact hinit (heq ▸ (hfound hr).2.1)

/-- A letter that a module registered is dispatched to that module if and only if `opt_args` does
not handle the letter by itself, the `init` of the module did not fail, and no active module in
front of it has the letter for another personality. -/
theorem option_dispatch_iff {mods : Modules} {misc : Option CStr} {rc : Int}
    {front back : List ModuleComponents} (h : modLoadModules env inits mods misc = .ret (rc, st))
    (hlist : st.moduleList = front ++ m :: back) (hreg : .registered m.self ∈ st.events)
    (hc : c ∈ letters env.pers m) :
    (optArgsModule env st c).map (·.1) = some m ↔
      ownOption env c = false ∧ (∀ rc, .init m.self rc ∈ st.events → 0 ≤ rc) ∧
        ∀ x ∈ front, x.initialized = true → ∀ p ∈ x.pmod.optTable.getD [], p.opt = c →
          p.suits env.pers = true := by
  have hstarted := modLoadModules_started h
  obtain ⟨hnodup, -⟩ := sorted_unique env mods
  have hmem : m ∈ st.moduleList := by
    rw [hlist]
    simp
  have hfront {x : ModuleComponents} (hx : x ∈ front) : x ∈ st.moduleList ∧ x.self ≠ m.self := by
    refine ⟨by rw [hlist]; exact List.mem_append_left _ hx, ?_⟩
    have hself : (st.moduleList.map (·.self)).Nodup := by
      rw [← hstarted.list, List.map_map] at hnodup
      exact hnodup
    rw [hlist, List.map_append, List.map_cons, List.nodup_append] at hself
    exact hself.2.2 x.self (List.mem_map_of_mem hx) m.self List.mem_cons_self
  have hopt : modFindOpt m c ≠ none := by
    obtain ⟨p, hp, rfl⟩ := List.mem_map.mp hc
    exact fun hnone => modFindOpt_eq_none_iff.mp hnone p (List.mem_filter.mp hp).1 rfl
  have hactive := hstarted.result m hmem (List.ne_nil_of_mem hc) hreg
  -- an active module in front that has the letter for this personality would have registered it
  have hother : (∀ x ∈ front, x.initialized = true → modFindOpt x c = none) ↔
      ∀ x ∈ front, x.initialized = true → ∀ p ∈ x.pmod.optTable.getD [], p.opt = c →
        p.suits env.pers = true := by
    refine forall₃_congr fun x hx hinit => ?_
    rw [modFindOpt_eq_none_iff]
    refine forall₂_congr fun p hp => ⟨fun hne heq => absurd heq hne, fun hsuits heq => ?_⟩
    obtain ⟨hx', hne⟩ := hfront hx
    have hcx : c ∈ letters env.pers x.asLoaded :=
      List.mem_map.mpr ⟨p, List.mem_filter.mpr ⟨hp, hsuits heq⟩, heq⟩
    exact hne (hstarted.apart x.asLoaded (hstarted.list ▸ List.mem_map_of_mem hx') m.asLoaded
      (hstarted.list ▸ List.mem_map_of_mem hmem) (hstarted.active x hx' hinit) hreg c hcx hc)
  unfold optArgsModule
  cases hown : ownOption env c with
  | true =>
      simp only [if_true]
      exact iff_of_false (fun h => nomatch h) fun h => nomatch h.1
  | false =>
      simp only [Bool.false_eq_true, if_false, true_and]
      rw [modProcessOpt_iff hlist (fun hm => (hfront hm).2 rfl) hopt, hactive, hother]

/-- Under pdsh the letter of the second module is dispatched to the first, which has it for pdcp. -/
theorem option_dispatched_elsewhere :
    ∃ st, modLoadModules ⟨.dsh, false, 0, 0⟩ (fun _ _ => 0)
        (.static [(optionModule "a".toList (optG 2), 100), (optionModule "b".toList (optG 1), 100)]) none =
          .ret (0, st) ∧
      .registered 1 ∈ st.events ∧ .registered 0 ∈ st.events ∧
      (optArgsModule ⟨.dsh, false, 0, 0⟩ st 'g').map (·.1.self) = some 0 :=
  ⟨_, rfl, by decide +kernel⟩

/-- Under pdcp it is the other way round, and right. -/
theorem option_dispatch_iff_pcp :
    ∃ st m, modLoadModules ⟨.pcp, false, 0, 0⟩ (fun _ _ => 0)
        (.static [(optionModule "a".toList (optG 2), 100), (optionModule "b".toList (optG 1), 100)]) none =
          .ret (0, st) ∧
      m.self = 0 ∧ (optArgsModule ⟨.pcp, false, 0, 0⟩ st 'g').map (·.1) = some m := by
  refine ⟨_, ⟨0, "static".toList, 100, true, optionModule "a".toList (optG 2)⟩, rfl, rfl,
    (@option_dispatch_iff ⟨.pcp, false, 0, 0⟩ (fun _ _ => 0)
      ⟨0, "static".toList, 100, true, optionModule "a".toList (optG 2)⟩ _ 'g'
      (.static [(optionModule "a".toList (optG 2), 100), (optionModule "b".toList (optG 1), 100)]) none 0 []
      [⟨1, "static".toList, 100, true, optionModule "b".toList (optG 1)⟩] rfl rfl ?_ ?_).mpr ⟨?_, ?_, ?_⟩⟩
  · decide +kernel
  · decide +kernel
  · decide +kernel
  · intro rc hrc
    have hall : ∀ e ∈ [Event.registered 0, .init 0 0, .registered 1, .init 1 0], e = .init 0 rc → 0 ≤ rc := by
      intro e he heq
      subst heq
      simp only [List.mem_cons, reduceCtorEq, Event.init.injEq, true_and, Nat.zero_ne_one, false_and,
        List.not_mem_nil, or_false, false_or] at he
      rw [he]
      decide
    exact hall _ hrc rfl
  · exact fun x hx => absurd hx List.not_mem_nil

end Pdsh.Mod
