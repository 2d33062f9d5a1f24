import Pdsh.Pcp.Target
import Pdsh.Pcp.Upload

/-!
# What a copy comes to

`Listing.install` is the file system behind the records of a listing, one after the other. That it
holds a copy of the files, `Listing.Mirrored`, takes that the entries of a directory have different
names and that no file is in the way of a directory, nor a directory of a file: then what an entry
does is left alone by those behind it (`Listing.install_mirrored`), and nothing else is changed
(`Listing.install_other`).
-/

namespace Pdsh.Pcp

open Lib.Process

variable {e e' : Target} {dir name path p : CStr} {sb : StatBuf} {data : List Char}
  {times preserve : Bool}

/-! ## Paths -/

theorem entryPath_eq (hdir : dir ≠ []) (name : CStr) : entryPath dir name = dir ++ '/' :: name := by
  rw [entryPath, if_neg hdir, List.append_assoc]
  rfl

/-- An entry is in its directory. -/
theorem dirname_entryPath (hdir : dir ≠ []) (hname : '/' ∉ name) :
    dirname (entryPath dir name) = dir := by
  have hkeep : ∀ c ∈ name.reverse, decide (c ≠ '/') = true := by
    intro c hc
    rw [decide_eq_true_eq]
    rintro rfl
    exact hname (List.mem_reverse.mp hc)
  rw [dirname, entryPath_eq hdir, List.rdropWhile, List.reverse_append, List.reverse_cons,
    List.append_assoc, List.dropWhile_append_of_pos hkeep, List.singleton_append,
    List.dropWhile_cons_of_neg (by decide), List.reverse_cons, List.reverse_reverse,
    List.dropLast_concat]

/-- The path of an entry, and those below it. -/
def Under (dir name p : CStr) : Prop :=
  p = entryPath dir name ∨ ∃ rest, p = entryPath dir name ++ '/' :: rest

theorem Under.entry (dir name : CStr) : Under dir name (entryPath dir name) := .inl rfl

theorem Under.ne_dir (hdir : dir ≠ []) (h : Under dir name p) : p ≠ dir := by
  intro heq
  have hlen := congrArg List.length heq
  rcases h with rfl | ⟨rest, rfl⟩
  · rw [entryPath_eq hdir] at hlen
    simp at hlen
  · rw [entryPath_eq hdir] at hlen
    simp at hlen

/-- Entries with different names have nothing in common. -/
theorem Under.name_eq {name' : CStr} (hdir : dir ≠ []) (hname : '/' ∉ name) (hname' : '/' ∉ name')
    (h : Under dir name p) (h' : Under dir name' p) : name = name' := by
  have hhead : ∀ {name : CStr}, '/' ∉ name → Under dir name p →
      (p.drop (dir.length + 1)).takeWhile (fun c => decide (c ≠ '/')) = name := by
    intro name hname h
    have hkeep : ∀ c ∈ name, decide (c ≠ '/') = true := by
      intro c hc
      rw [decide_eq_true_eq]
      rintro rfl
      exact hname hc
    have hdrop : ∀ rest : CStr, (dir ++ '/' :: rest).drop (dir.length + 1) = rest := by
      intro rest
      rw [← List.drop_drop, List.drop_left]
      rfl
    rcases h with rfl | ⟨rest, rfl⟩
    · rw [entryPath_eq hdir, hdrop, List.takeWhile_eq_self_iff.mpr hkeep]
    · rw [entryPath_eq hdir, List.append_assoc, List.cons_append, hdrop,
        List.takeWhile_append_of_pos hkeep, List.takeWhile_cons_of_neg (by decide), List.append_nil]
  rw [← hhead hname h, hhead hname' h']

theorem entryPath_ne_nil (hname : name ≠ []) : entryPath dir name ≠ [] :=
  List.append_ne_nil_of_right_ne_nil _ hname

/-- What is below an entry of a directory is below the directory. -/
theorem Under.below {name' : CStr} (hname : name ≠ []) (h : Under (entryPath dir name) name' p) :
    Under dir name p := by
  rcases h with rfl | ⟨rest, rfl⟩
  · exact .inr ⟨name', entryPath_eq (entryPath_ne_nil hname) name'⟩
  · refine .inr ⟨name' ++ '/' :: rest, ?_⟩
    rw [entryPath_eq (entryPath_ne_nil hname), List.append_assoc]
    rfl

/-! ## One record -/

namespace Target

/-- Nothing but the node at a path and the times of its directory is changed. -/
structure Changed (e e' : Target) (path : CStr) : Prop where
  mask : e'.mask = e.mask
  fds : e'.fds = e.fds
  other : ∀ p, p ≠ path → p ≠ dirname path → e'.nodes p = e.nodes p
  dir : dirname path ≠ path →
    (e'.nodes (dirname path)).map Node.touched = (e.nodes (dirname path)).map Node.touched

theorem set_changed (e : Target) (path : CStr) (n : Node) : Changed e (e.set path n) path where
  mask := rfl
  fds := rfl
  other _ hp _ := set_nodes_of_ne hp n
  dir hne := by rw [set_nodes_of_ne hne]

theorem modify_changed (e : Target) (path : CStr) (f : Node → Node) :
    Changed e (e.modify path f) path where
  mask := rfl
  fds := rfl
  other _ hp _ := modify_nodes_of_ne hp f
  dir hne := by rw [modify_nodes_of_ne hne]

theorem create_changed (e : Target) (path : CStr) (n : Node) : Changed e (e.create path n) path where
  mask := rfl
  fds := rfl
  other p hp hdir := by rw [create, set_nodes_of_ne hp, modify_nodes_of_ne hdir]
  dir hne := by
    rw [create, set_nodes_of_ne hne, modify_nodes]
    cases e.nodes (dirname path) <;> rfl

theorem Changed.refl (e : Target) (path : CStr) : Changed e e path :=
  ⟨rfl, rfl, fun _ _ _ => rfl, fun _ => rfl⟩

theorem putFile_changed (times preserve : Bool) (e : Target) (path : CStr) (sb : StatBuf)
    (data : List Char) : Changed e (e.putFile times preserve path sb data) path := by
  rw [putFile, place]
  split
  · exact set_changed _ _ _
  · exact create_changed _ _ _

theorem putFile_nodes (times preserve : Bool) (e : Target) (path : CStr) (sb : StatBuf)
    (data : List Char) : (e.putFile times preserve path sb data).nodes path =
      some { isDir := false, mode := fileMode preserve e.mask (e.nodes path) sb, data := data,
             times := if times then some (timesOf sb) else none } := by
  rw [putFile, place]
  cases e.nodes path with
  | some n => exact set_nodes _ _ _
  | none => exact set_nodes _ _ _

theorem enterDir_changed (preserve : Bool) (e : Target) (path : CStr) (sb : StatBuf) :
    Changed e (e.enterDir preserve path sb) path := by
  rw [enterDir]
  split
  · exact set_changed _ _ _
  · exact create_changed _ _ _

/-- A directory that was entered is there. -/
theorem enterDir_nodes (preserve : Bool) (sb : StatBuf) (hkind : e.kind path ≠ some .other) :
    ∃ n, (e.enterDir preserve path sb).nodes path = some n ∧ n.isDir = true ∧
      n.mode = dirMode preserve e.mask (e.nodes path) sb := by
  rw [enterDir]
  cases hnode : e.nodes path with
  | some n =>
      refine ⟨_, set_nodes _ _ _, ?_, rfl⟩
      cases hn : n.isDir with
      | true => rfl
      | false => exact absurd (by rw [kind, hnode, Option.map_some, hn]; rfl) hkind
  | none => exact ⟨_, set_nodes _ _ _, rfl, rfl⟩

theorem leaveDir_changed (times : Bool) (e : Target) (path : CStr) (sb : StatBuf) :
    Changed e (e.leaveDir times path sb) path := by
  rw [leaveDir]
  split
  · exact modify_changed _ _ _
  · exact .refl _ _

/-- What a node is does not depend on its times. -/
theorem kind_eq (h : (e'.nodes p).map Node.touched = (e.nodes p).map Node.touched) :
    e'.kind p = e.kind p := by
  have hkind : ∀ e : Target, e.kind p =
      ((e.nodes p).map Node.touched).map fun n => if n.isDir then .dir else .other := by
    intro e
    rw [kind, Option.map_map]
    rfl
  rw [hkind, hkind, h]

end Target

/-! ## All records of a listing -/

namespace Listing

def names : Listing → List CStr
  | .nil => []
  | .file _ name _ _ next => name :: next.names
  | .dir _ name _ _ next => name :: next.names

/-- The paths of the entries, those of the directories below included. -/
def paths : Listing → CStr → List CStr
  | .nil, _ => []
  | .file _ name _ _ next, dir => entryPath dir name :: next.paths dir
  | .dir _ name _ below next, targ =>
      entryPath targ name :: (below.paths (entryPath targ name) ++ next.paths targ)

/-- The entries of every directory have different names. -/
def Distinct : Listing → Prop
  | .nil => True
  | .file _ name _ _ next => name ∉ next.names ∧ next.Distinct
  | .dir _ name _ below next => name ∉ next.names ∧ below.Distinct ∧ next.Distinct

/-- No file is in the way of a directory, nor a directory of a file. -/
def Accepted (e : Target) : Listing → CStr → Prop
  | .nil, _ => True
  | .file _ name _ _ next, dir => e.kind (entryPath dir name) ≠ some .dir ∧ next.Accepted e dir
  | .dir _ name _ below next, targ => e.kind (entryPath targ name) ≠ some .other ∧
      below.Accepted e (entryPath targ name) ∧ next.Accepted e targ

/-- The file system behind the records for a directory. -/
def install (times preserve : Bool) : Listing → CStr → Target → Target
  | .nil, _, e => e
  | .file _ name sb data next, dir, e =>
      next.install times preserve dir (e.putFile times preserve (entryPath dir name) sb data)
  | .dir _ name sb below next, targ, e =>
      let path := entryPath targ name
      next.install times preserve targ
        ((below.install times preserve path (e.enterDir preserve path sb)).leaveDir times path sb)

/-- There is a copy of every entry: a file with its data, and both with the modes and times that are
preserved. -/
def Mirrored (times preserve : Bool) (before after : Target) : Listing → CStr → Prop
  | .nil, _ => True
  | .file _ name sb data next, dir =>
      let path := entryPath dir name
      after.nodes path = some
        { isDir := false, mode := fileMode preserve before.mask (before.nodes path) sb, data := data,
          times := if times then some (timesOf sb) else none } ∧
        next.Mirrored times preserve before after dir
  | .dir _ name sb below next, targ =>
      let path := entryPath targ name
      (∃ n, after.nodes path = some n ∧ n.isDir = true ∧
        n.mode = dirMode preserve before.mask (before.nodes path) sb ∧
        (times → n.times = some (timesOf sb))) ∧
        below.Mirrored times preserve before after path ∧
        next.Mirrored times preserve before after targ

variable {l : Listing}

theorem install_mask (l : Listing) (dir : CStr) (e : Target) :
    (l.install times preserve dir e).mask = e.mask := by
  induction l generalizing dir e with
  | nil => rfl
  | file _ name sb data next ih => exact (ih _ _).trans (Target.putFile_changed _ _ _ _ _ _).mask
  | dir _ name sb below next ihbelow ihnext =>
      exact (ihnext _ _).trans ((Target.leaveDir_changed _ _ _ _).mask.trans
        ((ihbelow _ _).trans (Target.enterDir_changed _ _ _ _).mask))

theorem install_fds (l : Listing) (dir : CStr) (e : Target) :
    (l.install times preserve dir e).fds = e.fds := by
  induction l generalizing dir e with
  | nil => rfl
  | file _ name sb data next ih => exact (ih _ _).trans (Target.putFile_changed _ _ _ _ _ _).fds
  | dir _ name sb below next ihbelow ihnext =>
      exact (ihnext _ _).trans ((Target.leaveDir_changed _ _ _ _).fds.trans
        ((ihbelow _ _).trans (Target.enterDir_changed _ _ _ _).fds))

/-- Nothing is changed but the entries and the directory itself, also not below the entries. -/
theorem install_other {ok : Bool} (hok : l.Ok ok) (hdir : dir ≠ []) (hp : p ≠ dir)
    (hpaths : p ∉ l.paths dir) : (l.install times preserve dir e).nodes p = e.nodes p := by
  induction l generalizing dir e with
  | nil => rfl
  | file _ name sb data next ih =>
      obtain ⟨hentry, -, hok⟩ := hok
      rw [paths, List.mem_cons, not_or] at hpaths
      have hparent := dirname_entryPath hdir hentry.slash
      rw [install, ih hok hdir hp hpaths.2]
      exact (Target.putFile_changed _ _ _ _ _ _).other p hpaths.1 (by rwa [hparent])
  | dir _ name sb below next ihbelow ihnext =>
      obtain ⟨hentry, hokbelow, hok⟩ := hok
      rw [paths, List.mem_cons, List.mem_append, not_or, not_or] at hpaths
      obtain ⟨hpath, hbelow, hnext⟩ := hpaths
      have hparent := dirname_entryPath hdir hentry.slash
      rw [install, ihnext hok hdir hp hnext,
        (Target.leaveDir_changed _ _ _ _).other p hpath (by rwa [hparent]),
        ihbelow hokbelow (entryPath_ne_nil hentry.notDot.1) hpath hbelow,
        (Target.enterDir_changed _ _ _ _).other p hpath (by rwa [hparent])]

/-- A path of a listing belongs to one of its entries. -/
theorem paths_under {ok : Bool} (hok : l.Ok ok) (hp : p ∈ l.paths dir) :
    ∃ name ∈ l.names, Under dir name p := by
  induction l generalizing dir with
  | nil => cases hp
  | file _ name sb data next ih =>
      rcases List.mem_cons.mp hp with rfl | hp
      · exact ⟨name, List.mem_cons_self, .entry dir name⟩
      · obtain ⟨name', hname', hunder⟩ := ih hok.2.2 hp
        exact ⟨name', List.mem_cons_of_mem _ hname', hunder⟩
  | dir _ name sb below next ihbelow ihnext =>
      rcases List.mem_cons.mp hp with rfl | hp
      · exact ⟨name, List.mem_cons_self, .entry dir name⟩
      rcases List.mem_append.mp hp with hp | hp
      · obtain ⟨name', -, hunder⟩ := ihbelow hok.2.1 hp
        exact ⟨name, List.mem_cons_self, hunder.below hok.1.notDot.1⟩
      · obtain ⟨name', hname', hunder⟩ := ihnext hok.2.2 hp
        exact ⟨name', List.mem_cons_of_mem _ hname', hunder⟩

/-- Nothing is changed but the entries and what is below them, and the directory itself. -/
theorem install_nodes {ok : Bool} (hok : l.Ok ok) (hdir : dir ≠ []) (hp : p ≠ dir)
    (hunder : ∀ name ∈ l.names, ¬ Under dir name p) :
    (l.install times preserve dir e).nodes p = e.nodes p := by
  apply install_other hok hdir hp
  intro hpaths
  obtain ⟨name, hname, h⟩ := paths_under hok hpaths
  exact hunder name hname h

/-- Of the directory itself only the times are changed. -/
theorem install_dir {ok : Bool} (hok : l.Ok ok) (hdir : dir ≠ []) :
    ((l.install times preserve dir e).nodes dir).map Node.touched =
      (e.nodes dir).map Node.touched := by
  induction l generalizing e with
  | nil => rfl
  | file _ name sb data next ih =>
      obtain ⟨hentry, -, hok⟩ := hok
      have hparent := dirname_entryPath hdir hentry.slash
      have hchanged := (Target.putFile_changed times preserve e (entryPath dir name) sb data).dir
      rw [hparent] at hchanged
      rw [install, ih hok, hchanged ((Under.entry dir name).ne_dir hdir).symm]
  | dir _ name sb below next _ ihnext =>
      obtain ⟨hentry, hokbelow, hok⟩ := hok
      have hparent := dirname_entryPath hdir hentry.slash
      have hne := ((Under.entry dir name).ne_dir hdir).symm
      have hleave := (Target.leaveDir_changed times (below.install times preserve
        (entryPath dir name) (e.enterDir preserve (entryPath dir name) sb)) (entryPath dir name)
          sb).dir
      have henter := (Target.enterDir_changed preserve e (entryPath dir name) sb).dir
      rw [hparent] at hleave henter
      rw [install, ihnext hok, hleave hne,
        install_nodes hokbelow (entryPath_ne_nil hentry.notDot.1) hne fun name' _ h =>
          (h.below hentry.notDot.1).ne_dir hdir rfl,
        henter hne]

/-- Two file systems agree on the entries of a listing and what is below them. -/
def Agree (l : Listing) (dir : CStr) (e e' : Target) : Prop :=
  ∀ name ∈ l.names, ∀ p, Under dir name p → e'.nodes p = e.nodes p

theorem Agree.kind {name : CStr} (h : l.Agree dir e e') (hname : name ∈ l.names) :
    e'.kind (entryPath dir name) = e.kind (entryPath dir name) := by
  rw [Target.kind, h name hname _ (.entry dir name), Target.kind]

theorem Agree.below {name : CStr} {below : Listing} (h : l.Agree dir e e') (hname : name ∈ l.names)
    (hne : name ≠ []) : below.Agree (entryPath dir name) e e' :=
  fun _ _ p hp => h name hname p (hp.below hne)

theorem Agree.trans {e'' : Target} (h : l.Agree dir e e') (h' : l.Agree dir e' e'') :
    l.Agree dir e e'' := fun name hname p hp => (h' name hname p hp).trans (h name hname p hp)

theorem Accepted.congr {ok : Bool} (hok : l.Ok ok) (h : l.Agree dir e e')
    (ha : l.Accepted e dir) : l.Accepted e' dir := by
  induction l generalizing dir with
  | nil => trivial
  | file path name sb data next ih =>
      refine ⟨?_, ih hok.2.2 (fun n hn => h n (List.mem_cons_of_mem _ hn)) ha.2⟩
      rw [h.kind List.mem_cons_self]
      exact ha.1
  | dir path name sb below next ihbelow ihnext =>
      refine ⟨?_, ihbelow hok.2.1 (h.below List.mem_cons_self hok.1.notDot.1) ha.2.1,
        ihnext hok.2.2 (fun n hn => h n (List.mem_cons_of_mem _ hn)) ha.2.2⟩
      rw [h.kind List.mem_cons_self]
      exact ha.1

theorem Mirrored.congr {ok : Bool} {f f' : Target} (hok : l.Ok ok) (hmask : e'.mask = e.mask)
    (hbefore : l.Agree dir e e') (hafter : l.Agree dir f f')
    (h : l.Mirrored times preserve e f dir) : l.Mirrored times preserve e' f' dir := by
  induction l generalizing dir with
  | nil => trivial
  | file path name sb data next ih =>
      refine ⟨?_, ih hok.2.2 (fun n hn => hbefore n (List.mem_cons_of_mem _ hn))
        (fun n hn => hafter n (List.mem_cons_of_mem _ hn)) h.2⟩
      rw [hafter name List.mem_cons_self _ (.entry dir name),
        hbefore name List.mem_cons_self _ (.entry dir name), hmask]
      exact h.1
  | dir path name sb below next ihbelow ihnext =>
      refine ⟨?_, ihbelow hok.2.1 (hbefore.below List.mem_cons_self hok.1.notDot.1)
        (hafter.below List.mem_cons_self hok.1.notDot.1) h.2.1,
        ihnext hok.2.2 (fun n hn => hbefore n (List.mem_cons_of_mem _ hn))
          (fun n hn => hafter n (List.mem_cons_of_mem _ hn)) h.2.2⟩
      rw [hafter name List.mem_cons_self _ (.entry dir name),
        hbefore name List.mem_cons_self _ (.entry dir name), hmask]
      exact h.1

theorem Agree.symm (h : l.Agree dir e e') : l.Agree dir e' e :=
  fun name hname p hp => (h name hname p hp).symm

theorem Ok.slash {ok : Bool} {name : CStr} (hok : l.Ok ok) (hname : name ∈ l.names) :
    '/' ∉ name := by
  induction l with
  | nil => cases hname
  | file _ n sb data next ih =>
      rcases List.mem_cons.mp hname with rfl | hname
      · exact hok.1.slash
      · exact ih hok.2.2 hname
  | dir _ n sb below next _ ih =>
      rcases List.mem_cons.mp hname with rfl | hname
      · exact hok.1.slash
      · exact ih hok.2.2 hname

/-- What belongs to one entry belongs to no other. -/
theorem Ok.not_under {ok : Bool} {name : CStr} (hok : l.Ok ok) (hdir : dir ≠ [])
    (hslash : '/' ∉ name) (hname : name ∉ l.names) (hp : Under dir name p) :
    ∀ name' ∈ l.names, ¬ Under dir name' p := by
  intro name' hname' hp'
  rw [hp.name_eq hdir hslash (hok.slash hname') hp'] at hname
  exact hname hname'

/-- What is done for one entry leaves the others. -/
theorem Ok.agree {ok : Bool} {name : CStr} (hok : l.Ok ok) (hdir : dir ≠ [])
    (hslash : '/' ∉ name) (hname : name ∉ l.names)
    (h : ∀ p, p ≠ dir → ¬ Under dir name p → e'.nodes p = e.nodes p) : l.Agree dir e e' := by
  intro name' hname' p hp
  exact h p (hp.ne_dir hdir) fun hp' => hok.not_under hdir hslash hname hp' name' hname' hp

theorem putFile_outside (hdir : dir ≠ []) (hslash : '/' ∉ name) (hp : p ≠ dir)
    (hunder : ¬ Under dir name p) :
    (e.putFile times preserve (entryPath dir name) sb data).nodes p = e.nodes p := by
  refine (Target.putFile_changed _ _ _ _ _ _).other p (fun heq => hunder (.inl heq)) ?_
  rwa [dirname_entryPath hdir hslash]

theorem enterDir_outside (hdir : dir ≠ []) (hslash : '/' ∉ name) (hp : p ≠ dir)
    (hpath : p ≠ entryPath dir name) :
    (e.enterDir preserve (entryPath dir name) sb).nodes p = e.nodes p := by
  refine (Target.enterDir_changed _ _ _ _).other p hpath ?_
  rwa [dirname_entryPath hdir hslash]

theorem leaveDir_outside (hdir : dir ≠ []) (hslash : '/' ∉ name) (hp : p ≠ dir)
    (hpath : p ≠ entryPath dir name) :
    (e.leaveDir times (entryPath dir name) sb).nodes p = e.nodes p := by
  refine (Target.leaveDir_changed _ _ _ _).other p hpath ?_
  rwa [dirname_entryPath hdir hslash]

/-- A directory with its entries. -/
def installDir (times preserve : Bool) (below : Listing) (path : CStr) (sb : StatBuf) (e : Target) :
    Target := (below.install times preserve path (e.enterDir preserve path sb)).leaveDir times path sb

variable {below : Listing} {ok : Bool}

theorem installDir_mask : (installDir times preserve below path sb e).mask = e.mask := by
  rw [installDir, (Target.leaveDir_changed _ _ _ _).mask, install_mask,
    (Target.enterDir_changed _ _ _ _).mask]

theorem installDir_outside (hok : below.Ok ok) (hdir : dir ≠ []) (hslash : '/' ∉ name)
    (hname : name ≠ []) (hp : p ≠ dir) (hunder : ¬ Under dir name p) :
    (installDir times preserve below (entryPath dir name) sb e).nodes p = e.nodes p := by
  have hpath : p ≠ entryPath dir name := fun heq => hunder (.inl heq)
  rw [installDir, leaveDir_outside hdir hslash hp hpath,
    install_nodes hok (entryPath_ne_nil hname) hpath fun _ _ h => hunder (h.below hname),
    enterDir_outside hdir hslash hp hpath]

/-- Below the directory the entries are as `install` leaves them. -/
theorem installDir_below (hdir : dir ≠ []) (hslash : '/' ∉ name) (hname : name ≠ []) :
    below.Agree (entryPath dir name)
      (below.install times preserve (entryPath dir name)
        (e.enterDir preserve (entryPath dir name) sb))
      (installDir times preserve below (entryPath dir name) sb e) := by
  intro name' _ p hp
  exact leaveDir_outside hdir hslash ((hp.below hname).ne_dir hdir)
    (hp.ne_dir (entryPath_ne_nil hname))

theorem installDir_node (hok : below.Ok ok) (hname : name ≠ [])
    (hkind : e.kind (entryPath dir name) ≠ some .other) :
    ∃ n, (installDir times preserve below (entryPath dir name) sb e).nodes (entryPath dir name) =
        some n ∧ n.isDir = true ∧
      n.mode = dirMode preserve e.mask (e.nodes (entryPath dir name)) sb ∧
      (times → n.times = some (timesOf sb)) := by
  obtain ⟨n, hn, hisDir, hmode⟩ := Target.enterDir_nodes preserve sb hkind
  have hpath : entryPath dir name ≠ [] := entryPath_ne_nil hname
  have hinstall : ((below.install times preserve (entryPath dir name)
      (e.enterDir preserve (entryPath dir name) sb)).nodes (entryPath dir name)).map Node.touched =
        _ := install_dir hok hpath
  rw [hn, Option.map_some] at hinstall
  obtain ⟨n', hn', htouched⟩ := Option.map_eq_some_iff.mp hinstall
  have hsame : n'.isDir = n.isDir ∧ n'.mode = n.mode :=
    ⟨(Node.mk.inj htouched).1, (Node.mk.inj htouched).2.1⟩
  rw [installDir, Target.leaveDir]
  cases times with
  | true =>
      rw [if_pos rfl, Target.modify_nodes, hn']
      exact ⟨_, rfl, hsame.1.trans hisDir, hsame.2.trans hmode, fun _ => rfl⟩
  | false =>
      rw [if_neg (by decide)]
      exact ⟨n', hn', hsame.1.trans hisDir, hsame.2.trans hmode, nofun⟩

/-- The file system behind all records holds a copy of the files. -/
theorem install_mirrored (hok : l.Ok ok) (hdir : dir ≠ []) (hdistinct : l.Distinct)
    (hacc : l.Accepted e dir) :
    l.Mirrored times preserve e (l.install times preserve dir e) dir := by
  induction l generalizing dir e with
  | nil => trivial
  | file _ name sb data next ih =>
      obtain ⟨hentry, -, hok⟩ := hok
      obtain ⟨hname, hdistinct⟩ := hdistinct
      have hagree : next.Agree dir e (e.putFile times preserve (entryPath dir name) sb data) :=
        hok.agree hdir hentry.slash hname fun p hp hunder =>
          putFile_outside hdir hentry.slash hp hunder
      have hnode : (next.install times preserve dir (e.putFile times preserve (entryPath dir name) sb
          data)).nodes (entryPath dir name) = _ :=
        install_nodes hok hdir ((Under.entry dir name).ne_dir hdir)
          (hok.not_under hdir hentry.slash hname (.entry dir name))
      refine ⟨hnode.trans (Target.putFile_nodes _ _ _ _ _ _), ?_⟩
      have hrest := ih hok hdir hdistinct (hacc.2.congr hok hagree)
      exact hrest.congr hok (Target.putFile_changed _ _ _ _ _ _).mask.symm hagree.symm
        fun _ _ _ _ => rfl
  | dir _ name sb below next ihbelow ihnext =>
      obtain ⟨hentry, hokbelow, hok⟩ := hok
      obtain ⟨hname, hdistinctbelow, hdistinct⟩ := hdistinct
      obtain ⟨hkind, haccbelow, haccnext⟩ := hacc
      have hne := hentry.notDot.1
      have hpath : entryPath dir name ≠ [] := entryPath_ne_nil hne
      have hagree : next.Agree dir e (installDir times preserve below (entryPath dir name) sb e) :=
        hok.agree hdir hentry.slash hname fun p hp hunder =>
          installDir_outside hokbelow hdir hentry.slash hne hp hunder
      -- what belongs to this entry is left by the others
      have hkept : ∀ p, Under dir name p →
          (next.install times preserve dir
            (installDir times preserve below (entryPath dir name) sb e)).nodes p =
            (installDir times preserve below (entryPath dir name) sb e).nodes p := fun p hp =>
        install_nodes hok hdir (hp.ne_dir hdir) (hok.not_under hdir hentry.slash hname hp)
      refine ⟨?_, ?_, ?_⟩
      · have hnode := @installDir_node e dir name sb times preserve below ok hokbelow hne hkind
        rw [← hkept _ (.entry dir name)] at hnode
        exact hnode
      · have henter : below.Agree (entryPath dir name) e
            (e.enterDir preserve (entryPath dir name) sb) := fun _ _ p hp =>
          enterDir_outside hdir hentry.slash ((hp.below hne).ne_dir hdir) (hp.ne_dir hpath)
        have hbelow := ihbelow hokbelow hpath hdistinctbelow (haccbelow.congr hokbelow henter)
        refine hbelow.congr hokbelow (Target.enterDir_changed _ _ _ _).mask.symm henter.symm ?_
        refine (installDir_below hdir hentry.slash hne).trans fun name' _ p hp => ?_
        exact hkept p (hp.below hne)
      · have hrest := ihnext hok hdir hdistinct (haccnext.congr hok hagree)
        exact hrest.congr hok installDir_mask.symm hagree.symm fun _ _ _ _ => rfl

end Listing

end Pdsh.Pcp
