import Pdsh.Lib.Run
import Pdsh.Lib.Session
import Pdsh.Pcp.Record

/-!
# The files of a copy

`pcp_expand_dirs` replaces each directory by the files below it: the entries of a directory follow
it in the order `readdir` gives them, and `EXIT_SUBDIR_FILENAME` follows the last. A `Listing` is
the tree that is read off in this way, each entry with the path the client opens and the name it
sends; `Listing.files` is the list that `pcp_client` goes through, and `Listing.script` are the bytes
it exchanges for it with a server that takes every record.
-/

namespace Pdsh.Pcp

open Lib Lib.Decimal Lib.Process

/-- `MAXPATHNAMELEN`. -/
def MAXPATHNAMELEN : Nat := 4096

/-- What the client finds in its file system. -/
structure SourceFs where
  stat : CStr → Option StatBuf
  /-- `access (path, R_OK)`. -/
  access : CStr → Bool
  /-- The `d_ino` and `d_name` of the entries, none when `opendir` fails. -/
  readdir : CStr → Option (List (Nat × CStr))
  data : CStr → List Char

/-- A message of `errx`, by its format and the path in it. -/
structure Errx where
  format : String
  path : CStr
deriving DecidableEq, Repr

/-! ## Expansion -/

/-- The loop of `_rexpand_dir` over the entries of the directory `name`. -/
def rexpandEntries (fs : SourceFs) (rexpand : CStr → Run Errx (List PcpFilename)) (name : CStr) :
    List (Nat × CStr) → Run Errx (List PcpFilename)
  | [] => return []
  | dp :: dir => do
    if dp.1 = 0 then rexpandEntries fs rexpand name dir
    else if dp.2 = ".".toList ∨ dp.2 = "..".toList then rexpandEntries fs rexpand name dir
    else
      let file := snprintf MAXPATHNAMELEN (name ++ '/' :: dp.2)
      match fs.stat file with
      | none => .exit ⟨"%p: can't stat %s: %m\n", file⟩
      | some sb =>
        if ¬ fs.access name then .exit ⟨"%p: access: %s: %m\n", name⟩
        else if ¬ sb.isDir ∧ ¬ sb.isReg then
          .exit ⟨"%p: not a regular file or directory: %s\n", file⟩
        else
          let below ← if sb.isDir then rexpand file else pure []
          let more ← rexpandEntries fs rexpand name dir
          return ⟨file, false⟩ :: below ++ more

/-- `_rexpand_dir`: what it appends to the list. The recursion is unrolled to `depth` levels. -/
def rexpandDir (fs : SourceFs) : Nat → CStr → Run Errx (List PcpFilename)
  | 0, _ => .hang
  | depth + 1, name =>
    match fs.readdir name with
    | none => .exit ⟨"%p: opendir: %s: %m\n", name⟩
    | some dir => do
      let list ← rexpandEntries fs (rexpandDir fs depth) name dir
      return list ++ [⟨EXIT_SUBDIR_FILENAME, false⟩]

/-- `pcp_expand_dirs`. -/
def pcpExpandDirs (fs : SourceFs) (depth : Nat) : List CStr → Run Errx (List PcpFilename)
  | [] => return []
  | name :: infiles =>
    if ¬ fs.access name then .exit ⟨"%p: access: %s: %m\n", name⟩
    else match fs.stat name with
    | none => .exit ⟨"%p: stat: %s: %m\n", name⟩
    | some sb => do
      let below ← if sb.isDir then rexpandDir fs depth name else pure []
      let more ← pcpExpandDirs fs depth infiles
      return ⟨name, true⟩ :: below ++ more

/-! ## Trees of files -/

/-- The entries of a directory in their order, or the files of a command, with what is below each. -/
inductive Listing where
  | nil
  | file (path name : CStr) (sb : StatBuf) (data : List Char) (next : Listing)
  | dir (path name : CStr) (sb : StatBuf) (below next : Listing)

namespace Listing

/-- The levels below. -/
def depth : Listing → Nat
  | nil => 0
  | file _ _ _ _ next => next.depth
  | dir _ _ _ below next => max (below.depth + 1) next.depth

/-- What `pcp_client` goes through. -/
def files (user : Bool) : Listing → List PcpFilename
  | nil => []
  | file path _ _ _ next => ⟨path, user⟩ :: next.files user
  | dir path _ _ below next =>
      ⟨path, user⟩ :: (below.files false ++ [⟨EXIT_SUBDIR_FILENAME, false⟩]) ++ next.files user

end Listing

/-- The entries that `_rexpand_dir` passes over. -/
def Skipped (dp : Nat × CStr) : Prop := dp.1 = 0 ∨ dp.2 = ".".toList ∨ dp.2 = "..".toList

instance (dp : Nat × CStr) : Decidable (Skipped dp) := inferInstanceAs (Decidable (_ ∨ _))

/-- The entries of a directory that `_rexpand_dir` goes through. -/
def SourceFs.entries (fs : SourceFs) (path : CStr) : Option (List CStr) :=
  (fs.readdir path).map fun dir =>
    (dir.filter fun dp => ¬ Skipped dp).map Prod.snd

/-- The path of an entry of a directory, and the name that is sent for it. -/
def entryOf (dir name : CStr) : CStr × CStr :=
  let file := snprintf MAXPATHNAMELEN (dir ++ '/' :: name)
  (file, xbasename file)

/-- The file system shows the listing: the paths and names are `found`, and there is under each path
what the listing says. -/
def Listing.Shown (fs : SourceFs) : Listing → List (CStr × CStr) → Prop
  | .nil, found => found = []
  | .file path name sb data next, found => ∃ more, found = (path, name) :: more ∧
      fs.stat path = some sb ∧ sb.isReg ∧ fs.access path ∧ fs.data path = data ∧ next.Shown fs more
  | .dir path name sb below next, found => ∃ more names, found = (path, name) :: more ∧
      fs.stat path = some sb ∧ sb.isDir ∧ fs.access path ∧ fs.entries path = some names ∧
        below.Shown fs (names.map (entryOf path)) ∧ next.Shown fs more

/-- A file is not a directory. -/
theorem StatBuf.not_isDir {sb : StatBuf} (h : sb.isReg) : sb.isDir = false := by
  simp only [StatBuf.isReg, StatBuf.isDir, decide_eq_true_eq, decide_eq_false_iff_not] at h ⊢
  rw [h]
  decide

theorem rexpandEntries_skipped {fs : SourceFs} {rexpand : CStr → Run Errx (List PcpFilename)}
    {name : CStr} {dp : Nat × CStr} (hdp : Skipped dp) (dir : List (Nat × CStr)) :
    rexpandEntries fs rexpand name (dp :: dir) = rexpandEntries fs rexpand name dir := by
  rw [rexpandEntries]
  by_cases hino : dp.1 = 0
  · rw [if_pos hino]
  · rw [if_neg hino, if_pos (hdp.resolve_left hino)]

theorem rexpandEntries_filter (fs : SourceFs) (rexpand : CStr → Run Errx (List PcpFilename))
    (name : CStr) (dir : List (Nat × CStr)) :
    rexpandEntries fs rexpand name dir =
      rexpandEntries fs rexpand name (dir.filter fun dp => ¬ Skipped dp) := by
  induction dir with
  | nil => rfl
  | cons dp dir ih =>
      by_cases hdp : Skipped dp
      · rw [rexpandEntries_skipped hdp, List.filter_cons_of_neg (by simpa using hdp), ih]
      · rw [List.filter_cons_of_pos (by simpa using hdp), rexpandEntries, rexpandEntries, ih]

/-- One entry of a directory. -/
theorem rexpandEntries_cons {fs : SourceFs} {rexpand : CStr → Run Errx (List PcpFilename)}
    {name : CStr} {dp : Nat × CStr} {dir : List (Nat × CStr)} {sb : StatBuf}
    (hdp : ¬ Skipped dp) (haccess : fs.access name)
    (hstat : fs.stat (entryOf name dp.2).1 = some sb) (hkind : sb.isDir ∨ sb.isReg) :
    rexpandEntries fs rexpand name (dp :: dir) = (do
      let below ← if sb.isDir then rexpand (entryOf name dp.2).1 else pure []
      let more ← rexpandEntries fs rexpand name dir
      return ⟨(entryOf name dp.2).1, false⟩ :: below ++ more) := by
  obtain ⟨hino, hdot⟩ := not_or.mp hdp
  have hkind' : ¬ (¬ sb.isDir = true ∧ ¬ sb.isReg = true) := by
    rw [not_and_or, not_not, not_not]
    exact hkind
  rw [rexpandEntries, if_neg hino, if_neg hdot]
  dsimp only [entryOf] at hstat ⊢
  rw [hstat]
  dsimp only
  rw [if_neg (not_not.mpr haccess), if_neg hkind']

/-- The entries of a directory, with what is below them. -/
theorem rexpandDir_shown {fs : SourceFs} {l : Listing} {path : CStr} {names : List CStr}
    {depth : Nat} (hentries : fs.entries path = some names) (haccess : fs.access path)
    (hl : l.Shown fs (names.map (entryOf path))) (hdepth : l.depth < depth) :
    rexpandDir fs depth path = .ret (l.files false ++ [⟨EXIT_SUBDIR_FILENAME, false⟩]) := by
  induction depth generalizing l path names with
  | zero => omega
  | succ depth ih =>
    obtain ⟨dir, hdir, rfl⟩ := Option.map_eq_some_iff.mp hentries
    rw [rexpandDir, hdir]
    dsimp only
    rw [rexpandEntries_filter]
    have hkept : ∀ dp ∈ dir.filter fun dp => ¬ Skipped dp, ¬ Skipped dp := fun dp hdp => by
      simpa using (List.mem_filter.mp hdp).2
    generalize (dir.filter fun dp => ¬ Skipped dp) = kept at hl hkept
    have hlist : rexpandEntries fs (rexpandDir fs depth) path kept = .ret (l.files false) := by
      clear hentries hdir
      induction kept generalizing l with
      | nil =>
          cases l with
          | nil => rfl
          | file => obtain ⟨more, hmore, -⟩ := hl; cases hmore
          | dir => obtain ⟨more, names, hmore, -⟩ := hl; cases hmore
      | cons dp kept ihkept =>
          have hdp := hkept dp List.mem_cons_self
          have hkept' := fun x hx => hkept x (List.mem_cons_of_mem dp hx)
          cases l with
          | nil => cases hl
          | file fpath fname sb data next =>
              obtain ⟨more, hmore, hstat, hreg, -, -, hnext⟩ := hl
              obtain ⟨hhead, rfl⟩ := List.cons.inj hmore
              obtain rfl : (entryOf path dp.2).1 = fpath := congrArg Prod.fst hhead
              rw [rexpandEntries_cons hdp haccess hstat (.inr hreg), StatBuf.not_isDir hreg]
              simp only [Bool.false_eq_true, if_false]
              rw [Listing.depth] at hdepth
              rw [ihkept hdepth hnext hkept']
              rfl
          | dir fpath fname sb below next =>
              obtain ⟨more, names, hmore, hstat, hisdir, hacc, hnames, hbelow, hnext⟩ := hl
              obtain ⟨hhead, rfl⟩ := List.cons.inj hmore
              obtain rfl : (entryOf path dp.2).1 = fpath := congrArg Prod.fst hhead
              rw [Listing.depth] at hdepth
              rw [rexpandEntries_cons hdp haccess hstat (.inl hisdir), if_pos hisdir,
                ih hnames hacc hbelow (by omega), ihkept (by omega) hnext hkept']
              rfl
    rw [hlist]
    rfl

/-- The files of a command, each with the files below it. -/
theorem pcpExpandDirs_shown {fs : SourceFs} {nameOf : CStr → CStr} {l : Listing}
    {infiles : List CStr} {depth : Nat} (haccess : ∀ name ∈ infiles, fs.access name)
    (hl : l.Shown fs (infiles.map fun name => (name, nameOf name))) (hdepth : l.depth ≤ depth) :
    pcpExpandDirs fs depth infiles = .ret (l.files true) := by
  induction infiles generalizing l with
  | nil =>
      cases l with
      | nil => rfl
      | file => obtain ⟨more, hmore, -⟩ := hl; cases hmore
      | dir => obtain ⟨more, names, hmore, -⟩ := hl; cases hmore
  | cons name infiles ih =>
      have hacc := haccess name List.mem_cons_self
      have hrest := fun x hx => haccess x (List.mem_cons_of_mem name hx)
      rw [pcpExpandDirs, if_neg (not_not.mpr hacc)]
      cases l with
      | nil => cases hl
      | file path fname sb data next =>
          obtain ⟨more, hmore, hstat, hreg, -, -, hnext⟩ := hl
          obtain ⟨hhead, rfl⟩ := List.cons.inj hmore
          obtain rfl : name = path := congrArg Prod.fst hhead
          simp only [hstat, StatBuf.not_isDir hreg, Bool.false_eq_true, if_false]
          rw [ih hrest hnext hdepth]
          rfl
      | dir path fname sb below next =>
          obtain ⟨more, names, hmore, hstat, hisdir, -, hnames, hbelow, hnext⟩ := hl
          obtain ⟨hhead, rfl⟩ := List.cons.inj hmore
          obtain rfl : name = path := congrArg Prod.fst hhead
          rw [Listing.depth] at hdepth
          simp only [hstat, hisdir, if_true]
          rw [rexpandDir_shown hnames hacc hbelow (by omega), ih hrest hnext (by omega)]
          rfl

end Pdsh.Pcp
