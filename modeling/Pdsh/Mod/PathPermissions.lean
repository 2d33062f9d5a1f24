import Pdsh.Err
import Pdsh.Lib.Memory

/-!
# The module directory must be safe

`_path_permissions_ok` looks at the module directory and at all directories above
it, by appending `/..` to the path in its buffer until `stat` finds the root. It
knows the root by its device and inode. Where a directory is not safe it asks for
the name of the directory, and ends the process when there is no way into it.

What `stat` says comes from a file system in which every path leads to a node, if
it leads anywhere, and `..` to the parent of a directory. That device and inode
tell one node from another (`FileSystem.inode`) is taken from `stat`.
-/

namespace Pdsh.Mod

open Lib Lib.Memory

/-- `MAXPATHLEN`. -/
def MAXPATHLEN : Nat := 4096

/-- `struct stat`, as far as it is read. -/
structure PathStat where
  st_dev : UInt64
  st_ino : UInt64
  st_mode : UInt32
  st_uid : UInt32
deriving DecidableEq, Repr

/-- `S_ISDIR`. -/
def PathStat.isDir (st : PathStat) : Bool := st.st_mode &&& 0xF000 = 0x4000

/-- `perm_error_t`. -/
inductive PermError where
  | ok
  | notDirectory
  | badOwner
  | worldWritable
deriving DecidableEq, Repr

/-- `_dir_permission_error`, for the calling user `uid`. -/
def dirPermissionError (uid : UInt32) (st : PathStat) (alt_uid : UInt32) : PermError :=
  if ¬ st.isDir then .notDirectory
  else if st.st_uid ≠ 0 ∧ st.st_uid ≠ uid ∧ st.st_uid ≠ alt_uid then .badOwner
  else if st.st_mode &&& 2 ≠ 0 ∧ st.st_mode &&& 0x200 = 0 then .worldWritable
  else .ok

/-- `strncpy` to the place `off` of a buffer. -/
def strncpy (m : Mem) (off : Nat) (src : CStr) (n : Nat) : Mem :=
  write m off (src.take n ++ List.replicate (n - src.length) NUL)

/-- The string in a buffer of `size` bytes. -/
def stringOf (size : Nat) (m : Mem) : CStr := (text m 0 size).takeWhile (· ≠ NUL)

/-- The string in `dirbuf`. -/
def dirbufString (m : Mem) : CStr := stringOf (MAXPATHLEN + 1) m

/-- What the calls on the working directory answer. -/
structure Cwd where
  /-- `getcwd` in the directory of the process, into so many bytes, succeeds -/
  orig : Nat → Bool
  /-- `chdir` to the path succeeds -/
  chdir : CStr → Bool
  /-- `getcwd` in the directory of the path, into so many bytes -/
  getcwd : CStr → Nat → Option CStr

/-- The loop of `_get_dir_name`, with the size of `orig_path`. -/
def origPathLoop (getcwd : Nat → Bool) : Nat → (pathlen : Nat) → Proc Nat
  | 0, _ => .hang
  | fuel + 1, pathlen =>
      if ¬ getcwd pathlen ∧ pathlen < MAXPATHLEN * 2 then origPathLoop getcwd fuel (pathlen * 2)
      else .ret pathlen

/-- `_get_dir_name`. The way back to the old directory may fail. -/
def getDirName (cwd : Cwd) (path : CStr) (len : Nat) : Proc CStr := do
  let _ ← origPathLoop cwd.orig (MAXPATHLEN * 2) 256
  if ¬ cwd.chdir path then .exit (.chdir path)
  else
    match cwd.getcwd path len with
    | none => .exit (.getcwd path)
    | some buf => .ret buf

/-- The loop of `_path_permissions_ok`, with the memory from `dirbuf` on. The name of a directory
that is not safe only goes into a message. -/
def permissionsLoop (stat : CStr → Option PathStat) (cwd : Cwd) (uid pdsh_owner : UInt32) (root : PathStat) :
    Nat → (m : Mem) → (pos : Nat) → Proc Bool × Mem
  | 0, m, _ => (.hang, m)
  | fuel + 1, m, pos =>
      match stat (dirbufString m) with
      | none => (.ret false, m)
      | some st =>
          if dirPermissionError uid st pdsh_owner ≠ .ok then
            (getDirName cwd (dirbufString m) MAXPATHLEN >>= fun _ => .ret false, m)
          else if pos > MAXPATHLEN - 3 then (.ret false, m)
          else
            let m := strncpy m pos "/..".toList 4
            if st.st_ino = root.st_ino ∧ st.st_dev = root.st_dev then (.ret true, m)
            else permissionsLoop stat cwd uid pdsh_owner root fuel m (pos + 3)

/-- `_path_permissions_ok`: its answer, or the end of the process, and the memory it leaves. -/
def pathPermissionsOk (stat : CStr → Option PathStat) (cwd : Cwd) (uid pdsh_owner : UInt32) (dir : CStr)
    (m : Mem) : Proc Bool × Mem :=
  match stat "/".toList with
  | none => (.ret false, m)
  | some root =>
      let m := setByte (strncpy m 0 dir MAXPATHLEN) MAXPATHLEN NUL
      permissionsLoop stat cwd uid pdsh_owner root MAXPATHLEN m (dirbufString m).length

/-! ## The file system -/

/-- Nodes with their attributes, and where paths lead. -/
structure FileSystem (Node : Type) where
  root : Node
  parent : Node → Node
  attr : Node → PathStat
  resolve : CStr → Option Node
  resolve_root : ∀ d, resolve "/".toList = some d → d = root
  resolve_parent : ∀ path d d', resolve path = some d → (attr d).isDir →
    resolve (path ++ "/..".toList) = some d' → d' = parent d
  /-- what `stat` promises of a device and an inode -/
  inode : ∀ d d', (attr d).st_ino = (attr d').st_ino → (attr d).st_dev = (attr d').st_dev → d = d'

variable {Node : Type}

/-- `stat`. -/
def FileSystem.stat (fs : FileSystem Node) (path : CStr) : Option PathStat := (fs.resolve path).map fs.attr

/-- A directory that nobody but root, the user and the owner of pdsh can put a file into. -/
structure Trusted (uid pdsh_owner : UInt32) (st : PathStat) : Prop where
  isDir : st.isDir = true
  owner : st.st_uid = 0 ∨ st.st_uid = uid ∨ st.st_uid = pdsh_owner
  sticky : st.st_mode &&& 2 ≠ 0 → st.st_mode &&& 0x200 ≠ 0

theorem trusted_iff {uid pdsh_owner : UInt32} {st : PathStat} :
    dirPermissionError uid st pdsh_owner = .ok ↔ Trusted uid pdsh_owner st := by
  unfold dirPermissionError
  constructor
  · intro h
    split at h
    · cases h
    · rename_i hdir
      split at h
      · cases h
      · rename_i howner
        split at h
        · cases h
        · rename_i hsticky
          exact ⟨by simpa using hdir, by tauto, by tauto⟩
  · rintro ⟨hdir, howner, hsticky⟩
    rw [if_neg (by simp [hdir]), if_neg (by tauto), if_neg (by tauto)]

/-! ## The buffer -/

variable {m m' : Mem} {s : CStr} {size : Nat}

/-- Up to its NUL. -/
theorem text_stringOf (h : (stringOf size m).length < size) :
    text m 0 ((stringOf size m).length + 1) = stringOf size m ++ [NUL] := by
  have hsplit : stringOf size m ++ (text m 0 size).dropWhile (fun c => decide (c ≠ NUL)) = text m 0 size :=
    List.takeWhile_append_dropWhile
  have hhead := List.head?_dropWhile_not (fun c => decide (c ≠ NUL)) (text m 0 size)
  cases hrest : (text m 0 size).dropWhile fun c => decide (c ≠ NUL) with
  | nil =>
      have hlen := congrArg List.length hsplit
      rw [hrest, List.append_nil, length_text] at hlen
      omega
  | cons c rest =>
      rw [hrest] at hhead
      have hc : c = NUL := by simpa using hhead
      rw [hrest, hc] at hsplit
      have hcut : size = (stringOf size m).length + 1 + (size - (stringOf size m).length - 1) := by omega
      have hwhole : text m 0 ((stringOf size m).length + 1) ++
          text m (0 + ((stringOf size m).length + 1)) (size - (stringOf size m).length - 1) =
          (stringOf size m ++ [NUL]) ++ rest := by
        rw [← text_add, ← hcut, ← hsplit, List.append_assoc]
        rfl
      exact List.append_inj_left hwhole (by simp)

theorem stringOf_eq (htext : text m 0 (s.length + 1) = s ++ [NUL]) (hnul : NUL ∉ s) (hlen : s.length < size) :
    stringOf size m = s := by
  have hcut : size = s.length + 1 + (size - s.length - 1) := by omega
  rw [stringOf, hcut, text_add, htext, List.append_assoc, List.takeWhile_append_of_pos]
  · simp
  · intro c hc
    rw [decide_eq_true_eq]
    rintro rfl
    exact hnul hc

theorem not_nul_stringOf : NUL ∉ stringOf size m := by
  intro h
  have hne := List.mem_takeWhile_imp h
  simp at hne

/-- Appending `/..`. -/
theorem stringOf_parent (hlen : (stringOf size m).length + 3 < size) :
    stringOf size (strncpy m (stringOf size m).length "/..".toList 4) = stringOf size m ++ "/..".toList := by
  have hold := @text_stringOf m size (by omega)
  have hfront : text m 0 (stringOf size m).length = stringOf size m := by
    rw [text_add] at hold
    exact List.append_inj_left hold (by simp)
  have hprints : Prints m 0 (stringOf size m ++ ("/..".toList ++ [NUL]))
      (strncpy m (stringOf size m).length "/..".toList 4) := by
    have hsame : Prints m 0 (stringOf size m) m := ⟨fun _ _ => rfl, hfront⟩
    refine hsame.trans ?_
    rw [Nat.zero_add]
    exact prints_write
  refine stringOf_eq ?_ ?_ ?_
  · have htext := hprints.text
    rw [← List.append_assoc] at htext
    rw [← htext]
    congr 1
    simp
  · rw [List.mem_append, not_or]
    exact ⟨not_nul_stringOf, by decide⟩
  · rw [List.length_append]
    exact hlen

/-- What `strncpy` and the terminator leave of the directory. -/
theorem stringOf_strncpy (hnul : NUL ∉ s) (n : Nat) :
    stringOf (n + 1) (setByte (strncpy m 0 s n) n NUL) = s.take n := by
  have hprints : Prints m 0 ((s.take n ++ List.replicate (n - s.length) NUL) ++ [NUL])
      (setByte (strncpy m 0 s n) n NUL) := by
    refine Prints.trans prints_write ?_
    have hlen : 0 + (s.take n ++ List.replicate (n - s.length) NUL).length = n := by
      rw [List.length_append, List.length_take, List.length_replicate]
      omega
    rw [hlen]
    exact prints_setByte
  have htext := hprints.text
  have hlen : (s.take n ++ List.replicate (n - s.length) NUL ++ [NUL]).length = n + 1 := by
    rw [List.length_append, List.length_append, List.length_take, List.length_replicate, List.length_singleton]
    omega
  rw [hlen] at htext
  rw [stringOf, htext, List.append_assoc, List.takeWhile_append_of_pos]
  · cases n - s.length with
    | zero => simp
    | succ k => simp [List.replicate_succ]
  · intro c hc
    rw [decide_eq_true_eq]
    rintro rfl
    exact hnul (List.mem_of_mem_take hc)

/-! ## The walk to the root -/

variable {uid pdsh_owner : UInt32} {fs : FileSystem Node} {cwd : Cwd} {d root : Node}

/-- Looking for a size of `orig_path` comes to an end. -/
theorem origPathLoop_ret {getcwd : Nat → Bool} {fuel pathlen : Nat} (hpos : 0 < pathlen) (hmore : 0 < fuel)
    (hfuel : MAXPATHLEN * 2 < pathlen + fuel) : ∃ n, origPathLoop getcwd fuel pathlen = .ret n := by
  induction fuel generalizing pathlen with
  | zero => omega
  | succ fuel ih =>
      rw [origPathLoop]
      split
      · exact ih (by omega) (by omega) (by omega)
      · exact ⟨pathlen, rfl⟩

/-- `_get_dir_name` gives a name or ends the process. -/
theorem getDirName_ends (cwd : Cwd) (path : CStr) (len : Nat) : (getDirName cwd path len).Ends := by
  obtain ⟨n, hn⟩ := @origPathLoop_ret cwd.orig (MAXPATHLEN * 2) 256 (by decide) (by decide) (by decide)
  rw [getDirName, hn, Run.ret_bind]
  split
  · exact fun h => by cases h
  · split <;> exact fun h => by cases h

/-- The loop ends, stays in the buffer and says yes only when it came to the root. -/
theorem permissionsLoop_sound {fuel : Nat} {m : Mem} {pos : Nat}
    (hfuel : MAXPATHLEN < pos + 3 * fuel) (hpos : pos = (dirbufString m).length) (hlen : pos ≤ MAXPATHLEN) :
    ∃ answer m', permissionsLoop fs.stat cwd uid pdsh_owner (fs.attr root) fuel m pos = (answer, m') ∧
      answer.Ends ∧ Within 0 (MAXPATHLEN + 1) m m' ∧
      (answer = .ret true → pos ≤ MAXPATHLEN - 3 ∧ ∃ d, fs.resolve (dirbufString m) = some d ∧
        ∃ n, fs.parent^[n] d = root ∧ ∀ k ≤ n, Trusted uid pdsh_owner (fs.attr (fs.parent^[k] d))) := by
  have hbound : MAXPATHLEN = 4096 := rfl
  have hreturns : ∀ b : Bool, (Run.ret b : Proc Bool).Ends := fun b h => by cases h
  -- each round makes the path longer by three, until there is no room for more
  induction fuel generalizing m pos with
  | zero => omega
  | succ fuel ih =>
      rw [permissionsLoop]
      cases hstat : fs.stat (dirbufString m) with
      | none => exact ⟨.ret false, m, rfl, hreturns _, Within.refl _ _ _, by simp⟩
      | some st =>
          obtain ⟨d, hresolve, rfl⟩ := Option.map_eq_some_iff.mp hstat
          simp only
          split
          · refine ⟨_, m, rfl, ?_, Within.refl _ _ _, fun hyes => ?_⟩
            · exact (getDirName_ends _ _ _).bind fun _ _ => hreturns _
            · -- the name of the directory does not make it safe
              obtain ⟨_, -, hno⟩ := Run.bind_eq_ret_iff.mp hyes
              cases hno
          · rename_i htrusted
            rw [ne_eq, not_not, trusted_iff] at htrusted
            split
            · exact ⟨.ret false, m, rfl, hreturns _, Within.refl _ _ _, by simp⟩
            · rename_i hroom
              have hwrite : Within 0 (MAXPATHLEN + 1) m (strncpy m pos "/..".toList 4) := by
                refine (Within.refl 0 _ m).write (Nat.zero_le pos) ?_
                show pos + 4 ≤ MAXPATHLEN + 1
                omega
              split
              · -- the root itself
                rename_i hsame
                refine ⟨.ret true, _, rfl, hreturns _, hwrite, fun _ => ⟨by omega, d, hresolve, 0, ?_, ?_⟩⟩
                · exact fs.inode d root hsame.1 hsame.2
                · intro k hk
                  rw [Nat.le_zero.mp hk]
                  exact htrusted
              · have hnext : dirbufString (strncpy m pos "/..".toList 4) = dirbufString m ++ "/..".toList := by
                  rw [hpos]
                  refine stringOf_parent ?_
                  show (dirbufString m).length + 3 < MAXPATHLEN + 1
                  omega
                -- the parent of a safe directory is the next to be looked at
                obtain ⟨answer, m', hloop, hends, hwithin, hyes⟩ := @ih (strncpy m pos "/..".toList 4)
                  (pos + 3) (by omega) (by rw [hnext, List.length_append, ← hpos]; rfl) (by omega)
                refine ⟨answer, m', hloop, hends, hwrite.trans hwithin, fun hok => ⟨by omega, d, hresolve, ?_⟩⟩
                obtain ⟨-, d', hresolve', n, hreach, hall⟩ := hyes hok
                rw [hnext] at hresolve'
                have hparent := fs.resolve_parent _ d d' hresolve htrusted.isDir hresolve'
                subst hparent
                refine ⟨n + 1, hreach, fun k hk => ?_⟩
                cases k with
                | zero => exact htrusted
                | succ k => exact hall k (Nat.succ_le_succ_iff.mp hk)

/-- `_path_permissions_ok` answers or ends the process, writes into its buffer only, and says yes
only when the directory and all that are above it up to the root are safe directories. -/
theorem path_permissions_ok_sound (fs : FileSystem Node) (cwd : Cwd) (uid pdsh_owner : UInt32) {dir : CStr}
    (hnul : NUL ∉ dir) (m : Mem) :
    ∃ answer m', pathPermissionsOk fs.stat cwd uid pdsh_owner dir m = (answer, m') ∧
      answer.Ends ∧ Within 0 (MAXPATHLEN + 1) m m' ∧
      (answer = .ret true → ∃ d, fs.resolve dir = some d ∧ ∃ n, fs.parent^[n] d = fs.root ∧
        ∀ k ≤ n, Trusted uid pdsh_owner (fs.attr (fs.parent^[k] d))) := by
  have hbound : MAXPATHLEN = 4096 := rfl
  rw [pathPermissionsOk]
  cases hstat : fs.stat "/".toList with
  | none => exact ⟨.ret false, m, rfl, (fun h => by cases h), Within.refl _ _ _, by simp⟩
  | some st =>
      obtain ⟨root, hresolve, rfl⟩ := Option.map_eq_some_iff.mp hstat
      have hroot : fs.root = root := (fs.resolve_root root hresolve).symm
      have hcopy : Within 0 (MAXPATHLEN + 1) m (setByte (strncpy m 0 dir MAXPATHLEN) MAXPATHLEN NUL) := by
        refine Within.setByte ?_ (Nat.zero_le _) (Nat.lt_succ_self _)
        refine (Within.refl 0 _ m).write (Nat.le_refl 0) ?_
        rw [List.length_append, List.length_take, List.length_replicate]
        omega
      have hstring : dirbufString (setByte (strncpy m 0 dir MAXPATHLEN) MAXPATHLEN NUL) = dir.take MAXPATHLEN :=
        stringOf_strncpy hnul MAXPATHLEN
      have hlen : (dir.take MAXPATHLEN).length = min MAXPATHLEN dir.length := List.length_take
      obtain ⟨answer, m', hloop, hends, hwithin, hyes⟩ :=
        @permissionsLoop_sound Node uid pdsh_owner fs cwd root MAXPATHLEN
          (setByte (strncpy m 0 dir MAXPATHLEN) MAXPATHLEN NUL)
          (dirbufString (setByte (strncpy m 0 dir MAXPATHLEN) MAXPATHLEN NUL)).length (by omega) rfl
          (by rw [hstring]; omega)
      refine ⟨answer, m', hloop, hends, hcopy.trans hwithin, fun hok => ?_⟩
      obtain ⟨hshort, d, hresolve', n, hreach, hall⟩ := hyes hok
      -- a directory that was cut would not leave room for its parent
      rw [hstring] at hshort hresolve'
      rw [List.take_of_length_le (by omega)] at hresolve'
      exact ⟨d, hresolve', n, hreach.trans hroot.symm, hall⟩

/-- The root, `false`, and one directory in it. -/
def libDirectory : FileSystem Bool where
  root := false
  parent := fun _ => false
  attr := fun d => ⟨1, if d then 12 else 2, 0x41ED, 0⟩
  resolve := fun path =>
    if path = "/".toList then some false
    else if path = "/lib".toList then some true
    else if path = "/lib/..".toList then some false
    else none
  resolve_root := by
    intro d h
    rw [if_pos rfl] at h
    exact (Option.some.inj h).symm
  resolve_parent := by
    intro path d d' _ _ hparent
    show d' = false
    split at hparent
    · exact (Option.some.inj hparent).symm
    · split at hparent
      · rename_i heq
        have hlast := congrArg List.getLast? heq
        rw [List.getLast?_append] at hlast
        exact absurd hlast (by simp)
      · split at hparent
        · exact (Option.some.inj hparent).symm
        · cases hparent
  inode := by
    intro d d' h _
    cases d <;> cases d' <;> first | rfl | exact absurd h (by decide)

/-- Every directory can be entered, and has a name that fits. -/
def openCwd : Cwd := ⟨fun _ => true, fun _ => true, fun path _ => some path⟩

/-- `_path_permissions_ok` says yes to `/lib`, and the two directories are safe. -/
theorem path_permissions_ok_lib :
    (pathPermissionsOk libDirectory.stat openCwd 1000 1000 "/lib".toList fun _ => NUL).1 = .ret true ∧
    ∃ n, (fun _ => false)^[n] true = false ∧
      ∀ k ≤ n, Trusted 1000 1000 (libDirectory.attr ((fun _ => false)^[k] true)) := by
  obtain ⟨answer, m', hrun, -, -, hyes⟩ := path_permissions_ok_sound libDirectory openCwd 1000 1000
    (show NUL ∉ "/lib".toList by decide) fun _ => NUL
  have hvalue : (pathPermissionsOk libDirectory.stat openCwd 1000 1000 "/lib".toList fun _ => NUL).1 =
      .ret true := by
    decide +kernel
  refine ⟨hvalue, ?_⟩
  rw [hrun] at hvalue
  obtain ⟨d, hresolve, hchain⟩ := hyes hvalue
  obtain rfl : d = true := (Option.some.inj hresolve).symm
  exact hchain

/-- `PDSH_MODULE_DIR=/etc/passwd`: there is no way into a file, and the process ends. -/
example : (pathPermissionsOk (fun path => if path = "/".toList then some ⟨1, 2, 0x41ED, 0⟩
      else some ⟨1, 7, 0x81A4, 0⟩) { openCwd with chdir := fun _ => false } 1000 1000 "/etc/passwd".toList
      fun _ => NUL).1 = .exit (.chdir "/etc/passwd".toList) := by
  decide +kernel

end Pdsh.Mod
