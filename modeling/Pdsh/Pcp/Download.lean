import Pdsh.Pcp.Target
import Pdsh.Pcp.Upload

/-!
# The server keeps to the dual script

With calls that are not failed, `_sink` exchanges just the bytes of the dual script, whatever the
pieces in which they come, and leaves behind what the records of the listing come to
(`sinkLoop_script`).
-/

namespace Pdsh.Pcp

open Lib Lib.Decimal Lib.Process

variable {e : Target} {s : List (Act Char)} {svr : Server}

/-- A program of the server keeps to a script. -/
abbrev Serves {α : Type} (p : SinkM α) (post : α → Target → List (Act Char) → Prop) (e : Target)
    (s : List (Act Char)) : Prop := p.Conforms Target.does true post e s

/-! ## Answers -/

theorem ack_script {post : Bool → Target → List (Act Char) → Prop} (h : post true e s) :
    Serves ack post e (.send NUL :: s) := by
  refine .bind ⟨⟨(), _, rfl⟩, ?_⟩
  rintro - e' rfl
  refine .bind (.send_one ?_)
  exact h

theorem ackOrError_script {post : Unit → Target → List (Act Char) → Prop} (text : String)
    (h : post () e s) : Serves (ackOrError text) post e (.send NUL :: s) := by
  refine .bind (ack_script ?_)
  exact h

theorem response_script {post : Bool → Target → List (Act Char) → Prop} (h : post true e s) :
    Serves response post e (.recv NUL :: s) := by
  refine .bind (.recvByte ?_)
  exact h

theorem stat_script {post : Option FileType → Target → List (Act Char) → Prop} {path : CStr}
    (h : post (e.kind path) e s) : Serves (stat path) post e s :=
  .ask (S := sinkSig) (c := .stat path) (fun _ _ => Iff.rfl) h

theorem malloc_script {post : Bool → Target → List (Act Char) → Prop} (size : Nat)
    (h : post true e s) : Serves (malloc size) post e s :=
  .ask (S := sinkSig) (c := .malloc size) (fun _ _ => Iff.rfl) h

theorem took_script {post : Unit → Target → List (Act Char) → Prop} (targ : CStr)
    (request : Request) (h : post () e s) : Serves (took targ request) post e s := by
  refine ⟨⟨(), _, rfl⟩, ?_⟩
  rintro - e' rfl
  exact h

/-! ## The data of a file -/

section Data

variable {fd offset : Nat} {path : CStr} {n : Node}

theorem write_script {post : Bool → Target → List (Act Char) → Prop} (data : List Char)
    (h : post true (e.opened fd path (offset + data.length)
      { n with data := splice n.data offset data, times := none }) s) :
    Serves (write fd data) post (e.opened fd path offset n) s := by
  refine .ask (S := sinkSig) (c := .write fd data) (u := e.opened fd path (offset + data.length)
      { n with data := splice n.data offset data, times := none }) (fun a e' => ?_) h
  show a = true ∧ e' = Target.seek _ _ _ ↔ _
  rw [Target.modifyFd_opened, Target.opened_fds, Option.map_some, Target.seek_opened]

/-- The file after a part of its data: nothing else has changed, and its times only by a write. -/
structure Node.Wrote (n : Node) (offset : Nat) (data : List Char) (n' : Node) : Prop where
  isDir : n'.isDir = n.isDir
  mode : n'.mode = n.mode
  data : n'.data = splice n.data offset data

theorem Node.Wrote.more {n' : Node} {data : List Char} (h : n.Wrote offset data n')
    (more : List Char) : n.Wrote offset (data ++ more)
      { n' with data := splice n'.data (offset + data.length) more, times := none } where
  isDir := h.isDir
  mode := h.mode
  data := by rw [h.data, splice_append]

theorem writeOut_script {post : Wrerr → Target → List (Act Char) → Prop} (buf : List Char)
    (h : post .no (e.opened fd path (offset + buf.length)
      { n with data := splice n.data offset buf, times := none }) s) :
    Serves (writeOut fd buf .no) post (e.opened fd path offset n) s :=
  .bind (write_script buf h)

/-- What has been read is in the file, but for what is still in the buffer. -/
theorem readBlocks_script {post : Option (List Char × Wrerr) → Target → List (Act Char) → Prop}
    {cnt blocks : Nat} {written buf data : List Char} {n' : Node} (hn : n.Wrote 0 written n')
    (hblocks : data.length ≤ blocks * BUFSIZ)
    (h : ∀ written' buf' n'', written ++ buf ++ data = written' ++ buf' → n.Wrote 0 written' n'' →
      post (some (buf', .no)) (e.opened fd path written'.length n'') s) :
    Serves (readBlocks cnt fd blocks data.length buf .no) post (e.opened fd path written.length n')
      (recvs data ++ s) := by
  induction blocks generalizing written buf data n' with
  | zero =>
      obtain rfl := List.eq_nil_of_length_eq_zero (by omega : data.length = 0)
      exact h written buf n' (by rw [List.append_nil]) hn
  | succ blocks ih =>
      -- the next block, and the data behind it
      have hamt : min BUFSIZ data.length = (data.take BUFSIZ).length := by rw [List.length_take]
      have hleft : data.length - (data.take BUFSIZ).length = (data.drop BUFSIZ).length := by
        rw [List.length_take, List.length_drop]
        omega
      have hsplit : recvs data ++ s =
          recvs (data.take BUFSIZ) ++ (recvs (data.drop BUFSIZ) ++ s) := by
        rw [← List.append_assoc, ← recvs_append, List.take_append_drop]
      have hrest : (data.drop BUFSIZ).length ≤ blocks * BUFSIZ := by
        rw [List.length_drop]
        rw [Nat.succ_mul] at hblocks
        omega
      rw [readBlocks, hamt, hsplit]
      refine .bind (.recvAll ?_)
      dsimp only
      rw [hleft]
      split
      · refine .bind (writeOut_script _ ?_)
        have hn' := hn.more (buf ++ data.take BUFSIZ)
        rw [Nat.zero_add] at hn'
        have hlen : written.length + (buf ++ data.take BUFSIZ).length =
            (written ++ (buf ++ data.take BUFSIZ)).length := List.length_append.symm
        rw [hlen]
        refine ih hn' hrest fun written' buf' n'' heq => h written' buf' n'' ?_
        rw [← heq]
        simp only [List.append_assoc, List.append_nil, List.take_append_drop]
      · refine ih hn hrest fun written' buf' n'' heq => h written' buf' n'' ?_
        rw [← heq]
        simp only [List.append_assoc, List.take_append_drop]

theorem readData_script {post : Option Wrerr → Target → List (Act Char) → Prop} {cnt : Nat}
    {data : List Char} {size : Int} (hsize : size = data.length)
    (h : ∀ n', n.Wrote 0 data n' → post (some .no) (e.opened fd path data.length n') s) :
    Serves (readData cnt fd size) post (e.opened fd path 0 n) (recvs data ++ s) := by
  have hstart : n.Wrote 0 [] n := ⟨rfl, rfl, (splice_nil (Nat.zero_le _)).symm⟩
  have hleft : size.toNat = data.length := by omega
  rw [readData, hleft]
  refine .bind (readBlocks_script hstart ?_ fun written buf n' heq hn' => ?_)
  · rw [BUFSIZ]
    omega
  rw [List.nil_append, List.nil_append] at heq
  subst heq
  dsimp only
  by_cases hbuf : buf.length = 0
  · rw [if_neg (not_not.mpr hbuf)]
    obtain rfl := List.eq_nil_of_length_eq_zero hbuf
    rw [List.append_nil] at h
    exact h n' hn'
  · rw [if_pos hbuf]
    refine .bind (writeOut_script buf ?_)
    rw [← List.length_append]
    have hmore := hn'.more buf
    rw [Nat.zero_add] at hmore
    exact h _ hmore

theorem setTimes_script {post : Bool → Target → List (Act Char) → Prop} {tv : Times}
    (hnode : (e.nodes path).isSome)
    (h : post true (e.modify path fun n => { n with times := some tv }) s) :
    Serves (setTimes path tv) post e s := by
  refine .bind (.ask (S := sinkSig) (c := .utimes path tv) (a := true)
    (u := e.modify path fun n => { n with times := some tv }) (fun a e' => ?_) h)
  show a = (e.nodes path).isSome ∧ e' = _ ↔ _
  rw [hnode]

theorem fileTimes_script {post : Wrerr × Level → Target → List (Act Char) → Prop} {l : Level}
    (hn : n.times = none) (h : post (.no, { l with setimes := 0 })
      (e.set path { n with times := if l.setimes ≠ 0 then some l.tv else none }) s) :
    Serves (fileTimes l path .no) post (e.set path n) s := by
  rw [fileTimes]
  by_cases hset : l.setimes ≠ 0
  · rw [if_pos hset] at h
    rw [if_pos ⟨hset, rfl⟩]
    refine .bind (setTimes_script (by rw [Target.set_nodes]; rfl) ?_)
    rw [Target.modify_set]
    exact h
  · rw [if_neg hset, ← hn] at h
    rw [if_neg fun h => hset h.1]
    have hlevel : { l with setimes := 0 } = l := by
      rw [← not_not.mp hset]
    rw [hlevel] at h
    exact h

/-- The end of a file: its data is what was sent, its times those of the record if there were any. -/
theorem finishFile_script {post : Bool × Level → Target → List (Act Char) → Prop} {l : Level}
    {data : List Char} {size : Int} {n' : Node} (hfd : e.fds fd = none)
    (hsize : size = data.length) (hn' : n.Wrote 0 data n')
    (h : post (true, { l with setimes := 0 })
      (e.set path { isDir := n.isDir, mode := n.mode, data := data,
                    times := if l.setimes ≠ 0 then some l.tv else none }) s) :
    Serves (finishFile l path fd size .no) post (e.opened fd path offset n')
      (.recv NUL :: .send NUL :: s) := by
  have hnode : ({ n' with data := resize n'.data size.toNat, times := none } : Node) =
      { isDir := n.isDir, mode := n.mode, data := data } := by
    have hlen : size.toNat = data.length := by omega
    rw [hn'.isDir, hn'.mode, hn'.data, hlen, resize_splice]
  have htruncate : ∀ (a : Bool) e', Target.does (e.opened fd path offset n') (.ftruncate fd size) a
      e' ↔ a = true ∧ e' = e.opened fd path offset
        { isDir := n.isDir, mode := n.mode, data := data } := by
    intro a e'
    rw [← hnode]
    show a = true ∧ e' = Target.modifyFd _ _ _ ↔ _
    rw [Target.modifyFd_opened]
  refine .bind (.bind (.ask (S := sinkSig) (c := .ftruncate fd size) htruncate ?_))
  dsimp only
  refine .bind ⟨⟨(), _, rfl⟩, ?_⟩
  rintro - e' rfl
  rw [Target.close_opened hfd]
  refine .bind (response_script ?_)
  refine .bind (took_script _ _ ?_)
  refine .bind (fileTimes_script rfl ?_)
  refine .bind (ackOrError_script _ ?_)
  exact h

theorem allocbuf_script {post : Option Nat × Nat → Target → List (Act Char) → Prop} (cnt fd : Nat)
    (h : ∀ size cnt', post (some size, cnt') e s) : Serves (allocbuf cnt fd) post e s := by
  refine .bind ⟨⟨some 0, e, ⟨0, rfl⟩, rfl⟩, ?_⟩
  rintro _ e' ⟨⟨st_blksize, rfl⟩, rfl⟩
  show Serves (ite (cnt < bufSize st_blksize) _ _) post e' s
  split
  · refine .bind (malloc_script _ ?_)
    exact h _ _
  · exact h _ _

theorem fchmodFound_script {post : Unit → Target → List (Act Char) → Prop} {found : Bool}
    {mode : Nat} (h : post () (e.opened fd path offset
      { n with mode := if found ∧ svr.preserve then mode else n.mode }) s) :
    Serves (fchmodFound svr found fd mode) post (e.opened fd path offset n) s := by
  rw [fchmodFound]
  by_cases hmode : found ∧ svr.preserve
  · rw [if_pos hmode] at h
    rw [if_pos hmode]
    refine ⟨⟨(), _, rfl⟩, ?_⟩
    rintro - e' rfl
    rw [Target.modifyFd_opened]
    exact h
  · rw [if_neg hmode] at h
    rw [if_neg hmode]
    exact h

/-- A file from the open call on. -/
theorem receiveOpened_script {post : Bool × Level × Nat → Target → List (Act Char) → Prop} {l : Level}
    {data : List Char} {size : Int} {mode : Nat} {found : Bool} (hfd : e.fds fd = none)
    (hsize : size = data.length)
    (h : ∀ cnt, post (true, { l with setimes := 0 }, cnt)
      (e.set path { isDir := n.isDir, mode := if found ∧ svr.preserve then mode else n.mode,
                    data := data, times := if l.setimes ≠ 0 then some l.tv else none }) s)
    (cnt : Nat) : Serves (do
      fchmodFound svr found fd mode
      ackOrError "failed to write to outfd: "
      match ← allocbuf cnt fd with
      | (none, cnt) =>
        close fd
        return (true, l, cnt)
      | (some bp, cnt) =>
        match ← readData bp fd size with
        | none => return (false, l, cnt)
        | some wrerr =>
          let (goesOn, l) ← finishFile l path fd size wrerr
          return (goesOn, l, cnt)) post (e.opened fd path 0 n)
      (.send NUL :: (recvs data ++ (.recv NUL :: .send NUL :: s))) := by
  refine .bind (fchmodFound_script ?_)
  refine .bind (ackOrError_script _ ?_)
  refine .bind (allocbuf_script _ _ fun bp cnt' => ?_)
  refine .bind (readData_script hsize fun n' hn' => ?_)
  refine .bind (finishFile_script hfd hsize hn' ?_)
  exact h cnt'

end Data

/-- No file is open, and the mask is cleared when modes are preserved. -/
structure Target.Ready (e : Target) (preserve : Bool) : Prop where
  closed : ∀ fd, e.fds fd = none
  mask : preserve → e.mask = 0

/-- The times of an entry are told at its level, if they are told at all. -/
def Level.Told (l : Level) (times : Bool) (sb : StatBuf) : Prop :=
  (if l.setimes ≠ 0 then some l.tv else none) = if times then some (timesOf sb) else none

variable {path : CStr} {sb : StatBuf} {times : Bool} {l : Level}

/-- A `C` record with its data. -/
theorem receiveFile_script {post : Bool × Level × Nat → Target → List (Act Char) → Prop}
    {data : List Char} {size : Int} (hclosed : ∀ fd, e.fds fd = none)
    (hdir : e.kind (dirname path) = some .dir) (hkind : e.kind path ≠ some .dir)
    (htold : l.Told times sb) (hsize : size = data.length)
    (h : ∀ cnt, post (true, { l with setimes := 0 }, cnt)
      (e.putFile times svr.preserve path sb data) s) (cnt : Nat) :
    Serves (receiveFile svr l path sb.permissions size (e.kind path).isSome cnt) post e
      (.send NUL :: (recvs data ++ (.recv NUL :: .send NUL :: s))) := by
  rw [Level.Told] at htold
  cases hnode : e.nodes path with
  | some n =>
      -- a file that is there is opened as it is
      have hn : n.isDir = false := by
        cases hn : n.isDir with
        | false => rfl
        | true => exact absurd (by rw [Target.kind, hnode, Option.map_some, hn]; rfl) hkind
      have hopened : ∀ fd, e.seek fd (some (path, 0)) = e.opened fd path 0 n := fun fd => by
        rw [Target.opened, Target.set_self hnode]
      have hopen : ∀ (a : Option Nat) e', e.does (.openFile path sb.permissions) a e' ↔
          ∃ fd, e.fds fd = none ∧ a = some fd ∧ e' = e.opened fd path 0 n := by
        intro a e'
        simp only [Target.does, hnode, hn, Bool.false_eq_true, if_false, hopened]
        rfl
      refine .bind ⟨⟨some 0, _, (hopen _ _).mpr ⟨0, hclosed 0, rfl, rfl⟩⟩, fun a e' hW => ?_⟩
      obtain ⟨fd, hfd, rfl, rfl⟩ := (hopen a e').mp hW
      refine receiveOpened_script hfd hsize (fun cnt' => ?_) cnt
      have hfound : (e.kind path).isSome = true := by rw [Target.kind, hnode]; rfl
      have hput := h cnt'
      rw [Target.putFile, Target.place, hnode] at hput
      dsimp only at hput
      rw [htold, hfound, hn]
      simpa [fileMode] using hput
  | none =>
      have hopen : ∀ (a : Option Nat) e', e.does (.openFile path sb.permissions) a e' ↔
          ∃ fd, e.fds fd = none ∧ a = some fd ∧ e' =
            (e.modify (dirname path) Node.touched).opened fd path 0
              { isDir := false, mode := sb.permissions.ldiff e.mask } := by
        intro a e'
        simp only [Target.does, hnode, hdir, if_true]
        rfl
      refine .bind ⟨⟨some 0, _, (hopen _ _).mpr ⟨0, hclosed 0, rfl, rfl⟩⟩, fun a e' hW => ?_⟩
      obtain ⟨fd, hfd, rfl, rfl⟩ := (hopen a e').mp hW
      refine receiveOpened_script (e := e.modify (dirname path) Node.touched) hfd hsize
        (fun cnt' => ?_) cnt
      have hfound : (e.kind path).isSome = false := by rw [Target.kind, hnode]; rfl
      have hput := h cnt'
      rw [Target.putFile, Target.place, hnode] at hput
      dsimp only at hput
      rw [htold, hfound]
      simpa [fileMode, Target.create] using hput

/-! ## Directories -/

theorem chmod_script {post : Unit → Target → List (Act Char) → Prop} {mode : Nat}
    (h : post () (e.modify path fun n => { n with mode := mode }) s) :
    Serves (chmod path mode) post e s := by
  refine ⟨⟨(), _, rfl⟩, ?_⟩
  rintro - e' rfl
  exact h

theorem enterDir_script {post : Bool → Target → List (Act Char) → Prop}
    (hdir : e.kind (dirname path) = some .dir) (hkind : e.kind path ≠ some .other)
    (h : post true (e.enterDir svr.preserve path sb) s) :
    Serves (enterDir svr path sb.permissions (e.kind path)) post e s := by
  cases hnode : e.nodes path with
  | some n =>
      have hst : e.kind path = some .dir := by
        cases hn : n.isDir with
        | true => rw [Target.kind, hnode, Option.map_some, hn]; rfl
        | false => exact absurd (by rw [Target.kind, hnode, Option.map_some, hn]; rfl) hkind
      rw [Target.enterDir, hnode] at h
      dsimp only [dirMode] at h
      rw [hst]
      show Serves (ite (svr.preserve = true) _ _) post e s
      by_cases hpres : svr.preserve = true
      · have hmodify : (e.modify path fun n => { n with mode := sb.permissions }) =
            e.set path { n with mode := sb.permissions } := by
          rw [Target.modify, hnode]
          rfl
        rw [if_pos hpres] at h
        rw [if_pos hpres]
        refine .bind (chmod_script ?_)
        rw [hmodify]
        exact h
      · rw [if_neg hpres, Target.set_self hnode] at h
        rw [if_neg hpres]
        exact h
  | none =>
      -- a directory that is not there is made, without the set-id bits
      have hst : e.kind path = none := by rw [Target.kind, hnode]; rfl
      have hmkdir : ∀ (a : Bool) e', e.does (.mkdir path sb.permissions) a e' ↔ a = true ∧
          e' = e.create path { isDir := true, mode := (mkdirMode sb.permissions).ldiff e.mask } := by
        intro a e'
        simp only [Target.does, hnode, hdir, and_self, if_true]
        rfl
      rw [Target.enterDir, hnode] at h
      rw [hst]
      exact .bind (.ask (S := sinkSig) (c := .mkdir path sb.permissions) hmkdir h)

theorem leaveDir_script {post : Level → Target → List (Act Char) → Prop}
    (hnode : (e.nodes path).isSome) (htold : l.Told times sb)
    (h : post { l with setimes := 0 } (e.leaveDir times path sb) s) :
    Serves (leaveDir l path) post e s := by
  rw [Target.leaveDir] at h
  rw [Level.Told] at htold
  rw [leaveDir]
  by_cases hset : l.setimes ≠ 0
  · rw [if_pos hset] at htold
    cases times with
    | false => cases htold
    | true =>
        have htv : l.tv = timesOf sb := Option.some.inj htold
        rw [if_pos rfl, ← htv] at h
        rw [if_pos hset]
        refine .bind (setTimes_script hnode ?_)
        exact h
  · rw [if_neg hset] at htold
    cases times with
    | true => cases htold
    | false =>
        rw [if_neg hset]
        have hlevel : { l with setimes := 0 } = l := by
          rw [← not_not.mp hset]
        rw [hlevel] at h
        exact h

/-! ## The start of a level -/

/-- The mask behind the start of `_sink`. -/
def Target.cleared (e : Target) (preserve : Bool) : Target :=
  { e with mask := if preserve then 0 else e.mask }

theorem Target.Ready.cleared {preserve : Bool} (h : e.Ready preserve) : e.cleared preserve = e := by
  cases preserve with
  | true => rw [Target.cleared, if_pos rfl, ← h.mask rfl]
  | false => rfl

theorem clearMask_script {post : Unit → Target → List (Act Char) → Prop}
    (h : post () (e.cleared svr.preserve) s) : Serves (clearMask svr) post e s := by
  refine .bind (.ask (S := sinkSig) (c := .umask 0) (fun _ _ => Iff.rfl) ?_)
  by_cases hpres : svr.preserve = true
  · rw [Target.cleared, if_pos hpres] at h
    rw [if_pos hpres]
    exact h
  · rw [Target.cleared, if_neg hpres] at h
    rw [if_neg hpres]
    exact .bind (.ask (S := sinkSig) (c := .umask e.mask) (fun _ _ => Iff.rfl) h)

theorem verifyTarget_script {post : Bool → Target → List (Act Char) → Prop}
    (hout : svr.target_is_dir → e.kind svr.outfile = some .dir) (h : post true e s) :
    Serves (verifyTarget svr) post e s := by
  rw [verifyTarget]
  by_cases hdir : svr.target_is_dir = true
  · rw [if_pos hdir]
    refine .bind (stat_script ?_)
    rw [hout hdir]
    exact h
  · rw [if_neg hdir]
    exact h

theorem sinkStart_script {post : Option Level → Target → List (Act Char) → Prop} {targ : CStr}
    (hout : svr.target_is_dir → e.kind svr.outfile = some .dir) (htarg : e.kind targ = some .dir)
    (h : post (some { targ := targ, targisdir := true }) (e.cleared svr.preserve) s) :
    Serves (sinkStart svr targ) post e (.send NUL :: s) := by
  refine .bind (malloc_script _ ?_)
  refine .bind (clearMask_script ?_)
  refine .bind (verifyTarget_script hout ?_)
  refine .bind (ack_script ?_)
  refine .bind (stat_script ?_)
  have hkind : (e.cleared svr.preserve).kind targ = some .dir := htarg
  rw [hkind]
  exact h

/-- The buffer is long enough for the path of an entry. -/
theorem namebuf_script {post : Option CStr × Level → Target → List (Act Char) → Prop} {name : CStr}
    (hl : l.targisdir = true)
    (h : ∀ cursize, post (some (entryPath l.targ name), { l with cursize := cursize }) e s) :
    Serves (namebuf l name) post e s := by
  have hfits : ∀ size, l.targ.length + name.length + 250 ≤ size →
      snprintf size (entryPath l.targ name) = entryPath l.targ name := by
    intro size hsize
    refine List.take_of_length_le ?_
    simp only [entryPath, List.length_append]
    split <;> simp <;> omega
  rw [namebuf, if_pos hl]
  dsimp only
  by_cases hroom : l.targ.length + name.length + 250 > l.cursize
  · rw [if_pos hroom]
    refine .bind (malloc_script _ ?_)
    rw [if_pos rfl, hfits _ le_rfl]
    exact h _
  · rw [if_neg hroom, hfits _ (Nat.le_of_not_lt hroom)]
    exact h l.cursize

/-! ## Records -/

theorem restOfRecord_script {post : Option CStr → Target → List (Act Char) → Prop} {room : Nat}
    {body : CStr} (hbody : '\n' ∉ body) (hroom : body.length < room)
    (h : post (some (body ++ ['\n'])) e s) :
    Serves (restOfRecord room) post e (recvs (body ++ ['\n']) ++ s) := by
  induction body generalizing room post with
  | nil =>
      cases room with
      | zero => simp at hroom
      | succ room =>
          refine .bind (.recvByte ?_)
          exact h
  | cons c body ih =>
      cases room with
      | zero => simp at hroom
      | succ room =>
          rw [List.mem_cons, not_or] at hbody
          refine .bind (.recvByte ?_)
          dsimp only
          rw [if_neg (Ne.symm hbody.1)]
          refine .bind (ih hbody.2 (by simpa using hroom) ?_)
          exact h

/-- `_sink` behind a record that it has parsed. -/
def sinkRecord (svr : Server) (fuel : Nat) (l : Level) (cnt : Nat) : Record → SinkM Nat
  | .times tv => do
    took l.targ (.times tv)
    if ← ack then sinkLoop svr fuel { l with tv := tv, setimes := l.setimes + 1 } cnt
    else
      screwup "write failed"
      return cnt
  | .entry isdir mode size name => do
    took l.targ (.entry isdir name)
    match ← namebuf l name with
    | (none, l) => sinkLoop svr fuel l cnt
    | (some np, l) =>
      let st ← stat np
      if isdir then
        if ← enterDir svr np mode st then
          match ← sinkStart svr np with
          | none =>
            let l ← leaveDir l np
            sinkLoop svr fuel l cnt
          | some below =>
            let cnt ← sinkLoop svr fuel below cnt
            let l ← leaveDir l np
            sinkLoop svr fuel l cnt
        else sinkLoop svr fuel l cnt
      else
        let (goesOn, l, cnt) ← receiveFile svr l np mode size st.isSome cnt
        if goesOn then sinkLoop svr fuel l cnt else return cnt

/-- A line that is a record, and no sign of an error or of the end of a directory. -/
structure IsRecord (line : CStr) (r : Record) : Prop where
  eq : ∃ c body, line = c :: body ++ ['\n'] ∧ (c = 'T' ∨ c = 'C' ∨ c = 'D') ∧ '\n' ∉ body ∧
    NUL ∉ c :: body ∧ body.length < BUFSIZ - 2 ∧ parseRecord (c :: body) = .ok r

/-- A record that comes in. -/
theorem sinkLoop_record {post : Nat → Target → List (Act Char) → Prop} {fuel cnt : Nat}
    {line : CStr} {r : Record} (hline : IsRecord line r)
    (h : Serves (sinkRecord svr fuel l cnt r) post e s) :
    Serves (sinkLoop svr (fuel + 1) l cnt) post e (recvs line ++ s) := by
  obtain ⟨c, body, rfl, hc, hbody, hnul, hlen, hparse⟩ := hline.eq
  have hchars : c ≠ '\n' ∧ c ≠ '\x01' ∧ c ≠ '\x02' ∧ c ≠ 'E' := by
    rcases hc with rfl | rfl | rfl <;> decide
  refine .bind (.recvByte ?_)
  dsimp only
  rw [if_neg hchars.1]
  refine .bind (restOfRecord_script hbody hlen ?_)
  dsimp only
  rw [if_neg hchars.2.1, if_neg hchars.2.2.1, if_neg hchars.2.2.2]
  have htext : bufText (c :: (body ++ ['\n'])) = c :: body := bufText_line hnul
  rw [htext, hparse]
  cases r <;> exact h

end Pdsh.Pcp
