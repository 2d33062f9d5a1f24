import Pdsh.Pcp.Download
import Pdsh.Pcp.Mirror

/-!
# A recursive copy

`pcp_client` and `pcp_server` on the two ends of a connection. The connection is two pipes of any
capacity; the order in which the two programs go on, the pieces in which bytes come, files are read
and writes are taken, and the block sizes of the files are all open. Whatever they are, both
programs come to their ends, no message is printed, and the target holds a copy of the files that
`pcp_expand_dirs` finds, with everything else as it was (`copy_inevitable`).
-/

namespace Pdsh.Pcp

open Lib Lib.Decimal Lib.Process Lib.Transition

variable {e : Target} {s : List (Act Char)} {svr : Server} {sb : StatBuf} {name path p dir : CStr}
  {times preserve : Bool} {data : List Char}

/-! ## The records of the client are records of the server -/

theorem timesRecord_isRecord (h : 0 ≤ sb.st_mtime.toInt ∧ 0 ≤ sb.st_atime.toInt) :
    IsRecord (timesRecord sb) (.times (timesOf sb)) := by
  have hm := sb.st_mtime.toInt_lt
  have ha := sb.st_atime.toInt_lt
  have hlen := length_timesText sb.st_mtime sb.st_atime
  refine ⟨'T', timesText sb.st_mtime.toInt sb.st_atime.toInt, timesRecord_eq sb, .inl rfl,
    fun hc => (timesText_mem hc).1 rfl, ?_, by rw [BUFSIZ]; omega, ?_⟩
  · rw [List.mem_cons, not_or]
    exact ⟨by decide, fun hc => (timesText_mem hc).2 rfl⟩
  · obtain ⟨m, hm'⟩ := Int.eq_ofNat_of_zero_le h.1
    obtain ⟨a, ha'⟩ := Int.eq_ofNat_of_zero_le h.2
    rw [timesOf, hm', ha']
    exact parseTimes_timesText (by omega) (by omega)

theorem entry_isRecord {c : Char} {isdir : Bool} {mode size : Nat}
    (hc : c = 'C' ∨ c = 'D') (hletter : ∀ cp, parseRecord (c :: cp) = parseEntry isdir cp)
    (hmode : mode < 4096) (hsize : size < 2 ^ 63) (hnul : NUL ∉ name) (hnewline : '\n' ∉ name)
    (hfits : 8 + numDigits size + name.length < BUFSIZ) :
    IsRecord (c :: entryText mode size name ++ ['\n']) (.entry isdir mode size name) := by
  have hlen := @length_entryText mode size name hmode
  refine ⟨c, entryText mode size name, rfl, .inr hc, fun hmem => ?_, fun hmem => ?_, by omega, ?_⟩
  · rcases entryText_mem hmem with h | h
    · exact h.1 rfl
    · exact hnewline h
  · rcases List.mem_cons.mp hmem with heq | hmem
    · rcases hc with rfl | rfl <;> cases heq
    rcases entryText_mem hmem with h | h
    · exact h.2 rfl
    · exact hnul h
  · rw [hletter, parseEntry_entryText isdir hmode hsize]

theorem fileLine_isRecord (hok : EntryOk times path name sb) (hsize : 0 ≤ sb.st_size.toInt) :
    IsRecord (fileLine sb name) (.entry false sb.permissions sb.st_size.toInt name) := by
  have hlt := sb.st_size.toInt_lt
  have hentry := entry_isRecord (c := 'C') (.inl rfl) (fun _ => rfl) sb.permissions_lt
    (by omega : sb.st_size.toInt.toNat < 2 ^ 63) hok.nul hok.newline hok.fits
  rwa [Int.toNat_of_nonneg hsize] at hentry

theorem dirLine_isRecord (hok : EntryOk times path name sb) :
    IsRecord (dirLine sb name) (.entry true sb.permissions 0 name) := by
  have hpos := numDigits_pos sb.st_size.toInt.toNat
  have hfits := hok.fits
  refine entry_isRecord (c := 'D') (.inr rfl) (fun _ => rfl) sb.permissions_lt (by norm_num) hok.nul
    hok.newline ?_
  show 8 + 1 + name.length < BUFSIZ
  omega

/-! ## The loop of the server -/

/-- The level is that of a directory, with no times told. -/
structure Level.At (lv : Level) (dir : CStr) : Prop where
  targ : lv.targ = dir
  targisdir : lv.targisdir = true
  setimes : lv.setimes = 0

/-- The directory is left where its end is told. -/
theorem sinkLoop_leave {post : Nat → Target → List (Act Char) → Prop} {fuel cnt : Nat} {lv : Level}
    (h : post cnt e s) :
    Serves (sinkLoop svr (fuel + 1) lv cnt) post e (dual (request EXIT_SUBDIR_FLAG) ++ s) := by
  refine .bind (.recvByte ?_)
  refine .bind (@restOfRecord_script e (.send NUL :: s) _ _ [] (by decide) (by decide) ?_)
  refine .bind (took_script _ _ ?_)
  refine .bind (ack_script ?_)
  exact h

/-- The server ends with its input. -/
theorem sinkLoop_end {post : Nat → Target → List (Act Char) → Prop} {fuel cnt : Nat} {lv : Level}
    (h : post cnt e []) : Serves (sinkLoop svr (fuel + 1) lv cnt) post e [] := by
  refine .bind (.recvByte_eof ?_)
  exact h

/-- The times in front of an entry. -/
theorem sinkLoop_times {post : Nat → Target → List (Act Char) → Prop} {fuel cnt : Nat} {lv : Level}
    (hlv : lv.At dir) (hok : EntryOk times path name sb)
    (h : ∀ fuel' lv', fuel ≤ fuel' → lv'.targ = dir → lv'.targisdir = true → lv'.Told times sb →
      Serves (sinkLoop svr fuel' lv' cnt) post e s) :
    Serves (sinkLoop svr (fuel + 1) lv cnt) post e (dual (timesScript times sb) ++ s) := by
  cases times with
  | false =>
      refine h _ _ (Nat.le_succ fuel) hlv.targ hlv.targisdir ?_
      rw [Level.Told, hlv.setimes]
      rfl
  | true =>
      have hdual : dual (timesScript true sb) ++ s = recvs (timesRecord sb) ++ .send NUL :: s := by
        simp [timesScript, request, Act.dual]
      rw [hdual]
      refine sinkLoop_record (timesRecord_isRecord (hok.times rfl)) ?_
      refine .bind (took_script _ _ ?_)
      refine .bind (ack_script ?_)
      refine h _ _ le_rfl hlv.targ hlv.targisdir ?_
      rw [Level.Told, hlv.setimes]
      rfl

/-- A file, from its record to the answer to its data. -/
theorem sinkLoop_file {post : Nat → Target → List (Act Char) → Prop} {fuel cnt : Nat} {lv : Level}
    (htarg : lv.targ = dir) (hisdir : lv.targisdir = true) (htold : lv.Told times sb)
    (hok : EntryOk times path name sb) (hsize : sb.st_size.toInt = data.length) (hdir : dir ≠ [])
    (hclosed : ∀ fd, e.fds fd = none) (hkind : e.kind dir = some .dir)
    (hfree : e.kind (entryPath dir name) ≠ some .dir)
    (h : ∀ lv' cnt', lv'.At dir → Serves (sinkLoop svr fuel lv' cnt') post
      (e.putFile times svr.preserve (entryPath dir name) sb data) s) :
    Serves (sinkLoop svr (fuel + 1) lv cnt) post e
      (dual (request (fileLine sb name) ++ request (data ++ [NUL])) ++ s) := by
  have hdual : dual (request (fileLine sb name) ++ request (data ++ [NUL])) ++ s =
      recvs (fileLine sb name) ++ (.send NUL :: (recvs data ++ (.recv NUL :: .send NUL :: s))) := by
    simp [request, Act.dual]
  have hparent : e.kind (dirname (entryPath dir name)) = some .dir := by
    rwa [dirname_entryPath hdir hok.slash]
  rw [hdual]
  refine sinkLoop_record (fileLine_isRecord hok (by omega)) ?_
  refine .bind (took_script _ _ ?_)
  refine .bind (namebuf_script hisdir fun cursize => ?_)
  refine .bind (stat_script ?_)
  rw [htarg]
  have htold' : ({ lv with targ := dir, cursize := cursize } : Level).Told times sb := htold
  refine .bind (receiveFile_script hclosed hparent hfree htold' hsize (fun cnt' => ?_) cnt)
  exact h _ cnt' ⟨rfl, hisdir, rfl⟩

theorem Target.kind_of_nodes {n : Node} (h : e.nodes p = some n) (hn : n.isDir = true) :
    e.kind p = some .dir := by
  rw [Target.kind, h, Option.map_some, hn]
  rfl

theorem Target.Changed.ready {e' : Target} (h : Target.Changed e e' path) (he : e.Ready preserve) :
    e'.Ready preserve where
  closed fd := by rw [h.fds, he.closed]
  mask hp := by rw [h.mask, he.mask hp]

/-- A directory, from its record on: the level below it goes on to its end. -/
theorem sinkLoop_dir {post : Nat → Target → List (Act Char) → Prop} {fuel cnt : Nat} {lv : Level}
    (htarg : lv.targ = dir) (hisdir : lv.targisdir = true) (hok : EntryOk times path name sb)
    (hdir : dir ≠ []) (hready : e.Ready svr.preserve) (hkind : e.kind dir = some .dir)
    (hfree : e.kind (entryPath dir name) ≠ some .other)
    (hout : svr.target_is_dir →
      (e.enterDir svr.preserve (entryPath dir name) sb).kind svr.outfile = some .dir)
    (h : ∀ cursize, Serves
      (sinkLoop svr fuel { targ := entryPath dir name, targisdir := true } cnt)
      (fun cnt e s => Serves
        (leaveDir { lv with targ := dir, cursize := cursize } (entryPath dir name) >>= fun l =>
          sinkLoop svr fuel l cnt) post e s)
      (e.enterDir svr.preserve (entryPath dir name) sb) s) :
    Serves (sinkLoop svr (fuel + 1) lv cnt) post e (dual (request (dirLine sb name)) ++ s) := by
  have hdual : dual (request (dirLine sb name)) ++ s =
      recvs (dirLine sb name) ++ (.send NUL :: s) := by
    simp [request, Act.dual]
  have hparent : e.kind (dirname (entryPath dir name)) = some .dir := by
    rwa [dirname_entryPath hdir hok.slash]
  obtain ⟨n, hn, hnisdir, -⟩ := Target.enterDir_nodes svr.preserve sb hfree
  have hready' := (Target.enterDir_changed svr.preserve e (entryPath dir name) sb).ready hready
  rw [hdual]
  refine sinkLoop_record (dirLine_isRecord hok) ?_
  refine .bind (took_script _ _ ?_)
  refine .bind (namebuf_script hisdir fun cursize => ?_)
  refine .bind (stat_script ?_)
  rw [htarg]
  refine .bind (enterDir_script hparent hfree ?_)
  refine .bind (sinkStart_script hout (Target.kind_of_nodes hn hnisdir) ?_)
  rw [hready'.cleared]
  exact .bind (h cursize)

namespace Listing

/-- A bound on the records. -/
def records : Listing → Nat
  | .nil => 0
  | .file _ _ _ _ next => 2 + next.records
  | .dir _ _ _ below next => 3 + below.records + next.records

variable {l : Listing}

theorem install_ready {ok : Bool} (l : Listing) (h : e.Ready ok) :
    (l.install times preserve dir e).Ready ok where
  closed fd := by rw [install_fds, h.closed]
  mask hp := by rw [install_mask, h.mask hp]

/-- What is not below a directory stays what it is. -/
theorem install_kind {ok : Bool} (hok : l.Ok ok) (hdir : dir ≠ []) (hlen : p.length ≤ dir.length) :
    (l.install times preserve dir e).kind p = e.kind p := by
  by_cases hp : p = dir
  · rw [hp]
    exact Target.kind_eq (install_dir hok hdir)
  · rw [Target.kind, install_nodes hok hdir hp, Target.kind]
    rintro name - (rfl | ⟨rest, rfl⟩)
    · rw [entryPath_eq hdir] at hlen
      simp at hlen
    · rw [entryPath_eq hdir] at hlen
      simp at hlen

end Listing

theorem Target.Changed.kind {e' : Target} (h : Target.Changed e e' (entryPath dir name))
    (hdir : dir ≠ []) (hslash : '/' ∉ name) (hlen : p.length ≤ dir.length) :
    e'.kind p = e.kind p := by
  have hparent := dirname_entryPath hdir hslash
  have hne : entryPath dir name ≠ p := by
    rintro rfl
    rw [entryPath_eq hdir] at hlen
    simp at hlen
  by_cases hp : p = dir
  · have hsame := h.dir
    rw [hparent] at hsame
    rw [hp]
    exact Target.kind_eq (hsame (hp ▸ hne.symm))
  · rw [Target.kind, h.other p hne.symm (by rwa [hparent]), Target.kind]

/-- The server takes the records of a listing, and goes on with what the file system is then. -/
theorem sinkLoop_script {post : Nat → Target → List (Act Char) → Prop} {l : Listing} {lv : Level}
    {m fuel cnt : Nat} (hok : l.Ok times) (hdistinct : l.Distinct) (hdir : dir ≠ [])
    (hacc : l.Accepted e dir) (hready : e.Ready svr.preserve) (hkind : e.kind dir = some .dir)
    (hlen : svr.outfile.length ≤ dir.length) (hout : e.kind svr.outfile = some .dir)
    (hlv : lv.At dir) (hfuel : m + l.records ≤ fuel)
    (hnext : ∀ fuel' lv' cnt', m ≤ fuel' → lv'.At dir → Serves (sinkLoop svr fuel' lv' cnt') post
      (l.install times svr.preserve dir e) s) :
    Serves (sinkLoop svr fuel lv cnt) post e (dual (l.script times) ++ s) := by
  induction l generalizing e dir lv m fuel cnt s post with
  | nil => exact hnext fuel lv cnt (Nat.le_of_add_right_le hfuel) hlv
  | file fpath name sb data next ih =>
      obtain ⟨hentry, hsize, hok⟩ := hok
      obtain ⟨hname, hdistinct⟩ := hdistinct
      have hchanged := Target.putFile_changed times svr.preserve e (entryPath dir name) sb data
      have hagree : next.Agree dir e (e.putFile times svr.preserve (entryPath dir name) sb data) :=
        hok.agree hdir hentry.slash hname fun p hp hunder =>
          Listing.putFile_outside hdir hentry.slash hp hunder
      rw [Listing.records] at hfuel
      obtain ⟨f, rfl⟩ : ∃ f, fuel = f + 1 := ⟨fuel - 1, by omega⟩
      have hscript : dual ((Listing.file fpath name sb data next).script times) ++ s =
          dual (timesScript times sb) ++ (dual (request (fileLine sb name) ++
            request (data ++ [NUL])) ++ (dual (next.script times) ++ s)) := by
        simp [Listing.script]
      rw [hscript]
      refine sinkLoop_times hlv hentry fun f' lv' hf' htarg hisdir htold => ?_
      obtain ⟨f', rfl⟩ : ∃ f, f' = f + 1 := ⟨f' - 1, by omega⟩
      refine sinkLoop_file htarg hisdir htold hentry hsize hdir hready.closed hkind hacc.1
        fun lv' cnt' hlv' => ?_
      refine ih hok hdistinct hdir (hacc.2.congr hok hagree) (hchanged.ready hready) ?_ hlen ?_ hlv'
        (by omega) hnext
      · rw [hchanged.kind hdir hentry.slash le_rfl, hkind]
      · rw [hchanged.kind hdir hentry.slash hlen, hout]
  | dir dpath name sb below next ihbelow ihnext =>
      obtain ⟨hentry, hokbelow, hok⟩ := hok
      obtain ⟨hname, hdistinctbelow, hdistinct⟩ := hdistinct
      obtain ⟨hfree, haccbelow, haccnext⟩ := hacc
      have hne := hentry.notDot.1
      have hpath : entryPath dir name ≠ [] := entryPath_ne_nil hne
      have hlonger : dir.length ≤ (entryPath dir name).length := by
        rw [entryPath_eq hdir, List.length_append]
        omega
      have hchanged := Target.enterDir_changed svr.preserve e (entryPath dir name) sb
      have hleft : (e.enterDir svr.preserve (entryPath dir name) sb).kind svr.outfile = some .dir := by
        rw [hchanged.kind hdir hentry.slash hlen, hout]
      obtain ⟨n, hn, hnisdir, -⟩ := Target.enterDir_nodes svr.preserve sb hfree
      rw [Listing.records] at hfuel
      obtain ⟨f, rfl⟩ : ∃ f, fuel = f + 1 := ⟨fuel - 1, by omega⟩
      have hscript : dual ((Listing.dir dpath name sb below next).script times) ++ s =
          dual (timesScript times sb) ++ (dual (request (dirLine sb name)) ++
            (dual (below.script times) ++ (dual (request EXIT_SUBDIR_FLAG) ++
              (dual (next.script times) ++ s)))) := by
        simp [Listing.script]
      rw [hscript]
      refine sinkLoop_times hlv hentry fun f' lv' hf' htarg hisdir htold => ?_
      obtain ⟨f', rfl⟩ : ∃ f, f' = f + 1 := ⟨f' - 1, by omega⟩
      refine sinkLoop_dir htarg hisdir hentry hdir hready hkind hfree (fun _ => hleft)
        fun cursize => ?_
      -- the entries of the directory
      have henter : below.Agree (entryPath dir name) e
          (e.enterDir svr.preserve (entryPath dir name) sb) := fun _ _ p hp =>
        Listing.enterDir_outside hdir hentry.slash ((hp.below hne).ne_dir hdir) (hp.ne_dir hpath)
      refine ihbelow hokbelow hdistinctbelow hpath (haccbelow.congr hokbelow henter)
        (hchanged.ready hready) (Target.kind_of_nodes hn hnisdir) (hlen.trans hlonger) hleft
        ⟨rfl, rfl, rfl⟩ (by omega : 1 + below.records ≤ f') fun fuel' lv'' cnt' hfuel' _ => ?_
      obtain ⟨g, rfl⟩ : ∃ g, fuel' = g + 1 := ⟨fuel' - 1, by omega⟩
      refine sinkLoop_leave ?_
      -- behind its end
      have hinstall : ((below.install times svr.preserve (entryPath dir name)
          (e.enterDir svr.preserve (entryPath dir name) sb)).nodes (entryPath dir name)).map
            Node.touched = _ := Listing.install_dir hokbelow hpath
      rw [hn, Option.map_some] at hinstall
      obtain ⟨n', hn', -⟩ := Option.map_eq_some_iff.mp hinstall
      refine .bind (leaveDir_script (by rw [hn']; rfl) htold ?_)
      have hagree : next.Agree dir e
          (Listing.installDir times svr.preserve below (entryPath dir name) sb e) :=
        hok.agree hdir hentry.slash hname fun p hp hunder =>
          Listing.installDir_outside hokbelow hdir hentry.slash hne hp hunder
      have hkept : ∀ p : CStr, p.length ≤ dir.length →
          (Listing.installDir times svr.preserve below (entryPath dir name) sb e).kind p =
            e.kind p := by
        intro p hp
        rw [Listing.installDir, (Target.leaveDir_changed _ _ _ _).kind hdir hentry.slash hp,
          Listing.install_kind hokbelow hpath (hp.trans hlonger),
          hchanged.kind hdir hentry.slash hp]
      refine ihnext hok hdistinct hdir (haccnext.congr hok hagree) ?_ ?_ hlen ?_
        ⟨rfl, hisdir, rfl⟩ (by omega) hnext
      · exact (Target.leaveDir_changed _ _ _ _).ready
          (Listing.install_ready below (hchanged.ready hready))
      · exact (hkept dir le_rfl).trans hkind
      · exact (hkept svr.outfile hlen).trans hout

/-! ## The whole copy -/

/-- What a copy needs: the files are shown by the file system of the client and can be told, and the
target is a directory in which nothing is in their way. -/
structure CopyOk (fs : SourceFs) (pcp : Client) (svr : Server) (target : Target)
    (infiles : List CStr) (l : Listing) : Prop where
  access : ∀ path ∈ infiles, fs.access path
  shown : l.Shown fs (infiles.map fun path => (path, xbasename (pcp.output true path)))
  ok : l.Ok pcp.preserve
  distinct : l.Distinct
  outfile : svr.outfile ≠ []
  isDir : target.kind svr.outfile = some .dir
  accepted : l.Accepted target svr.outfile
  closed : ∀ fd, target.fds fd = none

/-- The copy is made; of the directory it is made in only the times are changed, and no path is
changed that is not the path of an entry. -/
structure Copied (times preserve : Bool) (l : Listing) (outfile : CStr) (before after : Target) : Prop where
  mirrored : l.Mirrored times preserve (before.cleared preserve) after outfile
  dir : (after.nodes outfile).map Node.touched = (before.nodes outfile).map Node.touched
  other : ∀ p, p ≠ outfile → p ∉ l.paths outfile → after.nodes p = before.nodes p

/-- The client is done without a message. -/
def NoComplaint (r : Int) (e : Source) : Prop := r = 0 ∧ e.messages = []

variable {fs : SourceFs} {pcp : Client} {target : Target} {infiles : List CStr} {l : Listing}

theorem pcpClient_script {fuel : Nat} (h : CopyOk fs pcp svr target infiles l)
    (hfuel : l.Short fuel) :
    (pcpClient fuel { pcp with infiles := l.files true }).Conforms fs.does false (AtEnd NoComplaint) {}
      (.recv NUL :: l.script pcp.preserve) := by
  refine .bind (pcpResponse_script ?_ _)
  rw [if_pos rfl]
  have hname : ∀ x ∈ infiles.map fun path => (path, xbasename (pcp.output true path)),
      x.2 = xbasename (pcp.output true x.1) := by
    intro x hx
    obtain ⟨path, -, rfl⟩ := List.mem_map.mp hx
    rfl
  refine .bind ?_
  have hend := @sendFiles_script fs {} [] { pcp with infiles := l.files true } fuel []
    (fun _ e s => (Prog.done (0 : Int) : ClientM Int).Conforms fs.does false (AtEnd NoComplaint) e s)
    l true _ rfl h.shown hname h.ok hfuel ⟨rfl, rfl, rfl⟩
  rw [List.append_nil, List.append_nil] at hend
  exact hend

theorem pcpServer_script {fuel : Nat} (h : CopyOk fs pcp svr target infiles l)
    (hfuel : l.records < fuel) :
    Serves (pcpServer fuel svr) (AtEnd fun _ => Copied pcp.preserve svr.preserve l svr.outfile target)
      target (.send NUL :: dual (l.script pcp.preserve)) := by
  have hready : (target.cleared svr.preserve).Ready svr.preserve :=
    ⟨h.closed, fun hp => by rw [Target.cleared, if_pos hp]⟩
  refine .bind (sinkStart_script (fun _ => h.isDir) h.isDir ?_)
  have hagree : l.Agree svr.outfile target (target.cleared svr.preserve) := fun _ _ _ _ => rfl
  have hacc := h.accepted.congr h.ok hagree
  have hloop := @sinkLoop_script (target.cleared svr.preserve) [] svr svr.outfile pcp.preserve
    (AtEnd fun _ => Copied pcp.preserve svr.preserve l svr.outfile target) l
    { targ := svr.outfile, targisdir := true } 1 fuel 0 h.ok h.distinct h.outfile hacc hready
    h.isDir le_rfl h.isDir ⟨rfl, rfl, rfl⟩ (by omega) ?_
  · rw [List.append_nil] at hloop
    exact hloop
  · intro fuel' lv' cnt' hfuel' _
    obtain ⟨g, rfl⟩ : ∃ g, fuel' = g + 1 := ⟨fuel' - 1, by omega⟩
    refine sinkLoop_end ⟨rfl, ?_, ?_, fun p hp hpaths => ?_⟩
    · exact Listing.install_mirrored h.ok h.outfile h.distinct hacc
    · exact Listing.install_dir h.ok h.outfile
    · exact Listing.install_other h.ok h.outfile hp hpaths

/-- The files that `pcp_expand_dirs` finds are copied, whatever the order of the steps. -/
theorem copy_inevitable {capacity depth fuel fuel' : Nat} (h : CopyOk fs pcp svr target infiles l)
    (hcap : 0 < capacity) (hdepth : l.depth ≤ depth) (hfuel : l.Short fuel)
    (hfuel' : l.records < fuel') :
    ∃ files, pcpExpandDirs fs depth infiles = .ret files ∧
      Inevitable (Joint.Step fs.does Target.does capacity)
        (Joint.Finished NoComplaint fun _ => Copied pcp.preserve svr.preserve l svr.outfile target)
        ⟨pcpClient fuel { pcp with infiles := files }, pcpServer fuel' svr, {}, target, [], []⟩ := by
  refine ⟨_, pcpExpandDirs_shown h.access h.shown hdepth, ?_⟩
  exact (Joint.conforming_start (pcpClient_script h hfuel) (pcpServer_script h hfuel')).inevitable
    hcap

/-- The directory `d` with the file `f` in it. -/
def treeFs : SourceFs where
  stat path := if path = "d".toList then some ⟨0x41ED, 4096, 7, 8⟩
    else if path = "d/f".toList then some ⟨0x81A4, 2, 5, 6⟩ else none
  access _ := true
  readdir path := if path = "d".toList then some [(1, ".".toList), (2, "f".toList)] else none
  data path := if path = "d/f".toList then "hi".toList else []

def treeListing : Listing :=
  .dir "d".toList "d".toList ⟨0x41ED, 4096, 7, 8⟩
    (.file "d/f".toList "f".toList ⟨0x81A4, 2, 5, 6⟩ "hi".toList .nil) .nil

/-- An empty directory `out`. -/
def emptyTarget : Target where
  nodes path := if path = "out".toList then some { isDir := true, mode := 0x1C0 } else none
  mask := 0x12
  fds _ := none

/-- `pdcp -p -r d out`. -/
theorem treeOk : CopyOk treeFs ⟨true, false, "host".toList, []⟩ ⟨true, true, "out".toList⟩ emptyTarget
    ["d".toList] treeListing where
  access _ _ := rfl
  shown := ⟨[], ["f".toList], rfl, rfl, rfl, rfl, rfl, ⟨[], rfl, rfl, rfl, rfl, rfl, rfl⟩, rfl⟩
  ok := ⟨⟨by decide, by decide, by decide, by decide, by decide, by decide, fun _ => by decide⟩,
    ⟨⟨by decide, by decide, by decide, by decide, by decide, by decide, fun _ => by decide⟩,
      by decide, trivial⟩, trivial⟩
  distinct := ⟨by decide, ⟨by decide, trivial⟩, trivial⟩
  outfile := by decide
  isDir := rfl
  accepted := ⟨by decide, ⟨by decide, trivial⟩, trivial⟩
  closed _ := rfl

theorem copy_inevitable_tree : ∃ files, pcpExpandDirs treeFs 1 ["d".toList] = .ret files ∧
    Inevitable (Joint.Step treeFs.does Target.does 1)
      (Joint.Finished NoComplaint fun _ => Copied true true treeListing "out".toList emptyTarget)
      ⟨pcpClient 3 ⟨true, false, "host".toList, files⟩, pcpServer 6 ⟨true, true, "out".toList⟩, {},
        emptyTarget, [], []⟩ :=
  copy_inevitable treeOk Nat.one_pos (by decide) ⟨⟨by decide, trivial⟩, trivial⟩ (by decide)

end Pdsh.Pcp
