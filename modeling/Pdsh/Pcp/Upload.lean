import Pdsh.Pcp.Files

/-!
# The client keeps to its script

With files that can be read and do not change, and a server that takes every record, the client
exchanges just the bytes of `Listing.script`, whatever the pieces in which the files are read, and
prints no message (`sendFiles_script`).
-/

namespace Pdsh.Pcp

open Lib Lib.Decimal Lib.Process

/-! ## The client's machine -/

/-- What is left of the open file, and the messages that were printed. -/
structure Source where
  reading : List Char := []
  messages : List (String × List MesgArg) := []

/-- The answer to a call, and what is left behind it: a read brings some part of the rest. -/
def SourceFs.does (fs : SourceFs) : World clientSig Source
  | e, .stat path, a, e' => a = fs.stat path ∧ e' = e
  | e, .openFile path, a, e' =>
      a = fs.access path ∧ e' = { e with reading := if fs.access path then fs.data path else [] }
  | e, .readFile, a, e' => ∃ tmpbuf rest, e.reading = tmpbuf ++ rest ∧ tmpbuf.length ≤ BUFSIZ ∧
      (tmpbuf = [] → rest = []) ∧ a = some tmpbuf ∧ e' = { e with reading := rest }
  | e, .close, _, e' => e' = { e with reading := [] }
  | e, .err format args, _, e' => e' = { e with messages := e.messages ++ [(format, args)] }
  | e, .turn, _, e' => e' = e
  | e, .leave, _, e' => e' = e
  | e, .accepted _, _, e' => e' = e
  | e, .status, _, e' => e' = e

/-! ## The script -/

/-- A record, and the NUL byte that answers it. -/
def request (text : CStr) : List (Act Char) := sends text ++ [.recv NUL]

/-- The `C` record of a file, by its name. -/
def fileLine (sb : StatBuf) (name : CStr) : CStr :=
  'C' :: entryText sb.permissions sb.st_size.toInt.toNat name ++ ['\n']

/-- The `D` record of a directory, by its name. -/
def dirLine (sb : StatBuf) (name : CStr) : CStr :=
  'D' :: entryText sb.permissions 0 name ++ ['\n']

/-- The times in front of an entry. -/
def timesScript (preserve : Bool) (sb : StatBuf) : List (Act Char) :=
  if preserve then request (timesRecord sb) else []

namespace Listing

/-- The bytes on the connection, from the side of the client. -/
def script (preserve : Bool) : Listing → List (Act Char)
  | nil => []
  | file _ name sb data next =>
      timesScript preserve sb ++ request (fileLine sb name) ++ request (data ++ [NUL]) ++
        next.script preserve
  | dir _ name sb below next =>
      timesScript preserve sb ++ request (dirLine sb name) ++ below.script preserve ++
        request EXIT_SUBDIR_FLAG ++ next.script preserve

end Listing

/-- An entry that can be told to the server, and is one name there. -/
structure EntryOk (preserve : Bool) (path name : CStr) (sb : StatBuf) : Prop where
  notExit : path ≠ EXIT_SUBDIR_FILENAME
  notDot : name ≠ [] ∧ name ≠ ".".toList ∧ name ≠ "..".toList
  slash : '/' ∉ name
  newline : '\n' ∉ name
  nul : NUL ∉ name
  fits : 8 + numDigits sb.st_size.toInt.toNat + name.length < BUFSIZ
  times : preserve → 0 ≤ sb.st_mtime.toInt ∧ 0 ≤ sb.st_atime.toInt

/-- Every entry can be told, and the sizes are those of the data. -/
def Listing.Ok (preserve : Bool) : Listing → Prop
  | nil => True
  | file path name sb data next =>
      EntryOk preserve path name sb ∧ sb.st_size.toInt = data.length ∧ next.Ok preserve
  | dir path name sb below next =>
      EntryOk preserve path name sb ∧ below.Ok preserve ∧ next.Ok preserve

/-- The reads of a file, its end included, are fewer than `fuel`. -/
def Listing.Short (fuel : Nat) : Listing → Prop
  | nil => True
  | file _ _ _ data next => data.length < fuel ∧ next.Short fuel
  | dir _ _ _ below next => below.Short fuel ∧ next.Short fuel

/-- The name that is sent for a file: that of the host is behind it in a reverse copy. -/
def Client.output (pcp : Client) (user : Bool) (path : CStr) : CStr :=
  if pcp.pcp_client ∧ user then path ++ '.' :: pcp.host else path

theorem output_getD (pcp : Client) (user : Bool) (path : CStr) :
    (if pcp.pcp_client ∧ user then some (path ++ '.' :: pcp.host) else none).getD path =
      pcp.output user path := by
  rw [Client.output]
  split <;> rfl

theorem output_nested (pcp : Client) (path : CStr) : pcp.output false path = path := by
  rw [Client.output, if_neg (by simp)]

theorem fileRecord_eq {sb : StatBuf} {output_file name : CStr} (hname : name = xbasename output_file)
    (hsize : 0 ≤ sb.st_size.toInt) (hfits : 8 + numDigits sb.st_size.toInt.toNat + name.length < BUFSIZ) :
    fileRecord sb output_file = fileLine sb name := by
  have hlen := @length_entryText sb.permissions sb.st_size.toInt.toNat name sb.permissions_lt
  have htext : fileRecord sb output_file = snprintf BUFSIZ (fileLine sb name) := by
    obtain ⟨size, hsize'⟩ := Int.eq_ofNat_of_zero_le hsize
    rw [fileRecord, fileLine, hsize', intText_natCast, entryText, hname, Int.toNat_natCast]
    simp
  rw [htext, snprintf, List.take_of_length_le]
  rw [fileLine, List.length_append, List.length_cons, hlen, List.length_singleton]
  omega

theorem dirRecord_eq {sb : StatBuf} {output_file name : CStr} (hname : name = xbasename output_file)
    (hfits : 8 + numDigits 0 + name.length < BUFSIZ) :
    dirRecord sb output_file = dirLine sb name := by
  have hlen := @length_entryText sb.permissions 0 name sb.permissions_lt
  have htext : dirRecord sb output_file = snprintf BUFSIZ (dirLine sb name) := by
    rw [dirLine, hname]
    rfl
  rw [htext, snprintf, List.take_of_length_le]
  rw [dirLine, List.length_append, List.length_cons, hlen, List.length_singleton]
  omega

/-! ## Each function of the client -/

section Client

variable {fs : SourceFs} {e : Source} {s : List (Act Char)} {pcp : Client}

theorem pcpResponse_script {post : Bool → Source → List (Act Char) → Prop} (h : post true e s)
    (host : CStr) : (pcpResponse host).Conforms fs.does false post e (.recv NUL :: s) :=
  .bind (.recvByte h)

theorem pcpSendstr_script {post : Outcome → Source → List (Act Char) → Prop} {str : CStr}
    (hstr : Sendable str) (h : post .succeeded e s) :
    (pcpSendstr str).Conforms fs.does false post e (sends str ++ s) := by
  rw [pcpSendstr, if_pos hstr]
  exact .bind (.sendAll h)

/-- The loop sends what the file holds, in whatever pieces it is read. -/
theorem sendDataLoop_script {post : Bool → Source → List (Act Char) → Prop} {fuel : Nat}
    {data : List Char} (hread : e.reading = data) (hfuel : data.length < fuel)
    (h : post true { e with reading := [] } s) (filename host : CStr) :
    (sendDataLoop filename host fuel).Conforms fs.does false post e (sends data ++ s) := by
  induction fuel generalizing e data with
  | zero => omega
  | succ fuel ih =>
      refine .bind ⟨⟨some (data.take BUFSIZ), { e with reading := data.drop BUFSIZ }, ?_⟩, ?_⟩
      · refine ⟨_, _, ?_, List.length_take_le _ _, fun hnil => ?_, rfl, rfl⟩
        · rw [hread, List.take_append_drop]
        · rcases List.take_eq_nil_iff.mp hnil with hzero | hnil
          · cases hzero
          · rw [hnil]
            rfl
      rintro a e' ⟨tmpbuf, rest, hsplit, -, hend, rfl, rfl⟩
      rw [hread] at hsplit
      subst hsplit
      cases tmpbuf with
      | nil =>
          obtain rfl := hend rfl
          exact h
      | cons b tmpbuf =>
          rw [sends_append, List.append_assoc]
          refine .bind (.sendAll ?_)
          refine ih rfl ?_ h
          rw [List.length_append, List.length_cons] at hfuel
          omega

theorem pcpSendFileData_script {post : Bool → Source → List (Act Char) → Prop} {fuel : Nat}
    {filename : CStr} (he : e.reading = []) (haccess : fs.access filename)
    (hfuel : (fs.data filename).length < fuel) (h : post true e s) (host : CStr) :
    (pcpSendFileData fuel filename host).Conforms fs.does false post e
      (sends (fs.data filename) ++ s) := by
  have hopen : ∀ (a : Bool) e', fs.does e (.openFile filename) a e' ↔
      a = true ∧ e' = { e with reading := fs.data filename } := by
    intro a e'
    show a = fs.access filename ∧ e' = { e with reading := if fs.access filename then _ else _ } ↔ _
    rw [if_pos haccess, haccess]
  refine .bind (.ask hopen ?_)
  refine .bind (sendDataLoop_script rfl hfuel ?_ filename host)
  refine .bind ⟨⟨(), _, rfl⟩, ?_⟩
  rintro - e' rfl
  cases e
  cases he
  exact h

theorem sendTimes_script {post : Outcome → Source → List (Act Char) → Prop} (sb : StatBuf)
    (h : post .succeeded e s) :
    (sendTimes pcp sb).Conforms fs.does false post e (timesScript pcp.preserve sb ++ s) := by
  have hline := times_sendable sb
  rw [sendTimes, timesScript]
  generalize timesRecord sb = line at hline ⊢
  cases pcp.preserve with
  | false => exact h
  | true =>
      rw [if_pos rfl, if_pos rfl, request, List.append_assoc]
      refine .bind (pcpSendstr_script hline ?_)
      refine .bind (pcpResponse_script ?_ _)
      exact h

/-- A file up to the answer to its record. -/
theorem pcpSendfile_record {post : Outcome → Source → List (Act Char) → Prop} {fuel : Nat}
    {file line : CStr} {output_file : Option CStr} {sb : StatBuf} (hstat : fs.stat file = some sb)
    (hrecord : (if sb.isDir then dirRecord sb (output_file.getD file)
      else fileRecord sb (output_file.getD file)) = line) (hline : Sendable line)
    (h : (sendContents fuel pcp file sb).Conforms fs.does false post e s) :
    (pcpSendfile fuel pcp file output_file).Conforms fs.does false post e
      (timesScript pcp.preserve sb ++ request line ++ s) := by
  have hask : ∀ (a : Option StatBuf) e', fs.does e (.stat file) a e' ↔ a = some sb ∧ e' = e := by
    intro a e'
    show a = fs.stat file ∧ e' = e ↔ _
    rw [hstat]
  rw [pcpSendfile, List.append_assoc]
  refine .bind (.ask hask ?_)
  refine .bind (sendTimes_script sb ?_)
  dsimp only
  rw [hrecord, request, List.append_assoc]
  refine .bind (pcpSendstr_script hline ?_)
  refine .bind (pcpResponse_script ?_ _)
  rw [if_pos rfl]
  refine .bind ⟨⟨(), _, rfl⟩, ?_⟩
  rintro - e' rfl
  exact h

theorem pcpSendfile_file {post : Outcome → Source → List (Act Char) → Prop} {fuel : Nat}
    {file name : CStr} {output_file : Option CStr} {sb : StatBuf} (he : e.reading = [])
    (hstat : fs.stat file = some sb) (hname : name = xbasename (output_file.getD file))
    (hok : EntryOk pcp.preserve file name sb) (hreg : sb.isReg) (haccess : fs.access file)
    (hsize : sb.st_size.toInt = (fs.data file).length) (hfuel : (fs.data file).length < fuel)
    (h : post .succeeded e s) :
    (pcpSendfile fuel pcp file output_file).Conforms fs.does false post e
      (timesScript pcp.preserve sb ++ request (fileLine sb name) ++
        (request (fs.data file ++ [NUL]) ++ s)) := by
  have hrecord : (if sb.isDir then dirRecord sb (output_file.getD file)
      else fileRecord sb (output_file.getD file)) = fileLine sb name := by
    rw [StatBuf.not_isDir hreg]
    exact fileRecord_eq hname (by omega) hok.fits
  refine pcpSendfile_record hstat hrecord List.getLast?_concat ?_
  rw [sendContents, if_pos hreg, request, sends_append, List.append_assoc, List.append_assoc]
  refine .bind (pcpSendFileData_script he haccess hfuel ?_ pcp.host)
  rw [if_pos rfl]
  refine .bind ⟨⟨(), _, rfl⟩, ?_⟩
  rintro - e' rfl
  refine .bind (.sendAll ?_)
  refine .bind (pcpResponse_script ?_ _)
  exact h

theorem pcpSendfile_dir {post : Outcome → Source → List (Act Char) → Prop} {fuel : Nat}
    {file name : CStr} {output_file : Option CStr} {sb : StatBuf}
    (hstat : fs.stat file = some sb) (hname : name = xbasename (output_file.getD file))
    (hok : EntryOk pcp.preserve file name sb) (hdir : sb.isDir) (h : post .succeeded e s) :
    (pcpSendfile fuel pcp file output_file).Conforms fs.does false post e
      (timesScript pcp.preserve sb ++ request (dirLine sb name) ++ s) := by
  have hpos := numDigits_pos sb.st_size.toInt.toNat
  have hfits := hok.fits
  have hrecord : (if sb.isDir then dirRecord sb (output_file.getD file)
      else fileRecord sb (output_file.getD file)) = dirLine sb name := by
    rw [if_pos hdir]
    refine dirRecord_eq hname ?_
    show 8 + 1 + name.length < BUFSIZ
    omega
  refine pcpSendfile_record hstat hrecord List.getLast?_concat ?_
  have hreg : sb.isReg = false := by
    cases hreg : sb.isReg with
    | false => rfl
    | true => rw [StatBuf.not_isDir hreg] at hdir; cases hdir
  rw [sendContents, hreg]
  exact h

/-! ## The files of a listing -/

theorem entry_script {post : Bool → Source → List (Act Char) → Prop} {fuel : Nat} {pf : PcpFilename}
    (hpf : pf.filename ≠ EXIT_SUBDIR_FILENAME)
    (h : (pcpSendfile fuel pcp pf.filename (if pcp.pcp_client ∧ pf.file_specified_by_user then
        some (pf.filename ++ '.' :: pcp.host) else none)).Conforms fs.does false
      (fun r e s => post (r ≠ .exited) e s) e s) :
    (pcpSendfileEntry fuel pcp pf).Conforms fs.does false post e s := by
  refine .bind ⟨⟨(), _, rfl⟩, ?_⟩
  rintro - e' rfl
  rw [if_neg hpf]
  exact .bind h

theorem leave_script {post : Bool → Source → List (Act Char) → Prop} {fuel : Nat}
    (h : post true e s) :
    (pcpSendfileEntry fuel pcp ⟨EXIT_SUBDIR_FILENAME, false⟩).Conforms fs.does false post e
      (request EXIT_SUBDIR_FLAG ++ s) := by
  refine .bind ⟨⟨(), _, rfl⟩, ?_⟩
  rintro - e' rfl
  rw [if_pos rfl]
  refine .bind ⟨⟨(), _, rfl⟩, ?_⟩
  rintro - e' rfl
  rw [request, List.append_assoc]
  refine .bind (pcpSendstr_script (by decide) ?_)
  refine .bind (pcpResponse_script ?_ _)
  exact h

end Client

/-- The client goes through the files of a listing, and then through the others. -/
theorem sendFiles_script {fs : SourceFs} {e : Source} {s : List (Act Char)} {pcp : Client}
    {fuel : Nat} {infiles : List PcpFilename} {post : Unit → Source → List (Act Char) → Prop}
    {l : Listing} {user : Bool} {found : List (CStr × CStr)} (he : e.reading = [])
    (hshown : l.Shown fs found) (hname : ∀ x ∈ found, x.2 = xbasename (pcp.output user x.1))
    (hok : l.Ok pcp.preserve) (hfuel : l.Short fuel)
    (h : (sendFiles fuel pcp infiles).Conforms fs.does false post e s) :
    (sendFiles fuel pcp (l.files user ++ infiles)).Conforms fs.does false post e
      (l.script pcp.preserve ++ s) := by
  induction l generalizing user found infiles s with
  | nil => exact h
  | file path name sb data next ih =>
      obtain ⟨more, rfl, hstat, hreg, haccess, rfl, hnext⟩ := hshown
      obtain ⟨hentry, hsize, hok⟩ := hok
      rw [List.forall_mem_cons] at hname
      have hgo := ih hnext hname.2 hok hfuel.2 h
      rw [Listing.script, List.append_assoc, List.append_assoc]
      refine .bind (entry_script hentry.notExit ?_)
      refine pcpSendfile_file he hstat ?_ hentry hreg haccess hsize hfuel.1 hgo
      rw [output_getD]
      exact hname.1
  | dir path name sb below next ihbelow ihnext =>
      obtain ⟨more, names, rfl, hstat, hdir, -, -, hbelow, hnext⟩ := hshown
      obtain ⟨hentry, hokbelow, hok⟩ := hok
      rw [List.forall_mem_cons] at hname
      have hgo := ihnext hnext hname.2 hok hfuel.2 h
      have hleave : (sendFiles fuel pcp (⟨EXIT_SUBDIR_FILENAME, false⟩ ::
          (next.files user ++ infiles))).Conforms fs.does false post e
            (request EXIT_SUBDIR_FLAG ++ (next.script pcp.preserve ++ s)) := by
        refine .bind (leave_script ?_)
        exact hgo
      have hnested : ∀ x ∈ names.map (entryOf path), x.2 = xbasename (pcp.output false x.1) := by
        intro x hx
        obtain ⟨name', -, rfl⟩ := List.mem_map.mp hx
        rw [output_nested]
        rfl
      have hdown := ihbelow hbelow hnested hokbelow hfuel.1 hleave
      have hfiles : (Listing.dir path name sb below next).files user ++ infiles =
          ⟨path, user⟩ :: (below.files false ++ ⟨EXIT_SUBDIR_FILENAME, false⟩ ::
            (next.files user ++ infiles)) := by
        simp [Listing.files]
      have hscript : (Listing.dir path name sb below next).script pcp.preserve ++ s =
          timesScript pcp.preserve sb ++ request (dirLine sb name) ++
            (below.script pcp.preserve ++ (request EXIT_SUBDIR_FLAG ++
              (next.script pcp.preserve ++ s))) := by
        simp [Listing.script]
      rw [hfiles, hscript]
      refine .bind (entry_script hentry.notExit ?_)
      refine pcpSendfile_dir hstat ?_ hentry hdir hdown
      rw [output_getD]
      exact hname.1

end Pdsh.Pcp
