import Pdsh.Pcp.Sink

/-!
# Where the server of a copy can reach

The paths of `_sink` are built from the target and the names of the `C` and `D` records,
one name a level. The names are not looked at: what they may reach is what they say. So
every path is the target extended by received names (`sink_paths`), and it is below the
target as long as every received name is a single component that does not lead up.
-/

namespace Pdsh.Pcp

open Lib.Process

/-- A path component that stays in its directory. -/
def Proper (name : CStr) : Prop := name ≠ ['.'] ∧ name ≠ ['.', '.'] ∧ '/' ∉ name

/-- The target, or the target extended by names that are `ok`. -/
def Below (ok : CStr → Prop) (targ path : CStr) : Prop :=
  ∃ names : List CStr, (∀ name ∈ names, ok name) ∧ path = names.foldl entryPath targ

theorem Below.refl {ok : CStr → Prop} (targ : CStr) : Below ok targ targ := ⟨[], by simp, rfl⟩

theorem Below.entry {ok : CStr → Prop} {targ path name : CStr} (h : Below ok targ path)
    (hname : ok name) : Below ok targ (entryPath path name) := by
  obtain ⟨names, hnames, rfl⟩ := h
  refine ⟨names ++ [name], ?_, by simp⟩
  intro n hn
  rcases List.mem_append.mp hn with hn | hn
  · exact hnames n hn
  · rwa [List.mem_singleton.mp hn]

theorem Below.mono {ok ok' : CStr → Prop} {targ path : CStr} (h : Below ok targ path)
    (hok : ∀ name, ok name → ok' name) : Below ok' targ path := by
  obtain ⟨names, hnames, hpath⟩ := h
  exact ⟨names, fun name hname => hok name (hnames name hname), hpath⟩

/-! ## The server keeps below its target -/

/-- The path of the call is below the target. -/
def Confined (ok : CStr → Prop) (targ : CStr) (c : Call) : Prop :=
  ∀ path, c.path = some path → Below ok targ path

/-- A received name is `ok`. -/
def NameOk (ok : CStr → Prop) (c : Call) (_ : c.Answer) : Prop :=
  ∀ targ isdir name, c = .took targ (.entry isdir name) → ok name

/-- Calls below `targ`, as long as the received names are `ok`. -/
abbrev Keeps (ok : CStr → Prop) (targ : CStr) {α : Type} (p : SinkM α) (post : α → Prop) : Prop :=
  p.Safe (Confined ok targ) (NameOk ok) post

variable {ok : CStr → Prop} {targ : CStr} {α β : Type}

theorem keeps_done {a : α} {post : α → Prop} (h : post a) : Keeps ok targ (.done a) post := h

theorem keeps_bind {p : SinkM α} {f : α → SinkM β} {mid : α → Prop} {post : β → Prop}
    (h : Keeps ok targ p mid) (hf : ∀ a, mid a → Keeps ok targ (f a) post) :
    Keeps ok targ (p >>= f) post := h.bind hf

/-- A part of the program whose result does not matter. -/
theorem keeps_then {p : SinkM α} {f : α → SinkM β} {post : β → Prop}
    (h : Keeps ok targ p fun _ => True) (hf : ∀ a, Keeps ok targ (f a) post) :
    Keeps ok targ (p >>= f) post := h.bind fun a _ => hf a

/-- A call without a path. -/
theorem keeps_call {c : Call} (h : c.path = none) :
    Keeps ok targ (Prog.ask (S := sinkSig) c) fun _ => True :=
  ⟨fun path hpath => absurd (h.symm.trans hpath) (by simp), fun _ _ => trivial⟩

/-- A call to a path below the target. -/
theorem keeps_path {c : Call} {path : CStr} (hc : c.path = some path) (h : Below ok targ path) :
    Keeps ok targ (Prog.ask (S := sinkSig) c) fun _ => True := by
  refine ⟨fun path' hpath => ?_, fun _ _ => trivial⟩
  rw [hc] at hpath
  cases hpath
  exact h

/-- A received name is `ok` from here on. -/
theorem keeps_took (t : CStr) (isdir : Bool) (name : CStr) :
    Keeps ok targ (took t (.entry isdir name)) fun _ => ok name :=
  ⟨fun _ hpath => (nomatch hpath), fun _ h => h t isdir name rfl⟩

theorem keeps_recvByte : Keeps ok targ (Prog.recvByte : SinkM _) fun _ => True :=
  fun _ => trivial

theorem keeps_ack : Keeps ok targ ack fun _ => True :=
  keeps_then (keeps_call rfl) fun _ => keeps_then (fun _ => trivial) fun _ => trivial

theorem keeps_error (text : CStr) : Keeps ok targ (error text) fun _ => True := by
  apply keeps_then (keeps_call rfl)
  intro opened
  split
  · exact keeps_then (keeps_call rfl) fun _ => keeps_then (Prog.Safe.sendAll _) fun _ => trivial
  · trivial

theorem keeps_errorM (text : CStr) : Keeps ok targ (errorM text) fun _ => True :=
  keeps_then (keeps_call rfl) fun _ => keeps_error _

theorem keeps_screwup (why : String) : Keeps ok targ (screwup why) fun _ => True := keeps_error _

theorem keeps_ackOrError (text : String) : Keeps ok targ (ackOrError text) fun _ => True := by
  apply keeps_then keeps_ack
  intro acked
  split
  · trivial
  · exact keeps_errorM _

theorem keeps_response : Keeps ok targ response fun _ => True := by
  apply keeps_then keeps_recvByte
  intro resp
  split
  · exact keeps_then (keeps_error _) fun _ => trivial
  · split
    · trivial
    · exact keeps_then (keeps_error _) fun _ => trivial

theorem keeps_restOfRecord (room : Nat) : Keeps ok targ (restOfRecord room) fun _ => True := by
  induction room with
  | zero => trivial
  | succ room ih =>
      apply keeps_then keeps_recvByte
      intro ch
      split
      · trivial
      · split
        · trivial
        · exact keeps_then ih fun _ => trivial

/-- The path of a record is below the target: the buffer is long enough for all of it. -/
theorem keeps_namebuf {l : Level} {name : CStr} (hl : Below ok targ l.targ) (hname : ok name) :
    Keeps ok targ (namebuf l name) fun r =>
      r.2.targ = l.targ ∧ ∀ np, r.1 = some np → Below ok targ np := by
  have hfits : ∀ size, l.targ.length + name.length + 250 ≤ size →
      snprintf size (entryPath l.targ name) = entryPath l.targ name := by
    intro size hsize
    apply List.take_of_length_le
    simp only [entryPath, List.length_append]
    split <;> simp <;> omega
  have hentry := hl.entry hname
  show Keeps ok targ (ite _ _ _) _
  split
  · dsimp only
    split
    · apply keeps_then (keeps_call rfl)
      intro got
      split
      · refine keeps_done ⟨rfl, fun np hnp => ?_⟩
        cases hnp
        rwa [hfits _ (Nat.le_refl _)]
      · exact keeps_then (keeps_error _) fun _ => ⟨rfl, fun np hnp => nomatch hnp⟩
    · rename_i hroom
      refine keeps_done ⟨rfl, fun np hnp => ?_⟩
      cases hnp
      rwa [hfits _ (Nat.le_of_not_lt hroom)]
  · refine keeps_done ⟨rfl, fun np hnp => ?_⟩
    cases hnp
    exact hl

theorem keeps_allocbuf (cnt fd : Nat) : Keeps ok targ (allocbuf cnt fd) fun _ => True := by
  apply keeps_then (keeps_call rfl)
  intro st_blksize
  split
  · exact keeps_then (keeps_errorM _) fun _ => trivial
  · dsimp only
    split
    · apply keeps_then (keeps_call rfl)
      intro got
      split
      · trivial
      · exact keeps_then (keeps_error _) fun _ => trivial
    · trivial

theorem keeps_writeOut (fd : Nat) (buf : List Char) (wrerr : Wrerr) :
    Keeps ok targ (writeOut fd buf wrerr) fun _ => True := by
  show Keeps ok targ (ite _ _ _) _
  split
  · apply keeps_then (keeps_call rfl)
    intro written
    split <;> trivial
  · trivial

theorem keeps_readBlocks (cnt fd blocks left : Nat) (buf : List Char) (wrerr : Wrerr) :
    Keeps ok targ (readBlocks cnt fd blocks left buf wrerr) fun _ => True := by
  induction blocks generalizing left buf wrerr with
  | zero => trivial
  | succ blocks ih =>
      apply keeps_then (Prog.Safe.recvAll _)
      intro data
      split
      · exact keeps_then (keeps_errorM _) fun _ => trivial
      · dsimp only
        split
        · exact keeps_then (keeps_writeOut _ _ _) fun _ => ih _ _ _
        · exact ih _ _ _

theorem keeps_readData (cnt fd : Nat) (size : Int) :
    Keeps ok targ (readData cnt fd size) fun _ => True := by
  apply keeps_then (keeps_readBlocks _ _ _ _ _ _)
  intro r
  split
  · trivial
  · split
    · exact keeps_then (keeps_writeOut _ _ _) fun _ => trivial
    · trivial

theorem keeps_setTimes {np : CStr} (hnp : Below ok targ np) (tv : Times) :
    Keeps ok targ (setTimes np tv) fun _ => True := by
  apply keeps_then (keeps_path rfl hnp)
  intro set
  split
  · trivial
  · exact keeps_then (keeps_errorM _) fun _ => trivial

theorem keeps_truncate (np : CStr) (fd : Nat) (size : Int) (wrerr : Wrerr) :
    Keeps ok targ (truncate np fd size wrerr) fun _ => True := by
  apply keeps_then (keeps_call rfl)
  intro truncated
  split
  · trivial
  · exact keeps_then (keeps_errorM _) fun _ => trivial

theorem keeps_fileTimes (l : Level) {np : CStr} (hnp : Below ok targ np) (wrerr : Wrerr) :
    Keeps ok targ (fileTimes l np wrerr) fun r => r.2.targ = l.targ := by
  show Keeps ok targ (ite _ _ _) _
  split
  · apply keeps_then (keeps_setTimes hnp _)
    intro set
    split <;> rfl
  · rfl

theorem keeps_answerFile (np : CStr) (wrerr : Wrerr) :
    Keeps ok targ (answerFile np wrerr) fun _ => True := by
  cases wrerr with
  | yes => exact keeps_errorM _
  | no => exact keeps_ackOrError _
  | displayed => trivial

theorem keeps_finishFile (l : Level) {np : CStr} (hnp : Below ok targ np) (fd : Nat) (size : Int)
    (wrerr : Wrerr) :
    Keeps ok targ (finishFile l np fd size wrerr) fun r => r.2.targ = l.targ := by
  apply keeps_then (keeps_truncate _ _ _ _)
  intro wrerr
  apply keeps_then (keeps_call rfl)
  intro _
  apply keeps_then keeps_response
  intro ended
  split
  · apply keeps_then (keeps_call rfl)
    intro _
    apply keeps_bind (keeps_fileTimes l hnp wrerr)
    intro r hr
    exact keeps_then (keeps_answerFile _ _) fun _ => hr
  · rfl

theorem keeps_receiveFile (svr : Server) (l : Level) {np : CStr} (hnp : Below ok targ np)
    (mode : Nat) (size : Int) (found : Bool) (cnt : Nat) :
    Keeps ok targ (receiveFile svr l np mode size found cnt) fun r => r.2.1.targ = l.targ := by
  apply keeps_then (keeps_path rfl hnp)
  intro ofd
  split
  · exact keeps_then (keeps_errorM _) fun _ => rfl
  · apply keeps_then
    · show Keeps ok targ (ite _ _ _) _
      split
      · exact keeps_call rfl
      · trivial
    intro _
    apply keeps_then (keeps_ackOrError _)
    intro _
    apply keeps_then (keeps_allocbuf _ _)
    intro r
    split
    · exact keeps_then (keeps_call rfl) fun _ => rfl
    · apply keeps_then (keeps_readData _ _ _)
      intro wrerr
      split
      · rfl
      · exact keeps_bind (keeps_finishFile l hnp _ _ _) fun r hr => hr

theorem keeps_enterDir (svr : Server) {np : CStr} (hnp : Below ok targ np) (mode : Nat)
    (st : Option FileType) : Keeps ok targ (enterDir svr np mode st) fun _ => True := by
  cases st with
  | none =>
      apply keeps_then (keeps_path rfl hnp)
      intro made
      split
      · trivial
      · exact keeps_then (keeps_errorM _) fun _ => trivial
  | some st =>
      cases st with
      | dir =>
          show Keeps ok targ (ite _ _ _) _
          split
          · exact keeps_then (keeps_path rfl hnp) fun _ => trivial
          · trivial
      | other => exact keeps_then (keeps_error _) fun _ => trivial

theorem keeps_leaveDir (l : Level) {np : CStr} (hnp : Below ok targ np) :
    Keeps ok targ (leaveDir l np) fun l' => l'.targ = l.targ := by
  show Keeps ok targ (ite _ _ _) _
  split
  · exact keeps_then (keeps_setTimes hnp _) fun _ => rfl
  · rfl

theorem keeps_sinkStart (svr : Server) (hout : Below ok targ svr.outfile) {np : CStr}
    (hnp : Below ok targ np) :
    Keeps ok targ (sinkStart svr np) fun r => ∀ l, r = some l → l.targ = np := by
  apply keeps_then (keeps_call rfl)
  intro got
  split
  · have hmask : Keeps ok targ (clearMask svr) fun _ => True := by
      apply keeps_then (keeps_call rfl)
      intro mask
      split
      · trivial
      · exact keeps_then (keeps_call rfl) fun _ => trivial
    have hverify : Keeps ok targ (verifyTarget svr) fun _ => True := by
      show Keeps ok targ (ite _ _ _) _
      split
      · apply keeps_then (keeps_path rfl hout)
        intro st
        match st with
        | some .dir => trivial
        | some .other => exact keeps_then (keeps_error _) fun _ => keeps_done trivial
        | none => exact keeps_then (keeps_error _) fun _ => keeps_done trivial
      · trivial
    apply keeps_then hmask
    intro _
    apply keeps_then hverify
    intro verified
    split
    · apply keeps_then keeps_ack
      intro acked
      split
      · apply keeps_then (keeps_path rfl hnp)
        intro st l hl
        cases hl
        rfl
      · exact keeps_then (keeps_screwup _) fun _ l hl => nomatch hl
    · exact fun l hl => nomatch hl
  · exact keeps_then (keeps_errorM _) fun _ l hl => nomatch hl

/-- The loop of `_sink` keeps below the target of the copy, at every level. -/
theorem keeps_sinkLoop (svr : Server) (hout : Below ok targ svr.outfile) (fuel : Nat) (l : Level)
    (hl : Below ok targ l.targ) (cnt : Nat) :
    Keeps ok targ (sinkLoop svr fuel l cnt) fun _ => True := by
  induction fuel generalizing l cnt with
  | zero => trivial
  | succ fuel ih =>
      apply keeps_then keeps_recvByte
      intro c
      split
      · trivial
      split
      · exact keeps_then (keeps_screwup _) fun _ => trivial
      apply keeps_then (keeps_restOfRecord _)
      intro more
      split
      · exact keeps_then (keeps_screwup _) fun _ => trivial
      split
      · exact ih l hl cnt
      split
      · trivial
      split
      · apply keeps_then (keeps_call rfl)
        intro _
        apply keeps_then keeps_ack
        intro acked
        split
        · trivial
        · exact keeps_then (keeps_screwup _) fun _ => trivial
      split
      · exact keeps_then (keeps_screwup _) fun _ => trivial
      · -- the times of the next entry
        rename_i tv _
        apply keeps_then (keeps_call rfl)
        intro _
        apply keeps_then keeps_ack
        intro acked
        split
        · exact ih { l with tv := tv, setimes := l.setimes + 1 } hl cnt
        · exact keeps_then (keeps_screwup _) fun _ => trivial
      · rename_i isdir mode size name _
        apply keeps_bind (keeps_took _ isdir name)
        intro _ hname
        apply keeps_bind (keeps_namebuf hl hname)
        rintro ⟨np, l'⟩ ⟨hl', hnp⟩
        dsimp only at hl' hnp
        have hl' : Below ok targ l'.targ := hl' ▸ hl
        cases np with
        | none => exact ih _ hl' cnt
        | some np =>
            have hnp := hnp np rfl
            apply keeps_then (keeps_path rfl hnp)
            intro st
            split
            · apply keeps_then (keeps_enterDir svr hnp mode st)
              intro entered
              split
              · apply keeps_bind (keeps_sinkStart svr hout hnp)
                intro below hbelow
                cases below with
                | none =>
                    apply keeps_bind (keeps_leaveDir l' hnp)
                    intro l'' hl''
                    exact ih _ (hl'' ▸ hl') cnt
                | some below =>
                    -- one level down, with the path of the record as its target
                    apply keeps_then (ih below (hbelow below rfl ▸ hnp) cnt)
                    intro cnt'
                    apply keeps_bind (keeps_leaveDir l' hnp)
                    intro l'' hl''
                    exact ih _ (hl'' ▸ hl') cnt'
              · exact ih _ hl' cnt
            · apply keeps_bind (keeps_receiveFile svr l' hnp mode size _ cnt)
              rintro ⟨goesOn, l'', cnt'⟩ hl''
              dsimp only at hl'' ⊢
              split
              · exact ih _ (hl'' ▸ hl') cnt'
              · trivial

theorem keeps_pcpServer (ok : CStr → Prop) (fuel : Nat) (svr : Server) :
    Keeps ok svr.outfile (pcpServer fuel svr) fun _ => True := by
  apply keeps_bind (keeps_sinkStart svr (.refl _) (.refl _))
  intro l hl
  cases l with
  | none => trivial
  | some l => exact keeps_sinkLoop svr (.refl _) fuel l (hl l rfl ▸ .refl _) 0

/-! ## Runs -/

/-- The names of the `C` and `D` records taken in a run, as they stand. -/
def Received (es : List SinkEvent) (name : CStr) : Prop :=
  ∃ targ isdir, called (.took targ (.entry isdir name)) () ∈ es

/-- In every run, every path is the target extended by received names; and so it stays
below the target when no received name has a slash or leads up. -/
theorem sink_paths (fuel : Nat) (svr : Server) (es : List SinkEvent) (q : SinkM Nat)
    (hrun : (pcpServer fuel svr).follow es = some q) :
    (∀ c a path, called c a ∈ es → c.path = some path →
      Below (Received es) svr.outfile path) ∧
    ((∀ name, Received es name → Proper name) → ∀ c a path,
      called c a ∈ es → c.path = some path →
      Below Proper svr.outfile path) := by
  have hbelow : ∀ c a path, called c a ∈ es → c.path = some path →
      Below (Received es) svr.outfile path := by
    intro c a path hc hpath
    refine (keeps_pcpServer (Received es) fuel svr).calls hrun ?_ hc path hpath
    rintro c a hmem t isdir name rfl
    exact ⟨t, isdir, hmem⟩
  exact ⟨hbelow, fun hproper c a path hc hpath => (hbelow c a path hc hpath).mono hproper⟩

theorem foldl_entryPath (names : List CStr) {targ : CStr} (h : targ ≠ []) :
    names.foldl entryPath targ = targ ++ names.flatMap ('/' :: ·) := by
  induction names generalizing targ with
  | nil => simp
  | cons name names ih =>
      have hne : entryPath targ name ≠ [] := by simp [entryPath, h]
      rw [List.foldl_cons, ih hne]
      simp [entryPath, h]

/-- The first component behind a target that is below it has no slash. -/
theorem Below.component {targ path : CStr} (h : Below Proper targ path) (htarg : targ ≠ [])
    (rest : CStr) (hpath : path = targ ++ '/' :: rest) :
    Proper (rest.takeWhile (· ≠ '/')) := by
  obtain ⟨names, hnames, rfl⟩ := h
  rw [foldl_entryPath names htarg, List.append_cancel_left_eq] at hpath
  cases names with
  | nil => cases hpath
  | cons name names =>
      have hname := hnames name List.mem_cons_self
      have hrest : rest = name ++ names.flatMap ('/' :: ·) := by
        simpa using hpath.symm
      have hslash : ∀ c ∈ name, decide (c ≠ '/') = true :=
        fun c hc => decide_eq_true fun heq => hname.2.2 (heq ▸ hc)
      rw [hrest, List.takeWhile_append_of_pos hslash]
      cases names with
      | nil => simpa using hname
      | cons name' names => simpa using hname

/-- A file written outside of the target: the record `C0644 0 ../x` for the target `t`. -/
def escapeRun : List SinkEvent :=
  [called (.malloc BUFSIZ) true, called (.umask 0) (18 : Nat), called (.umask 18) (0 : Nat),
    called .answering (), .write ['\x00'] 1, called (.stat ['t']) (some FileType.dir)] ++
  "C0644 0 ../x\n".toList.map (fun c => Event.read [c]) ++
  [called (.took ['t'] (.entry false "../x".toList)) (), called (.malloc 255) true,
    called (.stat "t/../x".toList) (none : Option FileType),
    called (.openFile "t/../x".toList 420) (some 3 : Option Nat)]

theorem sink_escapes : ¬ ∀ (fuel : Nat) (svr : Server) (es : List SinkEvent)
    (q : SinkM Nat), (pcpServer fuel svr).follow es = some q →
    ∀ c a path, called c a ∈ es → c.path = some path →
      Below Proper svr.outfile path := by
  intro h
  have hrun : ((pcpServer 1 ⟨false, false, ['t']⟩).follow escapeRun).isSome = true := by
    decide
  obtain ⟨q, hq⟩ := Option.isSome_iff_exists.mp hrun
  have hbelow := h 1 _ escapeRun q hq (.openFile "t/../x".toList 420) (some 3 : Option Nat) _
    (by simp [escapeRun]) rfl
  have hproper := hbelow.component (by simp) "../x".toList rfl
  exact hproper.2.1 (by decide)

theorem sink_paths_file : Below (Received escapeRun) ['t'] "t/../x".toList := by
  have hrun : ((pcpServer 1 ⟨false, false, ['t']⟩).follow escapeRun).isSome = true := by
    decide
  obtain ⟨q, hq⟩ := Option.isSome_iff_exists.mp hrun
  exact (sink_paths 1 ⟨false, false, ['t']⟩ escapeRun q hq).1 (.openFile "t/../x".toList 420)
    (some 3 : Option Nat) _ (by simp [escapeRun]) rfl

end Pdsh.Pcp
