import Pdsh.Opt.Include
import Pdsh.Lib.Search

/-!
# Each path opened once

A read of files of hosts is a search of the paths that includes lead to (`Lib.Search`). It stops
where an include cannot be read or an expression is not accepted, which ends the process. So it
opens no path twice, but for one: `read_wcoll` opens the file it begins with without its path in
the cache, and opens that path again where includes lead back to it before anything stops the
read (`read_wcoll_ends_iff`).
-/

namespace Pdsh

open Lib Lib.Run

variable {fs : FileSystem} {slack : CStr} {path_list names names' lines lines' opened : List CStr}
  {ctx ctx' : WcollCtx} {todo todo' : List (SearchTask CStr)}

/-! ## A file as tasks -/

/-- An include goes to a path, or stops the read. -/
def includeTask (fs : FileSystem) (path_list : List CStr) (f : CStr) : SearchTask CStr :=
  match resolvePath fs path_list f with
  | some p => .go p
  | none => .stop

/-- So does an expression that `hostlist_create` does not accept. -/
def pushTasks (slack line : CStr) : List (SearchTask CStr) :=
  if lineHosts line = [] then []
  else match hostlistCreate slack (lineHosts line) with
    | .ret _ => []
    | _ => [.stop]

def lineTasks (fs : FileSystem) (slack : CStr) (path_list : List CStr) (line : CStr) : List (SearchTask CStr) :=
  (lineInclude line).toList.map (includeTask fs path_list) ++ pushTasks slack line

/-- The tasks of the file behind a path. -/
def pathTasks (fs : FileSystem) (slack : CStr) (path_list : List CStr) (p : CStr) : List (SearchTask CStr) :=
  if fs.access p = true then
    match fs.fopen p with
    | some n => (fileLines (fs.files.get n)).flatMap (lineTasks fs slack path_list)
    | none => [.stop]
  else [.stop]

/-! ## What a read can end with -/

/-- The line was read: it is one of the `lines`, or in a file that was opened. -/
def LineRead (fs : FileSystem) (lines opened : List CStr) (line : CStr) : Prop :=
  line ∈ lines ∨ ∃ p ∈ opened, ∃ n, fs.fopen p = some n ∧ line ∈ fileLines (fs.files.get n)

/-- The name leads to no file, or to one that cannot be read. -/
def Unreadable (fs : FileSystem) (path_list : List CStr) (f : CStr) : Prop :=
  ∀ p, resolvePath fs path_list f = some p → fs.access p = true → fs.fopen p = none

/-- A file that cannot be read, one of the `names` or included on a line that was read; or an
error of the push of such a line. -/
def ErrorOk (fs : FileSystem) (slack : CStr) (path_list names lines opened : List CStr) : WcollError → Prop
  | .unreadable f =>
      (f ∈ names ∨ ∃ line, LineRead fs lines opened line ∧ lineInclude line = some f) ∧ Unreadable fs path_list f
  | .push e => ∃ line, LineRead fs lines opened line ∧ hostlistCreate slack (lineHosts line) = .exit e

theorem ErrorOk.of_read {e : WcollError} (h : ErrorOk fs slack path_list names lines opened e)
    (hnames : ∀ f ∈ names, f ∈ names' ∨ ∃ line, LineRead fs lines' opened line ∧ lineInclude line = some f)
    (hlines : ∀ line ∈ lines, LineRead fs lines' opened line) :
    ErrorOk fs slack path_list names' lines' opened e := by
  have hread {line : CStr} (hline : LineRead fs lines opened line) : LineRead fs lines' opened line := by
    rcases hline with hline | hopen
    · exact hlines line hline
    · exact .inr hopen
  cases e with
  | unreadable f =>
      obtain ⟨hnamed, hunreadable⟩ := h
      refine ⟨?_, hunreadable⟩
      rcases hnamed with hf | ⟨line, hline, hinclude⟩
      · exact hnames f hf
      · exact .inr ⟨line, hread hline, hinclude⟩
  | push e =>
      obtain ⟨line, hline, hcreate⟩ := h
      exact ⟨line, hread hline, hcreate⟩

/-! ## A read is a search -/

/-- A read from `ctx` searches through `todo`, as far as it comes. -/
def Searches (fs : FileSystem) (slack : CStr) (names lines : List CStr) (todo : List (SearchTask CStr))
    (ctx : WcollCtx) : Read WcollCtx → Prop
  | .ret ctx' => ∃ new,
      Search (pathTasks fs slack ctx.path_list) {p | p ∈ ctx.include_cache} todo new false ∧
      ctx'.path_list = ctx.path_list ∧ ctx'.opened = ctx.opened ++ new.filter fs.access ∧
      ∀ p, p ∈ ctx'.include_cache ↔ p ∈ ctx.include_cache ∨ p ∈ new
  | .exit e => ∃ new,
      Search (pathTasks fs slack ctx.path_list) {p | p ∈ ctx.include_cache} todo new true ∧
      e.opened = ctx.opened ++ new.filter fs.access ∧
      ErrorOk fs slack ctx.path_list names lines e.opened e.error
  | .hang => True

theorem Searches.nil (fs : FileSystem) (slack : CStr) (names lines : List CStr) (ctx : WcollCtx) :
    Searches fs slack names lines [] ctx (.ret ctx) :=
  ⟨[], .nil, rfl, (List.append_nil _).symm, fun _ => (or_iff_left List.not_mem_nil).symm⟩

/-- The process ends at once. -/
theorem Searches.exit {e : WcollError} (h : ErrorOk fs slack ctx.path_list names lines ctx.opened e) :
    Searches fs slack names lines [.stop] ctx (.exit ⟨e, ctx.opened⟩) :=
  ⟨[], .stop, (List.append_nil _).symm, h⟩

theorem Searches.of_read {r : Read WcollCtx} (h : Searches fs slack names lines todo ctx r)
    (hnames : ∀ f ∈ names, f ∈ names' ∨ ∃ line ∈ lines', lineInclude line = some f) (hlines : lines ⊆ lines') :
    Searches fs slack names' lines' todo ctx r := by
  cases r with
  | ret ctx' => exact h
  | hang => exact trivial
  | exit e =>
      obtain ⟨new, hsearch, hopened, herror⟩ := h
      refine ⟨new, hsearch, hopened, herror.of_read ?_ fun line hline => .inl (hlines hline)⟩
      intro f hf
      exact (hnames f hf).imp_right fun ⟨line, hline, hinclude⟩ => ⟨line, .inl hline, hinclude⟩

/-- One read behind the other. -/
theorem Searches.bind {r : Read WcollCtx} {k : WcollCtx → Read WcollCtx}
    (h : Searches fs slack names lines todo ctx r)
    (hk : ∀ ctx', r = .ret ctx' → Searches fs slack names lines todo' ctx' (k ctx')) :
    Searches fs slack names lines (todo ++ todo') ctx (r >>= k) := by
  cases r with
  | hang => exact trivial
  | exit e =>
      -- what is behind is not read
      obtain ⟨new, hsearch, hopened, herror⟩ := h
      exact ⟨new, hsearch.append_stopped todo', hopened, herror⟩
  | ret ctx' =>
      obtain ⟨new, hsearch, hpath, hopened, hcache⟩ := h
      have hrest := hk ctx' rfl
      have hseen : {p | p ∈ ctx'.include_cache} = {p | p ∈ ctx.include_cache} ∪ {p | p ∈ new} :=
        Set.ext fun p => hcache p
      rw [ret_bind]
      cases hr : k ctx' with
      | hang => exact trivial
      | exit e =>
          rw [hr] at hrest
          obtain ⟨new', hsearch', hopened', herror⟩ := hrest
          rw [hpath, hseen] at hsearch'
          rw [hpath] at herror
          refine ⟨new ++ new', hsearch.append hsearch', ?_, herror⟩
          rw [hopened', hopened, List.filter_append, List.append_assoc]
      | ret ctx'' =>
          rw [hr] at hrest
          obtain ⟨new', hsearch', hpath', hopened', hcache'⟩ := hrest
          rw [hpath, hseen] at hsearch'
          refine ⟨new ++ new', hsearch.append hsearch', hpath'.trans hpath, ?_, fun p => ?_⟩
          · rw [hopened', hopened, List.filter_append, List.append_assoc]
          · rw [hcache', hcache, List.mem_append, or_assoc]

/-- The push of a line. -/
theorem pushHosts_searches (fs : FileSystem) (slack : CStr) (ctx : WcollCtx) (line : CStr) :
    Searches fs slack [] [line] (pushTasks slack line) ctx
      (if lineHosts line = [] then pure ctx else pushLine slack ctx (lineHosts line)) := by
  unfold pushTasks
  split
  · exact .nil fs slack [] [line] ctx
  · unfold pushLine hostlistPush
    cases hcreate : hostlistCreate slack (lineHosts line) with
    | hang => exact trivial
    | exit e => exact .exit ⟨line, .inl List.mem_cons_self, hcreate⟩
    | ret o =>
        cases o with
        | none => exact .nil fs slack [] [line] ctx
        | some hl => exact .nil fs slack [] [line] ctx

/-- What a call that reads the file behind a name does. -/
def SearchesFile (fs : FileSystem) (slack : CStr) (rf : WcollCtx → CStr → Read WcollCtx) : Prop :=
  ∀ ctx f, Searches fs slack [f] [] [includeTask fs ctx.path_list f] ctx (rf ctx f)

theorem readLine_searches {rf : WcollCtx → CStr → Read WcollCtx} (hrf : SearchesFile fs slack rf)
    (ctx : WcollCtx) (line : CStr) :
    Searches fs slack [] [line] (lineTasks fs slack ctx.path_list line) ctx (readLine slack rf ctx line) := by
  unfold readLine lineTasks
  cases hinclude : lineInclude line with
  | none => exact pushHosts_searches fs slack ctx line
  | some f =>
      have hfile : Searches fs slack [] [line] [includeTask fs ctx.path_list f] ctx (rf ctx f) := by
        refine (hrf ctx f).of_read ?_ (List.nil_subset _)
        intro g hg
        rw [List.mem_singleton.mp hg]
        exact .inr ⟨line, List.mem_cons_self, hinclude⟩
      exact hfile.bind fun ctx' _ => pushHosts_searches fs slack ctx' line

theorem readStream_searches {rf : WcollCtx → CStr → Read WcollCtx} (hrf : SearchesFile fs slack rf)
    (lines : List CStr) (ctx : WcollCtx) :
    Searches fs slack [] lines (lines.flatMap (lineTasks fs slack ctx.path_list)) ctx
      (readStream slack rf lines ctx) := by
  induction lines generalizing ctx with
  | nil => exact .nil fs slack [] [] ctx
  | cons line rest ih =>
      have hline : Searches fs slack [] (line :: rest) (lineTasks fs slack ctx.path_list line) ctx
          (readLine slack rf ctx line) :=
        (readLine_searches hrf ctx line).of_read (fun f hf => absurd hf List.not_mem_nil)
          fun l hl => List.mem_singleton.mp hl ▸ List.mem_cons_self
      unfold readStream
      rw [List.flatMap_cons]
      refine hline.bind fun ctx' hret => ?_
      -- the search path is the same for all lines, so the tasks are
      rw [hret] at hline
      obtain ⟨-, -, hpath, -⟩ := hline
      rw [← hpath]
      exact (ih ctx').of_read (fun f hf => absurd hf List.not_mem_nil) (List.subset_cons_self line rest)

/-- A path that is new goes to the cache before its file is read. -/
theorem Searches.enter {p : CStr} {n : Fin fs.files.length} {r : Read WcollCtx} (hnew : p ∉ ctx.include_cache)
    (haccess : fs.access p = true) (hopen : fs.fopen p = some n)
    (h : Searches fs slack [] (fileLines (fs.files.get n))
      ((fileLines (fs.files.get n)).flatMap (lineTasks fs slack ctx.path_list))
      { ctx with include_cache := p :: ctx.include_cache, opened := ctx.opened ++ [p] } r) :
    Searches fs slack names [] [.go p] ctx r := by
  have hseen : {q | q ∈ p :: ctx.include_cache} = insert p {q | q ∈ ctx.include_cache} :=
    Set.ext fun q => List.mem_cons
  have htasks : pathTasks fs slack ctx.path_list p =
      (fileLines (fs.files.get n)).flatMap (lineTasks fs slack ctx.path_list) := by
    unfold pathTasks
    rw [if_pos haccess, hopen]
  -- the path is the first of those that are entered, and the tasks of its file come next
  cases r with
  | hang => exact trivial
  | ret ctx' =>
      obtain ⟨new, hsearch, hpath, hopened, hcache⟩ := h
      simp only [hseen] at hsearch
      rw [← htasks] at hsearch
      have henter : Search (pathTasks fs slack ctx.path_list) {q | q ∈ ctx.include_cache} [.go p]
          (p :: new ++ []) false := .enter hnew hsearch .nil
      rw [List.append_nil] at henter
      refine ⟨p :: new, henter, hpath, ?_, fun q => ?_⟩
      · rw [hopened, List.filter_cons_of_pos haccess]
        exact List.append_assoc _ _ _
      · rw [hcache, List.mem_cons, List.mem_cons]
        tauto
  | exit e =>
      obtain ⟨new, hsearch, hopened, herror⟩ := h
      simp only [hseen] at hsearch
      rw [← htasks] at hsearch
      have heq : e.opened = ctx.opened ++ (p :: new).filter fs.access := by
        rw [hopened, List.filter_cons_of_pos haccess]
        exact List.append_assoc _ _ _
      refine ⟨p :: new, .stopped hnew hsearch, heq, herror.of_read (fun f hf => absurd hf List.not_mem_nil) ?_⟩
      intro line hline
      refine .inr ⟨p, ?_, n, hopen, hline⟩
      rw [heq, List.filter_cons_of_pos haccess]
      exact List.mem_append_right _ List.mem_cons_self

theorem readFile_searches (fs : FileSystem) (slack : CStr) (fuel : Nat) :
    SearchesFile fs slack (readFile fs slack fuel) := by
  induction fuel with
  | zero => exact fun ctx f => trivial
  | succ fuel ih =>
      intro ctx f
      unfold readFile includeTask
      cases hresolve : resolvePath fs ctx.path_list f with
      | none =>
          refine .exit ⟨.inl List.mem_cons_self, fun p hp => ?_⟩
          rw [hresolve] at hp
          cases hp
      | some p =>
          -- where the file cannot be read, the path has been entered, and its one task stops
          have hstop (hnew : p ∉ ctx.include_cache) (hbad : fs.access p = true → fs.fopen p = none) :
              Search (pathTasks fs slack ctx.path_list) {q | q ∈ ctx.include_cache} [.go p] [p] true ∧
                Unreadable fs ctx.path_list f := by
            have htasks : pathTasks fs slack ctx.path_list p = [.stop] := by
              unfold pathTasks
              split
              · rw [hbad (by assumption)]
              · rfl
            refine ⟨.stopped hnew ?_, fun q hq => ?_⟩
            · rw [htasks]
              exact .stop
            · rw [hresolve] at hq
              cases hq
              exact hbad
          dsimp only
          split
          · rename_i hcached
            exact ⟨[], .skip hcached .nil, rfl, (List.append_nil _).symm,
              fun _ => (or_iff_left List.not_mem_nil).symm⟩
          · rename_i hnew
            split
            · rename_i haccess
              cases hopen : fs.fopen p with
              | none =>
                  obtain ⟨hsearch, hunreadable⟩ := hstop hnew fun _ => hopen
                  refine ⟨[p], hsearch, ?_, .inl List.mem_cons_self, hunreadable⟩
                  rw [List.filter_cons_of_pos haccess]
                  rfl
              | some n => exact .enter hnew haccess hopen (readStream_searches ih _ _)
            · rename_i hno
              obtain ⟨hsearch, hunreadable⟩ := hstop hnew fun haccess => absurd haccess hno
              refine ⟨[p], hsearch, ?_, .inl List.mem_cons_self, hunreadable⟩
              rw [List.filter_cons_of_neg hno]
              exact (List.append_nil _).symm

/-! ## Both ways to read files of hosts -/

/-- The paths handed to `fopen`. -/
def openedBy : Read (Hostlist × List CStr) → List CStr
  | .ret r => r.2
  | .exit e => e.opened
  | .hang => []

/-- What a call on files of hosts can come to: a list of the hosts in the files that were opened,
or one of its errors; unless the push of a line does not end. -/
def WcollEnds (fs : FileSystem) (slack : CStr) (path_list names lines : List CStr) (own : List Hostrange) :
    Read (Hostlist × List CStr) → Prop
  | .ret r => MadeOf fs slack own r.1 r.2
  | .exit e => ErrorOk fs slack path_list names lines e.opened e.error
  | .hang => ∃ line ∈ lines.map lineHosts ++ hostLines fs, ∃ hl, hostlistPush slack hl line = .hang

/-- Includes lead from the file, which `read_wcoll` began with, back to its path, by files that
come once, and no line in front of the way stops the read. -/
def LeadsBack (fs : FileSystem) (slack file : CStr) (n : Fin fs.files.length) : Prop :=
  Way (pathTasks fs slack (tokens (· = ':') (getFilePath (some file)))) file ∅
    ((fileLines (fs.files.get n)).flatMap (lineTasks fs slack (tokens (· = ':') (getFilePath (some file)))))

/-- The list and the paths of a context. -/
def wcollOf (r : Read WcollCtx) : Read (Hostlist × List CStr) :=
  r >>= fun ctx => pure (ctx.hl, ctx.opened)

/-- The paths opened from an empty cache. -/
theorem Searches.openedBy_eq {path : CStr} {r : Read WcollCtx}
    (h : Searches fs slack names lines todo (wcollCtxCreate path opened) r) (hr : wcollOf r ≠ .hang) :
    ∃ new stopped, Search (pathTasks fs slack (tokens (· = ':') path)) ∅ todo new stopped ∧
      openedBy (wcollOf r) = opened ++ new.filter fs.access := by
  have hempty : {p | p ∈ (wcollCtxCreate path opened).include_cache} = (∅ : Set CStr) :=
    Set.ext fun p => iff_of_false List.not_mem_nil id
  cases r with
  | hang => exact absurd rfl hr
  | ret ctx' =>
      obtain ⟨new, hsearch, -, hopened, -⟩ := h
      rw [hempty] at hsearch
      exact ⟨new, false, hsearch, hopened⟩
  | exit e =>
      obtain ⟨new, hsearch, hopened, -⟩ := h
      rw [hempty] at hsearch
      exact ⟨new, true, hsearch, hopened⟩

theorem Searches.opens_once {path : CStr} {r : Read WcollCtx}
    (h : Searches fs slack names lines todo (wcollCtxCreate path []) r) : (openedBy (wcollOf r)).Nodup := by
  by_cases hr : wcollOf r = .hang
  · rw [hr]
    exact List.nodup_nil
  · obtain ⟨new, stopped, hsearch, hopened⟩ := h.openedBy_eq hr
    rw [hopened]
    exact hsearch.nodup.filter _

/-- A first file whose path is not in the cache is opened again where there is a way to it. -/
theorem Searches.opens_once_iff {path file : CStr} {r : Read WcollCtx}
    (h : Searches fs slack names lines todo (wcollCtxCreate path [file]) r) (hr : wcollOf r ≠ .hang)
    (haccess : fs.access file = true) : (openedBy (wcollOf r)).Nodup ↔
      ¬ Way (pathTasks fs slack (tokens (· = ':') path)) file ∅ todo := by
  obtain ⟨new, stopped, hsearch, hopened⟩ := h.openedBy_eq hr
  have hfilter : file ∈ new.filter fs.access ↔ file ∈ new := by
    rw [List.mem_filter]
    exact and_iff_left haccess
  rw [hopened, List.singleton_append, List.nodup_cons, hfilter, hsearch.mem_iff]
  exact and_iff_left (hsearch.nodup.filter _)

/-- A read that comes to an end. -/
theorem Searches.ends {ctx : WcollCtx} {r : Read WcollCtx} {own : List Hostrange} {hosts : List CStr}
    (h : Searches fs slack names lines todo ctx r) (hok : ReadOk slack hosts ctx r)
    (hhosts : hosts ⊆ lines.map lineHosts ++ hostLines fs)
    (hmade : ∀ ctx', r = .ret ctx' → MadeOf fs slack own ctx'.hl ctx'.opened) :
    WcollEnds fs slack ctx.path_list names lines own (wcollOf r) := by
  cases r with
  | ret ctx' => exact hmade ctx' rfl
  | exit e =>
      obtain ⟨-, -, -, herror⟩ := h
      exact herror
  | hang =>
      obtain ⟨line, hline, hpush⟩ := hok
      exact ⟨line, hhosts hline, hpush⟩

/-- `read_wcoll_path` reads its first file as if it were included, and opens no path twice. -/
theorem readWcollPath_ends (fs : FileSystem) (slack path file : CStr) :
    ∃ bound r, (∀ fuel, bound ≤ fuel → readWcollPath fs slack fuel path file = r) ∧
      WcollEnds fs slack (tokens (· = ':') path) [file] [] [] r ∧ (openedBy r).Nodup := by
  obtain ⟨bound, hok, hstable⟩ := readFile_stable fs slack (wcollCtxCreate path []) file
  have hsearches := readFile_searches fs slack bound (wcollCtxCreate path []) file
  refine ⟨bound, wcollOf _, fun fuel hfuel => ?_, hsearches.ends hok (List.Subset.refl _) ?_, hsearches.opens_once⟩
  · unfold readWcollPath wcollOf
    rw [hstable fuel hfuel]
  · intro ctx' hret
    obtain ⟨new, hreads⟩ := readFile_reads fs slack bound _ _ _ hret
    have hopened : ctx'.opened = new := hreads.opened
    rw [hopened]
    exact hreads.ranges

/-- `read_wcoll` from stdin does not either: nothing is open yet. -/
theorem readWcoll_stdin_ends (fs : FileSystem) (slack stdin : CStr) :
    ∃ bound r, (∀ fuel, bound ≤ fuel → readWcoll fs slack fuel stdin ['-'] = r) ∧
      WcollEnds fs slack (tokens (· = ':') (getFilePath none)) [] (fileLines stdin)
        ((fileLines stdin).flatMap (lineRanges slack)) r ∧ (openedBy r).Nodup := by
  obtain ⟨bound, hok, hstable⟩ := readStream_stable fs slack (wcollCtxCreate (getFilePath none) []) (fileLines stdin)
  have hsearches := readStream_searches (readFile_searches fs slack bound) (fileLines stdin)
    (wcollCtxCreate (getFilePath none) [])
  refine ⟨bound, wcollOf _, fun fuel hfuel => ?_, hsearches.ends hok (List.Subset.refl _) ?_, hsearches.opens_once⟩
  · unfold readWcoll wcollOf
    rw [if_pos rfl, hstable fuel hfuel]
  · intro ctx' hret
    obtain ⟨new, hreads⟩ := readStream_reads (readFile_reads fs slack bound) hret
    have hopened : ctx'.opened = new := hreads.opened
    rw [hopened]
    exact hreads.ranges

/-- A first file that cannot be read ends the process. -/
theorem readWcoll_unreadable {file : CStr} (hfile : file ≠ ['-']) (hbad : fs.access file = true → fs.fopen file = none)
    (slack stdin : CStr) :
    ∃ opened : List CStr, opened.Nodup ∧
      ∀ fuel, readWcoll fs slack fuel stdin file = .exit ⟨.unreadable file, opened⟩ := by
  by_cases haccess : fs.access file = true
  · refine ⟨[file], List.nodup_singleton file, fun fuel => ?_⟩
    unfold readWcoll
    rw [if_neg hfile, if_pos haccess, hbad haccess]
  · refine ⟨[], List.nodup_nil, fun fuel => ?_⟩
    unfold readWcoll
    rw [if_neg hfile, if_neg haccess]

/-- Any other first file is open, and its path is not in the cache. -/
theorem readWcoll_file_ends {file : CStr} {n : Fin fs.files.length} (hfile : file ≠ ['-'])
    (haccess : fs.access file = true) (hopen : fs.fopen file = some n) (slack stdin : CStr) :
    ∃ bound r, (∀ fuel, bound ≤ fuel → readWcoll fs slack fuel stdin file = r) ∧
      WcollEnds fs slack (tokens (· = ':') (getFilePath (some file))) [] (fileLines (fs.files.get n)) [] r ∧
      (r ≠ .hang → ((openedBy r).Nodup ↔ ¬ LeadsBack fs slack file n)) := by
  obtain ⟨bound, hok, hstable⟩ := readStream_stable fs slack
    (wcollCtxCreate (getFilePath (some file)) [file]) (fileLines (fs.files.get n))
  have hsearches := readStream_searches (readFile_searches fs slack bound) (fileLines (fs.files.get n))
    (wcollCtxCreate (getFilePath (some file)) [file])
  refine ⟨bound, wcollOf _, fun fuel hfuel => ?_, hsearches.ends hok (List.Subset.refl _) ?_,
    fun hret => hsearches.opens_once_iff hret haccess⟩
  · have hread : readWcoll fs slack fuel stdin file = wcollOf (readStream slack (readFile fs slack fuel)
        (fileLines (fs.files.get n)) (wcollCtxCreate (getFilePath (some file)) [file])) := by
      unfold readWcoll
      rw [if_neg hfile, if_pos haccess, hopen]
      rfl
    rw [hread, hstable fuel hfuel]
  · intro ctx' hret
    obtain ⟨new, hreads⟩ := readStream_reads (readFile_reads fs slack bound) hret
    -- the hosts of the first file are those of a file that was opened, as all others
    have hopened : ctx'.opened = file :: new := hreads.opened
    have hfiles : readFiles fs (file :: new) = n :: readFiles fs new := List.filterMap_cons_some hopen
    rw [hopened]
    unfold MadeOf
    rw [hfiles]
    exact hreads.ranges

/-- Both ways to read files of hosts come to an end after finitely many levels, with a list, an
error for a file that cannot be read, or what the push of a line comes to. No path is opened
twice, unless `read_wcoll` begins with a file that includes lead back to. -/
theorem read_wcoll_ends_iff (fs : FileSystem) (slack : CStr) :
    (∀ path file, ∃ bound r, (∀ fuel, bound ≤ fuel → readWcollPath fs slack fuel path file = r) ∧
      WcollEnds fs slack (tokens (· = ':') path) [file] [] [] r ∧ (openedBy r).Nodup) ∧
    (∀ stdin, ∃ bound r, (∀ fuel, bound ≤ fuel → readWcoll fs slack fuel stdin ['-'] = r) ∧
      WcollEnds fs slack (tokens (· = ':') (getFilePath none)) [] (fileLines stdin)
        ((fileLines stdin).flatMap (lineRanges slack)) r ∧ (openedBy r).Nodup) ∧
    (∀ stdin file, file ≠ ['-'] → (fs.access file = true → fs.fopen file = none) →
      ∃ opened : List CStr, opened.Nodup ∧
        ∀ fuel, readWcoll fs slack fuel stdin file = .exit ⟨.unreadable file, opened⟩) ∧
    (∀ stdin file n, file ≠ ['-'] → fs.access file = true → fs.fopen file = some n →
      ∃ bound r, (∀ fuel, bound ≤ fuel → readWcoll fs slack fuel stdin file = r) ∧
        WcollEnds fs slack (tokens (· = ':') (getFilePath (some file))) [] (fileLines (fs.files.get n)) [] r ∧
        (r ≠ .hang → ((openedBy r).Nodup ↔ ¬ LeadsBack fs slack file n))) := by
  refine ⟨readWcollPath_ends fs slack, readWcoll_stdin_ends fs slack, ?_, ?_⟩
  · intro stdin file hfile hbad
    exact readWcoll_unreadable hfile hbad slack stdin
  · intro stdin file n hfile haccess hopen
    exact readWcoll_file_ends hfile haccess hopen slack stdin

/-! ## A first file that is opened again -/

/-- The file `./w`, which includes itself. -/
def againIncluding : FileSystem where
  files := ["foo1\n#include ./w\n".toList]
  access p := p = "./w".toList
  fopen p := if p = "./w".toList then some 0 else none

/-- `read_wcoll` hands its path to `fopen` twice. -/
theorem path_opened_twice :
    ∃ hl, readWcoll againIncluding [] 3 [] "./w".toList = .ret (hl, ["./w".toList, "./w".toList]) :=
  ⟨_, rfl⟩

/-- The include is the first thing to do that leads anywhere. -/
theorem read_wcoll_ends_iff_again :
    ∃ bound r, (∀ fuel, bound ≤ fuel → readWcoll againIncluding [] fuel [] "./w".toList = r) ∧
      (r ≠ .hang → ¬ (openedBy r).Nodup) := by
  obtain ⟨bound, r, hread, -, honce⟩ :=
    (read_wcoll_ends_iff againIncluding []).2.2.2 [] "./w".toList ⟨0, by decide⟩ (by decide) (by decide) (by decide)
  have hback : LeadsBack againIncluding [] "./w".toList ⟨0, by decide⟩ := by
    have htasks : (fileLines (againIncluding.files.get ⟨0, by decide⟩)).flatMap
        (lineTasks againIncluding [] (tokens (· = ':') (getFilePath (some "./w".toList)))) = [.go "./w".toList] := by
      decide +kernel
    unfold LeadsBack
    rw [htasks]
    exact .here (Set.notMem_empty _)
  exact ⟨bound, r, hread, fun hret hnodup => (honce hret).mp hnodup hback⟩

end Pdsh
