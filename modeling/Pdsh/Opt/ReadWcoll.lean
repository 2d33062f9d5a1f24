import Pdsh.Hostlist.Print
import Pdsh.Hostlist.Parse

/-!
# Files of hosts

A file of hosts has one host list expression a line, behind a `#` a comment, and
`#include file` lines. An include is read in place, once: its resolved path goes to a
cache before it is opened. Here is why that ends. The files are finitely many and so
are the names after `#include` in them, and each name resolves to one path. So each
round of the recursion takes one path out of a finite set, and `fuel`, which counts the
levels of the recursion, only has to be larger than that set (`readFile_stable`).

Warnings on stderr are left out: nothing reads them.
-/

namespace Pdsh

open Lib Lib.Run

/-- The files that can be read. Two paths may lead to one file, as `a` and `./a` do. -/
structure FileSystem where
  /-- what is in the files -/
  files : List (List Char)
  /-- `access (path, R_OK) >= 0` -/
  access : CStr → Bool
  /-- the file `fopen (path, "r")` opens -/
  fopen : CStr → Option (Fin files.length)

/-- `struct wcoll_ctx`, with the paths handed to `fopen` so far, in order. -/
structure WcollCtx where
  hl : Hostlist
  path_list : List CStr
  include_cache : List CStr
  opened : List CStr
deriving DecidableEq, Repr

/-- Why the process ends. -/
inductive WcollError where
  /-- `errx ("%p: %s: %m\n", f)` -/
  | unreadable (f : CStr)
  /-- an error inside of `hostlist_push` -/
  | push (e : Fatal)
deriving DecidableEq, Repr

/-- The end of the process, with the paths handed to `fopen` before. -/
structure WcollExit where
  error : WcollError
  opened : List CStr
deriving DecidableEq, Repr

/-- A call that reads files of hosts. -/
abbrev Read := Run WcollExit

/-- `wcoll_ctx_create`; `opened` is what its caller has opened. -/
def wcollCtxCreate (path : CStr) (opened : List CStr) : WcollCtx :=
  ⟨hostlistNew, tokens (· = ':') path, [], opened⟩

/-- `wcoll_ctx_path_lookup` in a buffer of 4096 bytes. -/
def pathLookup (fs : FileSystem) (name : CStr) : List CStr → Option CStr
  | [] => none
  | s :: dirs =>
      let buf := s ++ '/' :: name
      if buf.length ≥ 4096 then none
      else if fs.access buf then some buf
      else pathLookup fs name dirs

/-- The path does not need a search. -/
def isExplicit : CStr → Bool
  | '/' :: _ => true
  | '.' :: '/' :: _ => true
  | '.' :: '.' :: '/' :: _ => true
  | _ => false

/-- `wcoll_ctx_resolve_path`. -/
def resolvePath (fs : FileSystem) (path_list : List CStr) (file : CStr) : Option CStr :=
  if isExplicit file then some (file.take 4095) else pathLookup fs file path_list

/-- The separators of `strtok` in `include_file`. -/
def includeSep (c : Char) : Bool := c = '\n' ∨ c = '\r' ∨ c = '\t' ∨ c = ' '

/-- `include_file`: the one token behind `#include`. -/
def includeFile (line : CStr) : Option CStr :=
  if "#include".toList.isPrefixOf line then
    let p := (line.drop 8).dropWhile includeSep
    let rest := (p.dropWhile fun c => !includeSep c).dropWhile includeSep
    if p = [] ∨ rest ≠ [] then none else some (p.takeWhile fun c => !includeSep c)
  else none

/-- What a line includes: its first `#` has to be its first character. -/
def lineInclude (line : CStr) : Option CStr :=
  if line.head? = some '#' then includeFile line else none

/-- The blanks `xstrcln (line, NULL)` takes off both ends. -/
def lineBlank (c : Char) : Bool := c = '\n' ∨ c = '\t' ∨ c = ' '

/-- `xstrcln (line, NULL)`. -/
def xstrcln (line : CStr) : CStr :=
  ((line.dropWhile lineBlank).reverse.dropWhile lineBlank).reverse

/-- The lines `fgets` reads into a buffer of `LINEBUFSIZE` bytes, 2048: a longer line comes
in pieces. A line ends at its first NUL for what reads it. -/
def fgetsLines : Nat → List Char → List CStr
  | 0, _ => []
  | _ + 1, [] => []
  | fuel + 1, content =>
      let upTo := (content.take 2047).takeWhile (· ≠ '\n')
      let n := if upTo.length < (content.take 2047).length then upTo.length + 1 else upTo.length
      (content.take n).takeWhile (· ≠ NUL) :: fgetsLines fuel (content.drop n)

/-- The lines of a file: each is at least one character long. -/
def fileLines (content : List Char) : List CStr := fgetsLines content.length content

/-- What is left of a line for `hostlist_push`. -/
def lineHosts (line : CStr) : CStr := xstrcln (line.takeWhile (· ≠ '#'))

/-- `hostlist_push` in a context. -/
def pushLine (slack : CStr) (ctx : WcollCtx) (line : CStr) : Read WcollCtx :=
  match hostlistPush slack ctx.hl line with
  | .ret pushed => .ret { ctx with hl := pushed.2 }
  | .exit e => .exit ⟨.push e, ctx.opened⟩
  | .hang => .hang

/-- `wcoll_ctx_read_line`; an include is read by `readFile`. -/
def readLine (slack : CStr) (readFile : WcollCtx → CStr → Read WcollCtx) (ctx : WcollCtx)
    (line : CStr) : Read WcollCtx := do
  let ctx ← match lineInclude line with
    | some included => readFile ctx included
    | none => pure ctx
  if lineHosts line = [] then pure ctx else pushLine slack ctx (lineHosts line)

/-- `wcoll_ctx_read_stream`. -/
def readStream (slack : CStr) (readFile : WcollCtx → CStr → Read WcollCtx) :
    List CStr → WcollCtx → Read WcollCtx
  | [], ctx => pure ctx
  | line :: lines, ctx => readLine slack readFile ctx line >>= readStream slack readFile lines

/-- `wcoll_ctx_read_file`. -/
def readFile (fs : FileSystem) (slack : CStr) : Nat → WcollCtx → CStr → Read WcollCtx
  | 0, _, _ => .hang
  | fuel + 1, ctx, f =>
      match resolvePath fs ctx.path_list f with
      | none => .exit ⟨.unreadable f, ctx.opened⟩
      | some fq_path =>
          if fq_path ∈ ctx.include_cache then pure ctx
          else
            let ctx := { ctx with include_cache := fq_path :: ctx.include_cache }
            if fs.access fq_path then
              let ctx := { ctx with opened := ctx.opened ++ [fq_path] }
              match fs.fopen fq_path with
              | none => .exit ⟨.unreadable f, ctx.opened⟩
              | some n => readStream slack (readFile fs slack fuel) (fileLines fs.files[n]) ctx
            else .exit ⟨.unreadable f, ctx.opened⟩

/-- `read_wcoll_path`: the list, and the paths handed to `fopen`. -/
def readWcollPath (fs : FileSystem) (slack : CStr) (fuel : Nat) (path file : CStr) :
    Read (Hostlist × List CStr) := do
  let ctx ← readFile fs slack fuel (wcollCtxCreate path []) file
  pure (ctx.hl, ctx.opened)

/-- `dirname` of the C library: exactly two slashes in front of the only component stay. -/
def dirname (path : CStr) : CStr :=
  let base := (path.reverse.dropWhile (· = '/')).dropWhile (· ≠ '/')
  let dir := (base.dropWhile (· = '/')).reverse
  if dir ≠ [] then dir
  else match (path.takeWhile (· = '/')).length with
    | 0 => ['.']
    | 2 => ['/', '/']
    | _ => ['/']

/-- `get_file_path` with a buffer of 4096 bytes. -/
def getFilePath : Option CStr → CStr
  | none => ['.']
  | some file => if (dirname file).length < 4095 then dirname file else ['.']

/-- `read_wcoll` on a file name; `stdin` is what is there to be read for `-`. -/
def readWcoll (fs : FileSystem) (slack : CStr) (fuel : Nat) (stdin : List Char) (file : CStr) :
    Read (Hostlist × List CStr) :=
  if file = ['-'] then do
    let ctx ← readStream slack (readFile fs slack fuel) (fileLines stdin)
      (wcollCtxCreate (getFilePath none) [])
    pure (ctx.hl, ctx.opened)
  else if fs.access file then
    match fs.fopen file with
    | none => .exit ⟨.unreadable file, [file]⟩
    | some n => do
        let ctx ← readStream slack (readFile fs slack fuel) (fileLines fs.files[n])
          (wcollCtxCreate (getFilePath (some file)) [file])
        pure (ctx.hl, ctx.opened)
  else .exit ⟨.unreadable file, []⟩

/-! ## What a read can come to -/

variable {fs : FileSystem} {slack : CStr} {ctx ctx' : WcollCtx} {hosts : List CStr}

/-- A read from `ctx` returns or ends the process; unless the push of one of the `hosts` does
not end. -/
def ReadOk (slack : CStr) (hosts : List CStr) (ctx : WcollCtx) : Read WcollCtx → Prop
  | .ret ctx' => ctx'.path_list = ctx.path_list ∧ ctx.include_cache ⊆ ctx'.include_cache
  | .exit _ => True
  | .hang => ∃ line ∈ hosts, ∃ hl, hostlistPush slack hl line = .hang

theorem ReadOk.ret (slack : CStr) (hosts : List CStr) (ctx : WcollCtx) : ReadOk slack hosts ctx (.ret ctx) :=
  ⟨rfl, List.Subset.refl _⟩

/-- A read that starts further on. -/
theorem ReadOk.of_later {r : Read WcollCtx} (h : ReadOk slack hosts ctx' r)
    (hpath : ctx'.path_list = ctx.path_list) (hcache : ctx.include_cache ⊆ ctx'.include_cache) :
    ReadOk slack hosts ctx r := by
  cases r with
  | exit e => exact trivial
  | hang => exact h
  | ret ctx'' => exact ⟨h.1.trans hpath, fun _ hp => h.2 (hcache hp)⟩

theorem ReadOk.bind {r : Read WcollCtx} {f : WcollCtx → Read WcollCtx} (h : ReadOk slack hosts ctx r)
    (hf : ∀ ctx', r = .ret ctx' → ReadOk slack hosts ctx' (f ctx')) : ReadOk slack hosts ctx (r >>= f) := by
  cases r with
  | exit e => exact trivial
  | hang => exact h
  | ret ctx' =>
      obtain ⟨hpath, hcache⟩ := h
      exact (hf ctx' rfl).of_later hpath hcache

theorem pushLine_ok {line : CStr} (hline : line ∈ hosts) (ctx : WcollCtx) :
    ReadOk slack hosts ctx (pushLine slack ctx line) := by
  unfold pushLine
  split
  · exact ⟨rfl, List.Subset.refl _⟩
  · exact trivial
  · rename_i hhang
    exact ⟨line, hline, ctx.hl, hhang⟩

/-! ## Termination -/

/-- The names behind `#include` in the files. -/
def includes (fs : FileSystem) : List CStr :=
  fs.files.flatMap fun content => (fileLines content).filterMap lineInclude

/-- The host list expressions in the files. -/
def hostLines (fs : FileSystem) : List CStr :=
  fs.files.flatMap fun content => (fileLines content).map lineHosts

/-- How many of the paths are not in the cache yet. -/
def uncached (paths : List CStr) (ctx : WcollCtx) : Nat :=
  paths.countP fun p => p ∉ ctx.include_cache

theorem uncached_le {paths : List CStr} (h : ctx.include_cache ⊆ ctx'.include_cache) :
    uncached paths ctx' ≤ uncached paths ctx := by
  apply List.countP_mono_left
  intro p _ hp
  simp only [decide_eq_true_eq] at hp ⊢
  exact fun hcached => hp (h hcached)

/-- A path that goes to the cache is one less to open. -/
theorem uncached_lt (ctx ctx' : WcollCtx) {paths : List CStr} {p : CStr} (hp : p ∈ paths)
    (hnew : p ∉ ctx.include_cache) (hcache : ctx'.include_cache = p :: ctx.include_cache) :
    uncached paths ctx' < uncached paths ctx := by
  have hsplit : uncached paths ctx = uncached paths ctx' + paths.countP (· = p) := by
    unfold uncached
    rw [hcache]
    clear hp
    induction paths with
    | nil => rfl
    | cons q paths ih =>
        rw [List.countP_cons, List.countP_cons, List.countP_cons, ih]
        by_cases hq : q = p
        · subst hq
          simp [hnew]
          omega
        · simp [hq]
          omega
  have hpos : 0 < paths.countP (· = p) := List.countP_pos_iff.mpr ⟨p, hp, by simp⟩
  omega

/-- The two readers agree on the names, and what they do is `ReadOk`, as long as `P` holds of
the context. -/
def Agree (slack : CStr) (hosts names : List CStr) (P : WcollCtx → Prop)
    (rf rf' : WcollCtx → CStr → Read WcollCtx) : Prop :=
  ∀ ctx f, P ctx → f ∈ names → ReadOk slack hosts ctx (rf ctx f) ∧ rf ctx f = rf' ctx f

theorem readLine_agree {names : List CStr} {P : WcollCtx → Prop}
    {rf rf' : WcollCtx → CStr → Read WcollCtx} (h : Agree slack hosts names P rf rf')
    (hP : P ctx) {line : CStr} (hline : ∀ f, lineInclude line = some f → f ∈ names)
    (hhosts : lineHosts line ∈ hosts) :
    ReadOk slack hosts ctx (readLine slack rf ctx line) ∧
      readLine slack rf ctx line = readLine slack rf' ctx line := by
  have hpush : ∀ ctx' : WcollCtx, ReadOk slack hosts ctx'
      (if lineHosts line = [] then pure ctx' else pushLine slack ctx' (lineHosts line)) := by
    intro ctx'
    split
    · exact .ret slack hosts ctx'
    · exact pushLine_ok hhosts ctx'
  unfold readLine
  cases hinc : lineInclude line with
  | none => exact ⟨hpush ctx, rfl⟩
  | some f =>
      obtain ⟨hok, hagree⟩ := h ctx f hP (hline f hinc)
      dsimp only
      rw [← hagree]
      exact ⟨hok.bind fun ctx' _ => hpush ctx', rfl⟩

theorem readStream_agree {names : List CStr} {P : WcollCtx → Prop}
    {rf rf' : WcollCtx → CStr → Read WcollCtx} (h : Agree slack hosts names P rf rf')
    (hgrow : ∀ ctx ctx' : WcollCtx, P ctx → ctx'.path_list = ctx.path_list →
      ctx.include_cache ⊆ ctx'.include_cache → P ctx')
    (lines : List CStr) (hlines : lines.filterMap lineInclude ⊆ names)
    (hhosts : lines.map lineHosts ⊆ hosts) (ctx : WcollCtx) (hP : P ctx) :
    ReadOk slack hosts ctx (readStream slack rf lines ctx) ∧
      readStream slack rf lines ctx = readStream slack rf' lines ctx := by
  induction lines generalizing ctx with
  | nil => exact ⟨.ret slack hosts ctx, rfl⟩
  | cons line lines ih =>
      have hline : ∀ f, lineInclude line = some f → f ∈ names := by
        intro f hf
        apply hlines
        rw [List.filterMap_cons_some hf]
        exact List.mem_cons_self
      have hrest : lines.filterMap lineInclude ⊆ names := by
        intro f hf
        apply hlines
        obtain ⟨l, hl, hinc⟩ := List.mem_filterMap.mp hf
        exact List.mem_filterMap.mpr ⟨l, List.mem_cons_of_mem _ hl, hinc⟩
      rw [List.map_cons, List.cons_subset] at hhosts
      obtain ⟨hok, hagree⟩ := readLine_agree h hP hline hhosts.1
      -- the context behind the line has the same search path and a larger cache
      have hnext : ∀ ctx', readLine slack rf ctx line = .ret ctx' →
          ReadOk slack hosts ctx' (readStream slack rf lines ctx') ∧
            readStream slack rf lines ctx' = readStream slack rf' lines ctx' := by
        intro ctx' hret
        rw [hret] at hok
        exact ih hrest hhosts.2 ctx' (hgrow ctx ctx' hP hok.1 hok.2)
      unfold readStream
      constructor
      · exact hok.bind fun ctx' hret => (hnext ctx' hret).1
      · rw [← hagree]
        cases hr : readLine slack rf ctx line with
        | ret ctx' =>
            rw [ret_bind, ret_bind]
            exact (hnext ctx' hr).2
        | exit e => rfl
        | hang => rfl

/-- Behind a number of levels that is larger than what is left to open, one more level
changes nothing, and the read comes to an end. -/
theorem readFile_agree (slack : CStr) (path_list : List CStr) {names : List CStr}
    (hnames : includes fs ⊆ names) (hhosts : hostLines fs ⊆ hosts) (fuel fuel' : Nat) :
    Agree slack hosts names (fun ctx => ctx.path_list = path_list ∧
      uncached (names.filterMap (resolvePath fs path_list)) ctx < min fuel fuel')
      (readFile fs slack fuel) (readFile fs slack fuel') := by
  induction fuel generalizing fuel' with
  | zero =>
      intro ctx f hP
      omega
  | succ fuel ih =>
      rintro ctx f ⟨rfl, hfuel⟩ hf
      cases fuel' with
      | zero => omega
      | succ fuel' =>
          unfold readFile
          cases hres : resolvePath fs ctx.path_list f with
          | none => exact ⟨trivial, rfl⟩
          | some p =>
              dsimp only
              by_cases hcached : p ∈ ctx.include_cache
              · simp only [if_pos hcached]
                exact ⟨.ret slack hosts ctx, trivial⟩
              simp only [if_neg hcached]
              by_cases haccess : fs.access p = true
              · simp only [if_pos haccess]
                cases hfile : fs.fopen p with
                | none => exact ⟨trivial, rfl⟩
                | some n =>
                    dsimp only
                    -- the path is in the cache now, so one less is left to open
                    let below : WcollCtx := { ctx with
                      include_cache := p :: ctx.include_cache, opened := ctx.opened ++ [p] }
                    have hless : uncached (names.filterMap (resolvePath fs ctx.path_list)) below <
                        min fuel fuel' := by
                      have hlt := uncached_lt ctx below
                        (List.mem_filterMap.mpr ⟨f, hf, hres⟩) hcached rfl
                      omega
                    have hread := readStream_agree (ih fuel')
                      (fun c c' hc hpath hgrow =>
                        ⟨hpath.trans hc.1, lt_of_le_of_lt (uncached_le hgrow) hc.2⟩)
                      (fileLines fs.files[n])
                      (fun g hg => hnames (List.mem_flatMap.mpr ⟨_, List.getElem_mem _, hg⟩))
                      (fun g hg => hhosts (List.mem_flatMap.mpr ⟨_, List.getElem_mem _, hg⟩))
                      below ⟨rfl, hless⟩
                    exact ⟨hread.1.of_later rfl fun q hq => List.mem_cons_of_mem _ hq, hread.2⟩
              · simp only [if_neg haccess]
                exact ⟨trivial, trivial⟩

/-- The levels that are enough for the names. -/
def levels (fs : FileSystem) (path_list names : List CStr) : Nat :=
  (names.filterMap (resolvePath fs path_list)).length + 1

theorem uncached_lt_levels (names path_list : List CStr) (ctx : WcollCtx) :
    uncached (names.filterMap (resolvePath fs path_list)) ctx < levels fs path_list names :=
  Nat.lt_succ_of_le List.countP_le_length

/-- The file behind a name comes to an end, and to the same one at every depth from some level on. -/
theorem readFile_stable (fs : FileSystem) (slack : CStr) (ctx : WcollCtx) (f : CStr) :
    ∃ bound, ReadOk slack (hostLines fs) ctx (readFile fs slack bound ctx f) ∧
      ∀ fuel, bound ≤ fuel → readFile fs slack fuel ctx f = readFile fs slack bound ctx f := by
  let names := f :: includes fs
  let bound := levels fs ctx.path_list names
  have hagree : ∀ fuel, bound ≤ fuel → _ := fun fuel hfuel =>
    readFile_agree slack ctx.path_list (List.subset_cons_self f (includes fs))
      (List.Subset.refl (hostLines fs)) bound fuel ctx f
      ⟨rfl, lt_of_lt_of_le (uncached_lt_levels names _ _) (le_min (Nat.le_refl _) hfuel)⟩ List.mem_cons_self
  exact ⟨bound, (hagree bound (Nat.le_refl _)).1, fun fuel hfuel => (hagree fuel hfuel).2.symm⟩

/-- So does a stream. -/
theorem readStream_stable (fs : FileSystem) (slack : CStr) (ctx : WcollCtx) (lines : List CStr) :
    ∃ bound, ReadOk slack (lines.map lineHosts ++ hostLines fs) ctx
        (readStream slack (readFile fs slack bound) lines ctx) ∧
      ∀ fuel, bound ≤ fuel → readStream slack (readFile fs slack fuel) lines ctx =
        readStream slack (readFile fs slack bound) lines ctx := by
  let names := lines.filterMap lineInclude ++ includes fs
  let bound := levels fs ctx.path_list names
  have hagree : ∀ fuel, bound ≤ fuel → _ := fun fuel hfuel =>
    readStream_agree
      (readFile_agree slack ctx.path_list
        (List.subset_append_right (lines.filterMap lineInclude) (includes fs))
        (List.subset_append_right (lines.map lineHosts) (hostLines fs)) bound fuel)
      (fun c c' hc hpath hgrow => ⟨hpath.trans hc.1, lt_of_le_of_lt (uncached_le hgrow) hc.2⟩)
      lines (List.subset_append_left _ _) (List.subset_append_left _ _) ctx
      ⟨rfl, lt_of_lt_of_le (uncached_lt_levels names _ _) (le_min (Nat.le_refl _) hfuel)⟩
  exact ⟨bound, (hagree bound (Nat.le_refl _)).1, fun fuel hfuel => (hagree fuel hfuel).2.symm⟩

end Pdsh
