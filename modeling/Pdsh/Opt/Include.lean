import Pdsh.Opt.ReadWcoll
import Pdsh.Hostlist.Pushes
import Pdsh.Lib.Visit

/-!
# Each file once

A read of files of hosts is a visit of the paths that includes lead to: the cache holds the paths
that were entered, so each path is opened once, and the list is made of the hosts on the lines of
the files opened (`readFile_reads`). A file still comes twice where two paths lead to it, or
where `read_wcoll` opens its first file, whose path does not go to the cache
(`read_wcoll_once_iff`).
-/

namespace Pdsh

open Lib Lib.Run

variable {fs : FileSystem} {slack : CStr} {ctx ctx' ctx'' : WcollCtx} {names names' : List CStr}
  {own own' : List Hostrange} {new new' : List CStr}

/-! ## Hosts and includes of a file -/

/-- The paths that names behind `#include` lead to. -/
def includedPaths (fs : FileSystem) (path_list names : List CStr) : List CStr :=
  names.filterMap (resolvePath fs path_list)

/-- The names a file includes. -/
def fileIncludes (fs : FileSystem) (n : Fin fs.files.length) : List CStr :=
  (fileLines (fs.files.get n)).filterMap lineInclude

/-- The paths that the file behind a path leads to. -/
def nextPaths (fs : FileSystem) (path_list : List CStr) (p : CStr) : List CStr :=
  match fs.fopen p with
  | some n => includedPaths fs path_list (fileIncludes fs n)
  | none => []

/-- The hosts of a line, as the ranges that are pushed for them. -/
def lineRanges (slack line : CStr) : List Hostrange :=
  if lineHosts line = [] then []
  else match hostlistCreate slack (lineHosts line) with
    | .ret (some hl) => hl.hr.take hl.nranges
    | _ => []

/-- The hosts on a file's own lines. -/
def ownRanges (fs : FileSystem) (slack : CStr) (n : Fin fs.files.length) : List Hostrange :=
  (fileLines (fs.files.get n)).flatMap (lineRanges slack)

/-! ## What a read does -/

/-- A read of the `names`, with hosts `own` pushed in between, opened the paths `new`. -/
structure Reads (fs : FileSystem) (slack : CStr) (names : List CStr) (own : List Hostrange)
    (ctx ctx' : WcollCtx) (new : List CStr) : Prop where
  path : ctx'.path_list = ctx.path_list
  opened : ctx'.opened = ctx.opened ++ new
  cache : ∀ p, p ∈ ctx'.include_cache ↔ p ∈ ctx.include_cache ∨ p ∈ new
  visit : Visit (nextPaths fs ctx.path_list) {p | p ∈ ctx.include_cache}
    (includedPaths fs ctx.path_list names) new
  ranges : ∃ rs, rs.Perm (own ++ (new.filterMap fs.fopen).flatMap (ownRanges fs slack)) ∧
    ctx'.hl = pushRanges ctx.hl rs

theorem Reads.nil : Reads fs slack [] [] ctx ctx [] :=
  ⟨rfl, (List.append_nil _).symm, fun _ => (or_iff_left List.not_mem_nil).symm, .nil, [], .refl _, rfl⟩

/-- One read behind the other. -/
theorem Reads.append (h : Reads fs slack names own ctx ctx' new)
    (h' : Reads fs slack names' own' ctx' ctx'' new') :
    Reads fs slack (names ++ names') (own ++ own') ctx ctx'' (new ++ new') := by
  have hseen : {p | p ∈ ctx'.include_cache} = {p | p ∈ ctx.include_cache} ∪ {p | p ∈ new} :=
    Set.ext fun p => h.cache p
  have hvisit := h'.visit
  rw [h.path, hseen] at hvisit
  refine ⟨h'.path.trans h.path, ?_, fun p => ?_, ?_, ?_⟩
  · rw [h'.opened, h.opened, List.append_assoc]
  · rw [h'.cache, h.cache, List.mem_append, or_assoc]
  · unfold includedPaths at hvisit ⊢
    rw [List.filterMap_append]
    exact h.visit.append hvisit
  · obtain ⟨rs, hperm, hhl⟩ := h.ranges
    obtain ⟨rs', hperm', hhl'⟩ := h'.ranges
    refine ⟨rs ++ rs', ?_, by rw [hhl', hhl, pushRanges_append]⟩
    rw [List.filterMap_append, List.flatMap_append]
    refine (hperm.append hperm').trans ?_
    rw [List.append_assoc, List.append_assoc]
    refine .append_left own ?_
    rw [← List.append_assoc, ← List.append_assoc]
    exact .append_right _ List.perm_append_comm

/-- What a call that returns from a name does. -/
def ReadsFile (fs : FileSystem) (slack : CStr) (rf : WcollCtx → CStr → Read WcollCtx) : Prop :=
  ∀ ctx f ctx', rf ctx f = .ret ctx' → ∃ new, Reads fs slack [f] [] ctx ctx' new

theorem pushHosts_reads {line : CStr}
    (h : (if lineHosts line = [] then pure ctx else pushLine slack ctx (lineHosts line)) = .ret ctx') :
    Reads fs slack [] (lineRanges slack line) ctx ctx' [] := by
  unfold lineRanges
  split at h
  · rename_i hblank
    cases h
    rw [if_pos hblank]
    exact .nil
  · rename_i hblank
    rw [if_neg hblank]
    unfold pushLine at h
    split at h
    · rename_i pushed hpush
      cases h
      refine ⟨rfl, (List.append_nil _).symm, fun _ => (or_iff_left List.not_mem_nil).symm, .nil, ?_⟩
      obtain ⟨o, hcreate, hnew⟩ := Run.bind_eq_ret_iff.mp hpush
      rw [hcreate]
      cases o with
      | none =>
          cases hnew
          exact ⟨[], .refl _, rfl⟩
      | some hl =>
          cases hnew
          refine ⟨_, .refl _, ?_⟩
          simp only [List.filterMap_nil, List.flatMap_nil, List.append_nil]
          exact hostlistPushListLoop_fst _ _ _
    · cases h
    · cases h

theorem readLine_reads {rf : WcollCtx → CStr → Read WcollCtx} (hrf : ReadsFile fs slack rf) {line : CStr}
    (h : readLine slack rf ctx line = .ret ctx') :
    ∃ new, Reads fs slack (lineInclude line).toList (lineRanges slack line) ctx ctx' new := by
  unfold readLine at h
  cases hline : lineInclude line with
  | none =>
      rw [hline] at h
      exact ⟨[], pushHosts_reads h⟩
  | some f =>
      rw [hline] at h
      obtain ⟨ctx₁, hinclude, hpush⟩ := Run.bind_eq_ret_iff.mp h
      obtain ⟨new, hreads⟩ := hrf ctx f ctx₁ hinclude
      exact ⟨new ++ [], hreads.append (pushHosts_reads hpush)⟩

theorem readStream_reads {rf : WcollCtx → CStr → Read WcollCtx} (hrf : ReadsFile fs slack rf)
    {lines : List CStr} (h : readStream slack rf lines ctx = .ret ctx') :
    ∃ new, Reads fs slack (lines.filterMap lineInclude) (lines.flatMap (lineRanges slack)) ctx ctx' new := by
  induction lines generalizing ctx with
  | nil =>
      cases h
      exact ⟨[], .nil⟩
  | cons line lines ih =>
      obtain ⟨ctx₁, hline, hrest⟩ := Run.bind_eq_ret_iff.mp h
      obtain ⟨new, hreads⟩ := readLine_reads hrf hline
      obtain ⟨new', hreads'⟩ := ih hrest
      have hboth := hreads.append hreads'
      refine ⟨new ++ new', ?_⟩
      rw [List.flatMap_cons]
      cases hinclude : lineInclude line with
      | none =>
          rw [List.filterMap_cons_none hinclude]
          rw [hinclude] at hboth
          exact hboth
      | some f =>
          rw [List.filterMap_cons_some hinclude]
          rw [hinclude] at hboth
          exact hboth

/-- A read of a file is a visit from its path. -/
theorem readFile_reads (fs : FileSystem) (slack : CStr) (fuel : Nat) :
    ReadsFile fs slack (readFile fs slack fuel) := by
  induction fuel with
  | zero =>
      intro ctx f ctx' h
      cases h
  | succ fuel ih =>
      intro ctx f ctx' h
      unfold readFile at h
      split at h
      · cases h
      · rename_i p hresolve
        have hroots : includedPaths fs ctx.path_list [f] = [p] := by
          unfold includedPaths
          rw [List.filterMap_cons_some hresolve]
          rfl
        split at h
        · rename_i hcached
          cases h
          refine ⟨[], rfl, (List.append_nil _).symm, fun _ => (or_iff_left List.not_mem_nil).symm, ?_, [],
            .refl _, rfl⟩
          rw [hroots]
          exact .skip hcached
        · rename_i hnew
          simp only at h
          split at h
          · split at h
            · cases h
            · rename_i n hopen
              -- the path is in the cache when the lines are read
              obtain ⟨new, hreads⟩ := readStream_reads ih h
              have hseen : {q | q ∈ p :: ctx.include_cache} = insert p {q | q ∈ ctx.include_cache} :=
                Set.ext fun q => List.mem_cons
              have hnext : nextPaths fs ctx.path_list p = includedPaths fs ctx.path_list (fileIncludes fs n) := by
                unfold nextPaths
                rw [hopen]
              have hvisit := hreads.visit
              simp only [hseen] at hvisit
              refine ⟨p :: new, hreads.path, ?_, fun q => ?_, ?_, ?_⟩
              · rw [hreads.opened]
                exact List.append_assoc _ _ _
              · rw [hreads.cache, List.mem_cons, List.mem_cons]
                tauto
              · rw [hroots]
                refine .enter hnew ?_
                rw [hnext]
                exact hvisit
              · obtain ⟨rs, hperm, hhl⟩ := hreads.ranges
                refine ⟨rs, ?_, hhl⟩
                rw [List.filterMap_cons_some hopen, List.flatMap_cons]
                exact hperm
          · cases h

/-! ## Files that come once -/

/-- The files a call read, by the paths it opened. -/
abbrev readFiles (fs : FileSystem) (opened : List CStr) : List (Fin fs.files.length) :=
  opened.filterMap fs.fopen

/-- The list is made of the hosts `own` and those of the files that were read, once for each time. -/
def MadeOf (fs : FileSystem) (slack : CStr) (own : List Hostrange) (hl : Hostlist) (opened : List CStr) : Prop :=
  ∃ rs, rs.Perm (own ++ (readFiles fs opened).flatMap (ownRanges fs slack)) ∧ hl = pushRanges hostlistNew rs

/-- No file with hosts on its own lines was read twice. -/
def Once (fs : FileSystem) (slack : CStr) (opened : List CStr) : Prop :=
  ∀ n, ownRanges fs slack n ≠ [] → (readFiles fs opened).count n ≤ 1

/-- The path can be reached from the names by includes. -/
abbrev Included (fs : FileSystem) (path_list names : List CStr) (p : CStr) : Prop :=
  Reached (nextPaths fs path_list) (includedPaths fs path_list names) p

/-- Of the paths that can be reached, no two lead to one file with hosts. -/
def OneWay (fs : FileSystem) (slack : CStr) (path_list names : List CStr) : Prop :=
  ∀ n, ownRanges fs slack n ≠ [] → ∀ p, Included fs path_list names p → ∀ q, Included fs path_list names q →
    fs.fopen p = some n → fs.fopen q = some n → p = q

/-- No path that can be reached leads to the file, if it has hosts. -/
def NoWayBack (fs : FileSystem) (slack : CStr) (path_list names : List CStr) (n : Fin fs.files.length) : Prop :=
  ownRanges fs slack n ≠ [] → ∀ p, Included fs path_list names p → fs.fopen p ≠ some n

theorem Reads.count_le_one_iff (h : Reads fs slack names own ctx ctx' new) (hempty : ctx.include_cache = [])
    (n : Fin fs.files.length) : (readFiles fs new).count n ≤ 1 ↔
      ∀ p, Included fs ctx.path_list names p → ∀ q, Included fs ctx.path_list names q →
        fs.fopen p = some n → fs.fopen q = some n → p = q := by
  have hvisit := h.visit
  have hnone : {p | p ∈ ctx.include_cache} = (∅ : Set CStr) := by
    rw [hempty]
    exact Set.ext fun p => iff_of_false List.not_mem_nil id
  rw [hnone] at hvisit
  rw [count_filterMap_le_one_iff hvisit.nodup]
  simp only [hvisit.mem_iff]

theorem Reads.count_eq_zero_iff (h : Reads fs slack names own ctx ctx' new) (hempty : ctx.include_cache = [])
    (n : Fin fs.files.length) : (readFiles fs new).count n = 0 ↔
      ∀ p, Included fs ctx.path_list names p → fs.fopen p ≠ some n := by
  have hvisit := h.visit
  have hnone : {p | p ∈ ctx.include_cache} = (∅ : Set CStr) := by
    rw [hempty]
    exact Set.ext fun p => iff_of_false List.not_mem_nil id
  rw [hnone] at hvisit
  rw [List.count_eq_zero, List.mem_filterMap]
  simp only [hvisit.mem_iff]
  exact ⟨fun hno p hp hn => hno ⟨p, hp, hn⟩, fun hno ⟨p, hp, hn⟩ => hno p hp hn⟩

/-- Where a read of files of hosts returns, the list is made of the hosts of the files that were
read. They come once if and only if, of the paths that includes lead to, no two lead to one file,
and none leads back to the file that `read_wcoll` began with; files without hosts aside. -/
theorem read_wcoll_once_iff (fs : FileSystem) (slack : CStr) (fuel : Nat) :
    (∀ path file hl opened, readWcollPath fs slack fuel path file = .ret (hl, opened) →
      MadeOf fs slack [] hl opened ∧
        (Once fs slack opened ↔ OneWay fs slack (tokens (· = ':') path) [file])) ∧
    (∀ stdin hl opened, readWcoll fs slack fuel stdin ['-'] = .ret (hl, opened) →
      MadeOf fs slack ((fileLines stdin).flatMap (lineRanges slack)) hl opened ∧
        (Once fs slack opened ↔
          OneWay fs slack (tokens (· = ':') (getFilePath none)) ((fileLines stdin).filterMap lineInclude))) ∧
    (∀ stdin file hl opened, file ≠ ['-'] → readWcoll fs slack fuel stdin file = .ret (hl, opened) →
      ∃ n, fs.fopen file = some n ∧ MadeOf fs slack [] hl opened ∧
        (Once fs slack opened ↔
          OneWay fs slack (tokens (· = ':') (getFilePath (some file))) (fileIncludes fs n) ∧
          NoWayBack fs slack (tokens (· = ':') (getFilePath (some file))) (fileIncludes fs n) n)) := by
  have hempty (path : CStr) (opened : List CStr) : (wcollCtxCreate path opened).include_cache = [] := rfl
  refine ⟨?_, ?_, ?_⟩
  · intro path file hl opened h
    obtain ⟨ctx, hread, hret⟩ := Run.bind_eq_ret_iff.mp h
    cases hret
    obtain ⟨new, hreads⟩ := readFile_reads fs slack fuel _ _ _ hread
    have hopened : ctx.opened = new := hreads.opened
    rw [hopened]
    refine ⟨hreads.ranges, ?_⟩
    exact forall₂_congr fun n _ => hreads.count_le_one_iff (hempty path []) n
  · intro stdin hl opened h
    unfold readWcoll at h
    rw [if_pos rfl] at h
    obtain ⟨ctx, hread, hret⟩ := Run.bind_eq_ret_iff.mp h
    cases hret
    obtain ⟨new, hreads⟩ := readStream_reads (readFile_reads fs slack fuel) hread
    have hopened : ctx.opened = new := hreads.opened
    rw [hopened]
    refine ⟨hreads.ranges, ?_⟩
    exact forall₂_congr fun n _ => hreads.count_le_one_iff (hempty _ []) n
  · intro stdin file hl opened hfile h
    unfold readWcoll at h
    rw [if_neg hfile] at h
    split at h
    · split at h
      · cases h
      · rename_i n hopen
        obtain ⟨ctx, hread, hret⟩ := Run.bind_eq_ret_iff.mp h
        cases hret
        obtain ⟨new, hreads⟩ := readStream_reads (readFile_reads fs slack fuel) hread
        have hopened : ctx.opened = file :: new := hreads.opened
        have hfiles : readFiles fs (file :: new) = n :: readFiles fs new := List.filterMap_cons_some hopen
        rw [hopened]
        refine ⟨n, hopen, ?_, ?_⟩
        · unfold MadeOf
          rw [hfiles]
          exact hreads.ranges
        · -- the first file counts once more
          have hcount (m : Fin fs.files.length) : (readFiles fs (file :: new)).count m ≤ 1 ↔
              (readFiles fs new).count m ≤ 1 ∧ (m = n → (readFiles fs new).count m = 0) := by
            rw [hfiles, List.count_cons]
            by_cases hm : m = n
            · subst hm
              rw [if_pos (beq_self_eq_true m)]
              exact ⟨fun h => ⟨by omega, fun _ => by omega⟩, fun h => by have := h.2 rfl; omega⟩
            · have hne : (n == m) = false := beq_false_of_ne fun h => hm h.symm
              simp [hne, hm]
          unfold Once OneWay NoWayBack
          simp only [hcount, hreads.count_le_one_iff (hempty _ _), hreads.count_eq_zero_iff (hempty _ _)]
          constructor
          · intro hall
            exact ⟨fun m hm => (hall m hm).1, fun hn => (hall n hn).2 rfl⟩
          · rintro ⟨hone, hback⟩ m hm
            refine ⟨hone m hm, ?_⟩
            rintro rfl
            exact hback hm
    · cases h

/-! ## A file that includes itself -/

/-- The file `A` in the current directory, which includes itself. -/
def selfIncluding : FileSystem where
  files := ["foo1\n#include A\n".toList]
  access p := p = "A".toList ∨ p = "./A".toList
  fopen p := if p = "A".toList ∨ p = "./A".toList then some 0 else none

/-- `read_wcoll` opens `A`, whose include leads to `./A`, so `foo1` comes twice. -/
theorem host_included_twice :
    ∃ hl opened, readWcoll selfIncluding [] 3 [] "A".toList = .ret (hl, opened) ∧
      hl.names = ["foo1".toList, "foo1".toList] ∧ ¬ Once selfIncluding [] opened := by
  refine ⟨_, _, rfl, by decide +kernel, fun h => ?_⟩
  have htwice := h ⟨0, by decide⟩ (by decide +kernel)
  revert htwice
  decide +kernel

/-- `read_wcoll_path` puts the path of its first file in the cache. -/
theorem read_wcoll_once_iff_path :
    ∃ hl opened, readWcollPath selfIncluding [] 3 ".".toList "A".toList = .ret (hl, opened) ∧
      Once selfIncluding [] opened := by
  refine ⟨_, _, rfl, (((read_wcoll_once_iff selfIncluding [] 3).1 ".".toList "A".toList _ _ rfl).2).mpr ?_⟩
  -- `./A` is the only path there is
  have honly : ∀ p, Included selfIncluding (tokens (· = ':') ".".toList) ["A".toList] p → p = "./A".toList := by
    rintro p ⟨r, hr, hpath⟩
    induction hpath with
    | refl =>
        have hroots : includedPaths selfIncluding (tokens (· = ':') ".".toList) ["A".toList] = ["./A".toList] := by
          decide +kernel
        rw [hroots] at hr
        exact List.mem_singleton.mp hr
    | tail _ hstep ih =>
        rw [ih] at hstep
        have hnext : nextPaths selfIncluding (tokens (· = ':') ".".toList) "./A".toList = ["./A".toList] := by
          decide +kernel
        rw [hnext] at hstep
        exact List.mem_singleton.mp hstep
  intro n _ p hp q hq _ _
  rw [honly p hp, honly q hq]

end Pdsh
