import Pdsh.Hostlist.Pushes
import Pdsh.Opt.Rejected

/-!
# Exclusions

Exclusions are applied between the two rounds of an expansion: for each row of a `-x`
expression `hostlist_delete` takes one name off the rows of the `-w` expressions, the first one
it finds, and only then `wcoll_expand` reads what is left. So an excluded host goes where all
rows that have it are written among the rows of the exclusions, each as often as among the
targets, and are found (`exclusion_complete_iff`). Hosts that are not excluded always stay.
-/

namespace Pdsh

open Lib Lib.Chunks HostExpr

variable {slack : CStr} {e r : HostExpr} {hl : Hostlist}

namespace HostExpr

/-! ## How rows are stored -/

/-- The rows of the expression are stored as single hosts, not as numbers of a range. -/
def single : HostExpr → Bool
  | name p => (hostnameCreate p).suffix.isNone
  | one _ _ s => s ≠ []
  | two .. => true

/-- An expression that comes whole through both rounds: its names are shorter than 1024
bytes, and its rows fit between the rounds. -/
structure Whole (e : HostExpr) : Prop where
  ok : e.Ok (2 ^ 32)
  short : ∀ x ∈ e.names, x.length < 1024
  fits : ∀ r ∈ e.rows, r.Fits

theorem Ok.piece_below {B : Nat} (h : e.Ok B) (slack : CStr) : (e.piece slack).Below B := by
  have hnum := h.numbersBelow
  rw [NumbersBelow, tokens_unbroken (h.unbroken fun _ hc => hc)] at hnum
  rw [Piece.Below, ← bracketRanges_eq (h.parse slack)]
  exact hnum _ (List.mem_singleton_self _)

theorem Whole.row (h : e.Whole) (hr : r ∈ e.rows) : r.Row (2 ^ 32) := Row.of_mem h.ok h.short hr

/-- The first round leaves the rows as they are written. -/
theorem Whole.piece_names (h : e.Whole) (slack : CStr) : (e.piece slack).names = e.rows.map text := by
  have hfirst := h.ok.firstRound h.short slack
  have htext : List.Forall₂ (fun r x => x = r.text) e.rows (e.piece slack).names :=
    ((List.forall₂_and_left _ _).mpr ⟨fun r hr => (⟨h.row hr, h.fits r hr⟩ : r.Row (2 ^ 32) ∧ r.Fits),
      hfirst⟩).imp fun r x hr => hr.2.eq_text hr.1.1 hr.1.2
  rw [← List.forall₂_eq_eq_eq, List.forall₂_map_right_iff]
  exact htext.flip

theorem Whole.pushes_single (h : e.Whole) (slack : CStr) :
    ∀ hr ∈ (e.piece slack).pushes, hr.singlehost = e.single := by
  cases e with
  | name p =>
      have hp : curTok slack p = p := if_pos (h.fits (.name p) List.mem_cons_self)
      intro hr hmem
      rw [piece, Piece.pushes, hp, List.mem_singleton] at hmem
      rw [hmem, hostrangeOfHost, single]
      cases (hostnameCreate p).suffix <;> rfl
  | one p body s =>
      intro hr hmem
      rw [piece] at hmem
      unfold single
      split at hmem
      · rename_i hs
        obtain ⟨x, -, rfl⟩ := List.mem_map.mp hmem
        simp [hs, hostrangeCreateSingle]
      · rename_i hs
        obtain ⟨x, -, rfl⟩ := List.mem_map.mp hmem
        simpa [hostrangeCreate] using hs
  | two p body m body' s =>
      intro hr hmem
      obtain ⟨x, -, rfl⟩ := List.mem_map.mp hmem
      rfl

end HostExpr

theorem flatMap_stored_single {b : Bool} {rs : List Hostrange} (h : ∀ hr ∈ rs, hr.singlehost = b) :
    rs.flatMap Hostrange.stored = (rs.flatMap Hostrange.names).map (b, ·) := by
  rw [List.map_flatMap]
  apply List.flatMap_congr
  intro hr hmem
  rw [Hostrange.stored, h hr hmem]

/-- The entries of an expression: its rows, each with the way it is stored. -/
def HostExpr.entries (e : HostExpr) : List (Bool × HostExpr) := e.rows.map (e.single, ·)

/-- An entry as it is stored. -/
def storedAs (a : Bool × HostExpr) : Bool × CStr := (a.1, a.2.text)

theorem HostExpr.Whole.stored (h : e.Whole) (slack : CStr) :
    (e.piece slack).pushes.flatMap Hostrange.stored = e.entries.map storedAs := by
  rw [flatMap_stored_single (h.pushes_single slack), Piece.pushes_names, h.piece_names, entries,
    List.map_map, List.map_map]
  rfl

/-- `hostlist_create` pushes the ranges of the expression. -/
theorem hostlistCreate_whole (h : e.Whole) (slack : CStr) :
    hostlistCreate slack e.text = .ret (some (pushRanges hostlistNew (e.piece slack).pushes)) := by
  have hbelow := h.ok.piece_below slack
  apply createLoop_some_iff.mpr
  refine ⟨[e.piece slack], ?_, ?_, by rw [List.flatMap_singleton]⟩
  · rw [tokens_unbroken (h.ok.unbroken fun _ hc => hc), parsePieces, h.ok.parse]
    rfl
  · rw [List.forall_mem_singleton]
    cases hp : e.piece slack with
    | host => rfl
    | ranges => rfl
    | suffixed p rs s =>
        rw [hp] at hbelow
        simp only [Piece.endless, List.any_eq_false, decide_eq_true_eq]
        intro r hr
        exact ne_ulongMax_of_lt (Nat.lt_trans (hbelow r hr) (by decide))

/-- `hostlist_push` appends the entries of the expression. -/
theorem hostlistPush_whole (h : e.Whole) (slack : CStr) (hw : hl.Wf) (hb : hl.Below (2 ^ 32)) :
    ∃ n hl', hostlistPush slack hl e.text = .ret (n, hl') ∧ hl'.Wf ∧ hl'.Below (2 ^ 32) ∧
      hl'.stored = hl.stored ++ e.entries.map storedAs := by
  have hsfx : MAX_HOST_SUFFIX.toNat < 2 ^ 32 := by decide
  have hcreate := hostlistCreate_whole h slack
  have hpush : hostlistPush slack hl e.text =
      .ret ((pushRanges hostlistNew (e.piece slack).pushes).nhosts,
        (hostlistPushList hl (pushRanges hostlistNew (e.piece slack).pushes)).1) := by
    rw [hostlistPush, hcreate]
    rfl
  obtain ⟨names, -, hnew⟩ := hostlistCreate_some pow32_le hsfx h.ok.numbersBelow hcreate
  have happ := (hostlistPushList_spec pow32_le hw hb hnew.wf hnew.below).1
  refine ⟨_, _, hpush, happ.wf, happ.below, ?_⟩
  have hpushes := Piece.pushes_below hsfx (parsePiece_ok (h.ok.parse slack)) (h.ok.piece_below slack)
  have hstored := pushRanges_stored_below hostlistNew_wf (by simp [Hostlist.Below, hostlistNew])
    (fun hr hmem => (hpushes hr hmem).1)
    (fun hr hmem => Nat.lt_of_lt_of_le (hpushes hr hmem).2 pow32_le)
  have hrest := pushRanges_stored_below hw (hb.mono pow32_le) hnew.wf.ranges (hnew.below.mono pow32_le)
  rw [hostlistPushList, hostlistPushListLoop_fst, hnew.wf.nranges, List.take_length, hrest]
  rw [← h.stored slack]
  exact congrArg (hl.stored ++ ·) hstored

/-! ## Reading the options -/

/-- An expression on its own: nothing in front that says what kind of piece it is, and no
rcmd type or user. -/
structure HostExpr.Bare (e : HostExpr) : Prop where
  start : ∀ c ∈ e.text.head?, c ≠ '-' ∧ c ≠ '^' ∧ c ≠ '/' ∧ isspace c = false
  noSpec : NoSpecSep e.text

/-- A `-w` or `-x` option with its expressions. -/
inductive HostArg where
  | w (es : List HostExpr)
  | x (es : List HostExpr)

namespace HostArg

def exprs : HostArg → List HostExpr
  | w es => es
  | x es => es

/-- The option as it is written. -/
def arg : HostArg → TargetArg
  | w es => .w (listText es)
  | x es => .x (listText es)

/-- Expressions that are read one by one, each for itself and whole. -/
structure Ok (a : HostArg) : Prop where
  list : ListOk (2 ^ 32) a.exprs
  whole : ∀ e ∈ a.exprs, e.Whole
  bare : ∀ e ∈ a.exprs, e.Bare

/-- The expressions of all `-w` options. -/
def targets (args : List HostArg) : List HostExpr :=
  args.flatMap fun
    | w es => es
    | x _ => []

/-- The expressions of all `-x` options. -/
def exclusions (args : List HostArg) : List HostExpr :=
  args.flatMap fun
    | w _ => []
    | x es => es

end HostArg

theorem wcollSep_hostlistSep (c : Char) (h : wcollSep c) : hostlistSep c := by
  simp only [wcollSep, decide_eq_true_eq] at h
  rw [h]
  rfl

namespace HostExpr

theorem Bare.dropWhile (h : e.Bare) : e.text.dropWhile isspace = e.text := by
  cases htext : e.text with
  | nil => rfl
  | cons c s =>
      obtain ⟨-, -, -, hspace⟩ := h.start c (by rw [htext]; rfl)
      rw [List.dropWhile_cons_of_neg (by simp [hspace])]

theorem Bare.hosts (h : e.Bare) : ¬ NotHosts e.text := by
  rintro (hfile | hregex)
  · exact (h.start '^' hfile).2.1 rfl
  · exact (h.start '/' hregex).2.2.1 rfl

theorem Bare.noDash (h : e.Bare) : e.text.head? ≠ some '-' := fun hdash => (h.start '-' hdash).1 rfl

/-- A text behind a dash is still one piece. -/
theorem Ok.unbroken_dash {B : Nat} (h : e.Ok B) : Unbroken wcollSep ('-' :: e.text) := by
  refine ⟨List.cons_ne_nil _ _, e.nested, ?_⟩
  rw [tokenLevel, if_neg (by decide), if_neg (by decide), if_neg (by decide)]
  exact h.level wcollSep_hostlistSep

end HostExpr

theorem whole_targets {args : List HostArg} (hok : ∀ a ∈ args, a.Ok) :
    ∀ e ∈ HostArg.targets args, e.Whole := by
  intro e he
  obtain ⟨a, ha, hea⟩ := List.mem_flatMap.mp he
  cases a with
  | w es => exact (hok _ ha).whole e hea
  | x es => cases hea

theorem whole_exclusions {args : List HostArg} (hok : ∀ a ∈ args, a.Ok) :
    ∀ e ∈ HostArg.exclusions args, e.Whole := by
  intro e he
  obtain ⟨a, ha, hea⟩ := List.mem_flatMap.mp he
  cases a with
  | w es => cases hea
  | x es => exact (hok _ ha).whole e hea

variable {env : Env} {opt : Opt} {ws xs es : List HostExpr}

/-- What the options read so far have left: the exclusions, the last one in front, and the
entries of the targets, in order. -/
structure Gathered (ws xs : List HostExpr) (opt : Opt) : Prop where
  excluded : opt.excludeList = (xs.map text).reverse
  regex : opt.regexList = []
  untargeted : opt.wcoll = none ↔ ws = []
  wf : ∀ hl ∈ opt.wcoll, hl.Wf ∧ hl.Below (2 ^ 32)
  stored : ∀ hl ∈ opt.wcoll, hl.stored = (ws.flatMap entries).map storedAs

theorem gathered_default : Gathered [] [] optDefault where
  excluded := rfl
  regex := rfl
  untargeted := by simp [optDefault]
  wf hl h := by cases h
  stored hl h := by cases h

/-- An exclusion is put in front of the list. -/
theorem Gathered.exclude (hg : Gathered ws xs opt) (hbare : e.Bare) :
    ∃ opt', wcollArgProcess env ('-' :: e.text) opt = .ret opt' ∧ Gathered ws (xs ++ [e]) opt' := by
  have hread := @wcollArgProcess_other env opt ('-' :: e.text) e.text hbare.dropWhile hbare.hosts
  rw [if_pos (List.head?_cons)] at hread
  refine ⟨_, hread, ?_, hg.regex, hg.untargeted, hg.wf, hg.stored⟩
  simp [hg.excluded]

/-- A target is pushed onto the list there is, or onto a new one. -/
theorem Gathered.target (hg : Gathered ws xs opt) (hbare : e.Bare) (hwhole : e.Whole) :
    ∃ opt', wcollArgProcess env e.text opt = .ret opt' ∧ Gathered (ws ++ [e]) xs opt' := by
  have hread := @wcollArgProcess_other env opt e.text e.text
    (by rw [if_neg hbare.noDash, hbare.dropWhile]) hbare.hosts
  rw [if_neg hbare.noDash] at hread
  have hspec : getHostRcmdType e.text = .ret ⟨none, none, e.text⟩ :=
    @getHostRcmdType_text ⟨none, none, e.text⟩ (by simp) (by simp) hbare.noSpec
  have hlist : (opt.wcoll.getD hostlistNew).Wf ∧ (opt.wcoll.getD hostlistNew).Below (2 ^ 32) ∧
      (opt.wcoll.getD hostlistNew).stored = (ws.flatMap entries).map storedAs := by
    cases hw : opt.wcoll with
    | none =>
        rw [hg.untargeted.mp hw]
        exact ⟨hostlistNew_wf, by simp [Hostlist.Below, hostlistNew], rfl⟩
    | some hl => exact ⟨(hg.wf hl hw).1, (hg.wf hl hw).2, hg.stored hl hw⟩
  obtain ⟨n, hl', hpush, hw', hb', hstored⟩ := hostlistPush_whole hwhole env.slack hlist.1 hlist.2.1
  have hprocess : wcollArgProcess env e.text opt = .ret { opt with wcoll := some hl' } := by
    rw [hread, wcollHostsProcess, hspec]
    simp only [Run.ret_bind, hpush]
    rfl
  refine ⟨_, hprocess, hg.excluded, hg.regex, by simp, ?_, ?_⟩
  · rintro hl ⟨⟩
    exact ⟨hw', hb'⟩
  · rintro hl ⟨⟩
    rw [hstored, hlist.2.2, List.flatMap_append, List.flatMap_singleton, List.map_append]

theorem Gathered.targets (hg : Gathered ws xs opt) (hbare : ∀ e ∈ es, e.Bare)
    (hwhole : ∀ e ∈ es, e.Whole) :
    ∃ opt', wcollPiecesProcess env (es.map text) opt = .ret opt' ∧ Gathered (ws ++ es) xs opt' := by
  induction es generalizing ws opt with
  | nil => exact ⟨opt, rfl, by simpa using hg⟩
  | cons e es ih =>
      obtain ⟨hb, hbs⟩ := List.forall_mem_cons.mp hbare
      obtain ⟨hw, hws⟩ := List.forall_mem_cons.mp hwhole
      obtain ⟨opt₁, hone, hg₁⟩ := @Gathered.target _ env _ _ _ hg hb hw
      obtain ⟨opt₂, hrest, hg₂⟩ := ih hg₁ hbs hws
      refine ⟨opt₂, ?_, by simpa using hg₂⟩
      rw [List.map_cons, wcollPiecesProcess, hone]
      exact hrest

theorem Gathered.exclusions (hg : Gathered ws xs opt) (hbare : ∀ e ∈ es, e.Bare) :
    ∃ opt', wcollPiecesProcess env (es.map fun e => '-' :: e.text) opt = .ret opt' ∧
      Gathered ws (xs ++ es) opt' := by
  induction es generalizing xs opt with
  | nil => exact ⟨opt, rfl, by simpa using hg⟩
  | cons e es ih =>
      obtain ⟨hb, hbs⟩ := List.forall_mem_cons.mp hbare
      obtain ⟨opt₁, hone, hg₁⟩ := hg.exclude hb
      obtain ⟨opt₂, hrest, hg₂⟩ := ih hg₁ hbs
      refine ⟨opt₂, ?_, by simpa using hg₂⟩
      rw [List.map_cons, wcollPiecesProcess, hone]
      exact hrest

/-- The pieces of a `-w` option are its expressions. -/
theorem pieces_targets (h : (HostArg.w es).Ok) : (HostArg.w es).arg.pieces = es.map text := by
  have htoks : tokens wcollSep (listText es) = es.map text :=
    tokens_listText h.list rfl wcollSep_hostlistSep
  have hdash : listText es ≠ ['-'] := by
    intro heq
    rw [heq] at htoks
    have hmem : ['-'] ∈ es.map text := htoks ▸ List.mem_singleton_self ['-']
    obtain ⟨e, he, htext⟩ := List.mem_map.mp hmem
    exact (h.bare e he).noDash (by rw [htext]; rfl)
  rw [HostArg.arg, TargetArg.pieces, if_neg hdash]
  exact htoks

/-- The pieces of a `-x` option are its expressions, each behind a dash. -/
theorem pieces_exclusions (h : (HostArg.x es).Ok) :
    (HostArg.x es).arg.pieces = es.map fun e => '-' :: e.text := by
  have htoks : tokens wcollSep (listText es) = es.map text :=
    tokens_listText h.list rfl wcollSep_hostlistSep
  rw [HostArg.arg, TargetArg.pieces, listSplit, htoks, List.flatMap_map, List.map_eq_flatMap]
  apply List.flatMap_congr
  intro e he
  exact tokens_unbroken (h.list.ok e he).unbroken_dash

/-- All options are read. -/
theorem gathered_args {args : List HostArg} (hok : ∀ a ∈ args, a.Ok) (hg : Gathered ws xs opt) :
    ∃ opt', wcollPiecesProcess env ((args.map HostArg.arg).flatMap TargetArg.pieces) opt = .ret opt' ∧
      Gathered (ws ++ HostArg.targets args) (xs ++ HostArg.exclusions args) opt' := by
  induction args generalizing ws xs opt with
  | nil => exact ⟨opt, rfl, by simpa [HostArg.targets, HostArg.exclusions] using hg⟩
  | cons a args ih =>
      obtain ⟨ha, has⟩ := List.forall_mem_cons.mp hok
      rw [List.map_cons, List.flatMap_cons, wcollPiecesProcess_append]
      cases a with
      | w es =>
          obtain ⟨opt₁, hone, hg₁⟩ := hg.targets ha.bare ha.whole
          obtain ⟨opt₂, hrest, hg₂⟩ := ih has hg₁
          rw [List.append_assoc] at hg₂
          rw [pieces_targets ha]
          exact ⟨opt₂, (congrArg (· >>= _) hone).trans hrest, hg₂⟩
      | x es =>
          obtain ⟨opt₁, hone, hg₁⟩ := hg.exclusions ha.bare
          obtain ⟨opt₂, hrest, hg₂⟩ := ih has hg₁
          rw [List.append_assoc] at hg₂
          rw [pieces_exclusions ha]
          exact ⟨opt₂, (congrArg (· >>= _) hone).trans hrest, hg₂⟩

/-! ## The exclusion pass -/

theorem HostExpr.Whole.length_rows (h : e.Whole) : e.rows.length < 2 ^ 31 := by
  cases h.ok with
  | name => exact Nat.one_lt_two_pow (by decide)
  | one _ _ hbody =>
      rw [rows, List.length_map]
      exact hbody.length_texts (by decide)
  | two _ _ _ hbody _ =>
      rw [rows, List.length_map]
      exact hbody.length_texts (by decide)

/-- The rows of an exclusion are deleted from the last one to the first. -/
theorem hostsToDelete_whole (h : e.Whole) (slack : CStr) :
    hostsToDelete slack e.text = (e.rows.map text).reverse := by
  have hexp : expand slack e.text = .ret (some (e.piece slack).names) := by
    have hread := expand_listText h.ok.singleton slack
    rwa [listText_singleton, List.flatMap_singleton] at hread
  rw [h.piece_names] at hexp
  exact hostsToDelete_eq (h.ok.numbersBelow.mono (by decide)) hexp (by rw [List.length_map]; exact h.length_rows)

/-- All exclusions are applied: one entry is erased for each of their rows, the last one first. -/
theorem applyExcludedLoop_whole (hx : ∀ e ∈ xs, e.Whole) (slack : CStr) (hw : hl.Wf) (hs : hl.Small) :
    ∃ hl', applyExcludedLoop slack (xs.map text).reverse hl = .ret hl' ∧
      Deleted hl (eraseAll known ((xs.flatMap rows).map text).reverse hl.stored) hl' := by
  induction xs using List.reverseRecOn generalizing hl with
  | nil => exact ⟨hl, rfl, hw, fun _ hB => hB, rfl⟩
  | append_singleton xs e ih =>
      have he := hx e (by simp)
      have hdelete : ∃ r, hostlistDelete slack hl e.text = .ret r := by
        rw [hostlistDelete, hostlistCreate_whole he]
        exact ⟨_, rfl⟩
      obtain ⟨r, hr⟩ := hdelete
      have hdel : Deleted hl (eraseAll known (hostsToDelete slack e.text) hl.stored) r.2 :=
        hostlistDelete_deleted hw hs hr
      rw [hostsToDelete_whole he] at hdel
      have hs' := hdel.small (eraseAll_sublist _ _).length_le hs
      obtain ⟨hl', hrest, hdel'⟩ := ih (fun e he => hx e (by simp [he])) hdel.wf hs'
      refine ⟨hl', ?_, hdel'.wf, fun B hB => hdel'.below B (hdel.below B hB), ?_⟩
      · rw [List.map_append, List.map_singleton, List.reverse_append, List.reverse_singleton,
          List.singleton_append, applyExcludedLoop, hr]
        exact hrest
      · rw [hdel'.stored, hdel.stored, List.flatMap_append, List.flatMap_singleton, List.map_append,
          List.reverse_append, eraseAll_append]

/-! ## The rows left -/

/-- The deletion of the row `d` finds this entry. -/
def finds (d : HostExpr) (a : Bool × HostExpr) : Bool := known d.text (storedAs a)

/-- The entries of the targets that the exclusions leave. -/
def leftEntries (ws xs : List HostExpr) : List (Bool × HostExpr) :=
  eraseAll finds (xs.flatMap rows).reverse (ws.flatMap entries)

theorem stored_leftEntries (ws xs : List HostExpr) :
    eraseAll known ((xs.flatMap rows).map text).reverse ((ws.flatMap entries).map storedAs) =
      (leftEntries ws xs).map storedAs := by
  rw [eraseAll_map, ← List.map_reverse, eraseAll_requests]
  rfl

/-- A row is known by the way it is written. -/
theorem HostExpr.Row.eq_of_text {B : Nat} {d : HostExpr} (h : r.Row B) (hd : d.Row B)
    (heq : d.text = r.text) : d = r := by
  have hcut {p body s : CStr} (hp : Plain hostlistSep p) :
      strchr '[' (HostExpr.one p body s).text = some (p, body ++ ']' :: s) :=
    strchr_eq_some_iff.mpr ⟨by simp [text], fun hc => (hp _ hc).1 rfl⟩
  have hnone {p : CStr} (hp : Plain hostlistSep p) : strchr '[' (HostExpr.name p).text = none :=
    strchr_eq_none_iff.mpr fun hc => (hp _ hc).1 rfl
  cases h with
  | name hp =>
      cases hd with
      | name => exact congrArg HostExpr.name heq
      | @one p' body' s' hp' =>
          have hsame : strchr '[' (HostExpr.one p' body' s').text = some (p', body' ++ ']' :: s') :=
            hcut hp'
          rw [heq, hnone hp] at hsame
          cases hsame
  | @one p body s hp _ hbody =>
      cases hd with
      | name hp' =>
          have hsame := hnone hp'
          rw [heq, hcut hp] at hsame
          cases hsame
      | @one p' body' s' hp' _ hbody' =>
          have hsame : strchr '[' (HostExpr.one p' body' s').text = some (p', body' ++ ']' :: s') :=
            hcut hp'
          rw [heq, hcut hp, Option.some.injEq, Prod.mk.injEq] at hsame
          obtain ⟨rfl, hrest⟩ := hsame
          have hclose : strchr ']' (body ++ ']' :: s) = some (body, s) :=
            strchr_eq_some_iff.mpr ⟨rfl, hbody.noClose⟩
          rw [hrest, strchr_eq_some_iff.mpr ⟨rfl, hbody'.noClose⟩, Option.some.injEq,
            Prod.mk.injEq] at hclose
          rw [hclose.1, hclose.2]

/-- What the exclusions promise of the hosts that are left: none of them is excluded, and the
others are there as often as the targets say. -/
structure ExclusionComplete (ws xs : List HostExpr) (left : List CStr) : Prop where
  none_left : ∀ x ∈ left, x ∉ xs.flatMap names
  others : ∀ x, x ∉ xs.flatMap names → left.count x = (ws.flatMap names).count x

/-- The deletion of the row `r` finds the entries of `e` with that row. -/
def HostExpr.found (e r : HostExpr) : Bool := e.single || (hostnameCreate r.text).suffix.isSome

/-- Each row of a target that has an excluded host is written among the rows of the exclusions
as often as among those of the targets, and found wherever it is stored. -/
def RowsExcluded (ws xs : List HostExpr) : Prop :=
  ∀ e ∈ ws, ∀ r ∈ e.rows, (∃ x ∈ r.names, x ∈ xs.flatMap names) →
    (ws.flatMap rows).count r ≤ (xs.flatMap rows).count r ∧ e.found r = true

instance (ws xs : List HostExpr) : Decidable (RowsExcluded ws xs) :=
  inferInstanceAs (Decidable (∀ e ∈ ws, ∀ r ∈ e.rows, _ → _))

theorem mem_entries {a : Bool × HostExpr} (h : a ∈ ws.flatMap entries) :
    ∃ e ∈ ws, a.2 ∈ e.rows ∧ a = (e.single, a.2) := by
  obtain ⟨e, he, ha⟩ := List.mem_flatMap.mp h
  obtain ⟨r, hr, rfl⟩ := List.mem_map.mp ha
  exact ⟨e, he, hr, rfl⟩

theorem entries_map_snd (ws : List HostExpr) : (ws.flatMap entries).map Prod.snd = ws.flatMap rows := by
  simp [HostExpr.entries, List.map_flatMap, Function.comp_def]

theorem finds_entry_iff (hr : r ∈ e.rows) (he : e.Whole) {d : HostExpr} (hd : d.Row (2 ^ 32)) :
    finds d (e.single, r) = true ↔ d = r ∧ e.found r = true := by
  rw [finds, known_iff]
  constructor
  · rintro ⟨heq, hfound⟩
    have hsame := (he.row hr).eq_of_text hd heq.symm
    rw [hsame] at hfound
    exact ⟨hsame, hfound⟩
  · rintro ⟨rfl, hfound⟩
    exact ⟨rfl, hfound⟩

section Left

variable (hws : ∀ e ∈ ws, e.Whole) (hxs : ∀ e ∈ xs, e.Whole)

include hws hxs

/-- A deletion finds entries of its row only. -/
theorem snd_of_finds {a : Bool × HostExpr} (ha : a ∈ ws.flatMap entries) {d : HostExpr}
    (hd : d ∈ xs.flatMap rows) (hf : finds d a) : a.2 = d := by
  obtain ⟨e, he, hr, heq⟩ := mem_entries ha
  obtain ⟨e', he', hd'⟩ := List.mem_flatMap.mp hd
  rw [heq] at hf
  exact ((finds_entry_iff hr (hws e he) ((hxs e' he').row hd')).mp hf).1.symm

/-- The hosts left that are not excluded. -/
theorem leftEntries_others {x : CStr} (hx : x ∉ xs.flatMap names) :
    (((leftEntries ws xs).map Prod.snd).flatMap names).count x = (ws.flatMap names).count x := by
  rw [← @flatMap_rows ws, ← entries_map_snd, List.flatMap_map, List.flatMap_map]
  apply count_flatMap_eraseAll
  intro a ha d hd hf hxa
  rw [List.mem_reverse] at hd
  rw [snd_of_finds hws hxs ha hd hf] at hxa
  rw [← flatMap_rows] at hx
  exact hx (List.mem_flatMap.mpr ⟨d, hd, hxa⟩)

/-- No entry of a row is left exactly when the exclusions have the row often enough and it is
found wherever it is stored. -/
theorem leftEntries_row_iff (hr : r ∈ e.rows) (he : e ∈ ws) :
    (∀ a ∈ leftEntries ws xs, a.2 ≠ r) ↔
      (ws.flatMap rows).count r ≤ (xs.flatMap rows).count r ∧
        ∀ e' ∈ ws, r ∈ e'.rows → e'.found r = true := by
  have hrow := (hws e he).row hr
  have hcount : (leftEntries ws xs).countP (finds r) =
      (ws.flatMap entries).countP (finds r) - (xs.flatMap rows).count r := by
    rw [← List.count_reverse]
    apply countP_eraseAll
    intro a ha d hd hfr hfd
    rw [List.mem_reverse] at hd
    obtain ⟨e', he', hr', heq⟩ := mem_entries ha
    rw [heq] at hfr
    rw [← snd_of_finds hws hxs ha hd hfd, ((finds_entry_iff hr' (hws e' he') hrow).mp hfr).1]
  -- where it is found everywhere, the entries it finds are those of the row
  have hall : (∀ e' ∈ ws, r ∈ e'.rows → e'.found r = true) →
      (ws.flatMap entries).countP (finds r) = (ws.flatMap rows).count r := by
    intro hfound
    rw [← entries_map_snd, List.count, List.countP_map]
    apply List.countP_congr
    intro a ha
    obtain ⟨e', he', hr', heq⟩ := mem_entries ha
    rw [heq, finds_entry_iff hr' (hws e' he') hrow]
    simp only [Function.comp_apply, beq_iff_eq]
    constructor
    · rintro ⟨hsame, -⟩
      exact hsame.symm
    · intro hsame
      exact ⟨hsame.symm, hsame ▸ hfound e' he' (hsame ▸ hr')⟩
  constructor
  · intro hno
    have hfound : ∀ e' ∈ ws, r ∈ e'.rows → e'.found r = true := by
      intro e' he' hr'
      by_contra hnot
      refine hno (e'.single, r) (mem_eraseAll_of_unseen ?_ ?_) rfl
      · exact List.mem_flatMap.mpr ⟨e', he', List.mem_map_of_mem hr'⟩
      · intro d hd
        rw [List.mem_reverse] at hd
        obtain ⟨e'', he'', hd'⟩ := List.mem_flatMap.mp hd
        rw [Bool.eq_false_iff]
        intro hf
        exact hnot ((finds_entry_iff hr' (hws e' he') ((hxs e'' he'').row hd')).mp hf).2
    refine ⟨?_, hfound⟩
    have hzero : (leftEntries ws xs).countP (finds r) = 0 := by
      rw [List.countP_eq_zero]
      intro a ha hf
      obtain ⟨e', he', hr', heq⟩ := mem_entries ((eraseAll_sublist _ _).subset ha)
      rw [heq] at hf
      exact hno a ha ((finds_entry_iff hr' (hws e' he') hrow).mp hf).1.symm
    rw [hcount, hall hfound] at hzero
    omega
  · rintro ⟨hle, hfound⟩ a ha rfl
    obtain ⟨e', he', hr', heq⟩ := mem_entries ((eraseAll_sublist _ _).subset ha)
    have hzero : (leftEntries ws xs).countP (finds a.2) = 0 := by
      rw [hcount, hall hfound]
      omega
    refine List.countP_eq_zero.mp hzero a ha ?_
    have hf := (finds_entry_iff hr' (hws e' he') hrow).mpr ⟨rfl, hfound e' he' hr'⟩
    rwa [← heq] at hf

/-- What is left is what the exclusions promise exactly when the rows are excluded. -/
theorem leftEntries_complete_iff :
    ExclusionComplete ws xs (((leftEntries ws xs).map Prod.snd).flatMap names) ↔ RowsExcluded ws xs := by
  constructor
  · rintro ⟨hnone, -⟩ e he r hr ⟨x, hx, hxs'⟩
    have hno : ∀ a ∈ leftEntries ws xs, a.2 ≠ r := by
      rintro a ha rfl
      exact hnone x (List.mem_flatMap.mpr ⟨a.2, List.mem_map_of_mem ha, hx⟩) hxs'
    obtain ⟨hle, hfound⟩ := (leftEntries_row_iff hws hxs hr he).mp hno
    exact ⟨hle, hfound e he hr⟩
  · intro hrows
    refine ⟨?_, fun x hx => leftEntries_others hws hxs hx⟩
    intro x hx hxs'
    obtain ⟨r, hr, hxr⟩ := List.mem_flatMap.mp hx
    obtain ⟨a, ha, rfl⟩ := List.mem_map.mp hr
    obtain ⟨e, he, hre, -⟩ := mem_entries ((eraseAll_sublist _ _).subset ha)
    have hgone : ∀ a' ∈ leftEntries ws xs, a'.2 ≠ a.2 := by
      rw [leftEntries_row_iff hws hxs hre he]
      refine ⟨(hrows e he a.2 hre ⟨x, hxr, hxs'⟩).1, ?_⟩
      intro e' he' hre'
      exact (hrows e' he' a.2 hre' ⟨x, hxr, hxs'⟩).2
    exact hgone a ha rfl

end Left

/-! ## The hosts that are left -/

theorem HostExpr.Row.firstRound {B : Nat} (h : r.Row B) (hf : r.Fits) (slack : CStr) :
    FirstRound slack r r.text := by
  have hpushed := @FirstRound.pushed slack r
  rwa [hpushed.eq_text h hf] at hpushed

/-- The filters leave the names of the rows that are left. -/
theorem filterWcoll_whole {env : Env} (hg : Gathered ws xs opt) (hws : ∀ e ∈ ws, e.Whole)
    (hxs : ∀ e ∈ xs, e.Whole) (hlist : hl ∈ opt.wcoll) (hsmall : (ws.flatMap rows).length < 2 ^ 31) :
    ∃ hl', filterWcoll env opt hl = .ret hl' ∧
      hl'.names = ((leftEntries ws xs).map Prod.snd).flatMap names := by
  obtain ⟨hw, hb⟩ := hg.wf hl hlist
  have hstored := hg.stored hl hlist
  have hlen : hl.names.length = (ws.flatMap rows).length := by
    rw [← Hostlist.length_stored, hstored, List.length_map, ← entries_map_snd, List.length_map]
  obtain ⟨hl₁, hdelete, hdel⟩ := applyExcludedLoop_whole hxs env.slack hw (by rw [Hostlist.Small, hlen]; exact hsmall)
  have hleft := hdel.stored
  rw [hstored, stored_leftEntries] at hleft
  have hrow : ∀ r ∈ (leftEntries ws xs).map Prod.snd, r.Row (2 ^ 32) ∧ r.Fits := by
    intro r hr
    obtain ⟨a, ha, rfl⟩ := List.mem_map.mp hr
    obtain ⟨e, he, hre, -⟩ := mem_entries ((eraseAll_sublist _ _).subset ha)
    exact ⟨(hws e he).row hre, (hws e he).fits a.2 hre⟩
  have hnames : hl₁.names = ((leftEntries ws xs).map Prod.snd).map text := by
    rw [← Hostlist.stored_map_snd, hleft, List.map_map, List.map_map]
    rfl
  have hfirst : List.Forall₂ (FirstRound env.slack) ((leftEntries ws xs).map Prod.snd) hl₁.names := by
    rw [hnames, List.forall₂_map_right_iff, List.forall₂_same]
    intro r hr
    exact (hrow r hr).1.firstRound (hrow r hr).2 env.slack
  have hfew : ((leftEntries ws xs).map Prod.snd).length < 2 ^ 31 := by
    have hle := (eraseAll_sublist (p := finds) (xs.flatMap rows).reverse (ws.flatMap entries)).length_le
    rw [← entries_map_snd, List.length_map] at hsmall
    rw [List.length_map, leftEntries]
    omega
  obtain ⟨hl₂, hexp, happ⟩ := wcollExpand_fits (by decide) (by decide) hdel.wf (hdel.below _ hb)
    (fun r hr => (hrow r hr).1) hfirst hfew fun r hr => (hrow r hr).2
  refine ⟨hl₂, ?_, by simpa using happ.names⟩
  rw [filterWcoll, hg.excluded, hdelete, Run.ret_bind, hg.regex]
  exact hexp

/-- The names of the rows the exclusions leave are the hosts the options leave. -/
theorem optArgs_left {env : Env} {args : List HostArg} (hmodules : env.moduleWcolls = [])
    (hvar : HostArg.targets args = [] → env.wcollVar = none) (hok : ∀ a ∈ args, a.Ok)
    (hsmall : ((HostArg.targets args).flatMap rows).length < 2 ^ 31) :
    ∃ opt, optArgs env (args.map HostArg.arg) = .ret opt ∧
      opt.hosts = ((leftEntries (HostArg.targets args) (HostArg.exclusions args)).map Prod.snd).flatMap
        names := by
  obtain ⟨opt, hread, hg⟩ := @gathered_args env _ _ _ args hok gathered_default
  rw [List.nil_append, List.nil_append] at hg
  have hmod : modReadWcoll env opt.wcoll = opt.wcoll := by
    rw [modReadWcoll, hmodules]
    rfl
  rw [optArgs_eq, hread, Run.ret_bind, readOtherWcoll, hmod]
  cases hlist : opt.wcoll with
  | none =>
      have hnil := hg.untargeted.mp hlist
      rw [hvar hnil, hnil]
      have hleft : leftEntries [] (HostArg.exclusions args) = [] :=
        List.sublist_nil.mp (eraseAll_sublist _ _)
      exact ⟨{ opt with wcoll := none }, rfl, by rw [hleft]; rfl⟩
  | some hl =>
      obtain ⟨hl', hfilter, hnames⟩ := @filterWcoll_whole _ _ _ _ env hg (whole_targets hok)
        (whole_exclusions hok) hlist hsmall
      refine ⟨{ opt with wcoll := some hl' }, ?_, hnames⟩
      simp only [Run.ret_bind, hfilter]
      rfl

/-- The options leave no excluded host, and all others, exactly when each row of a target that
has an excluded host is among the rows of the exclusions as often as among those of the
targets, and is found where it is stored. -/
theorem exclusion_complete_iff {env : Env} {args : List HostArg} (hmodules : env.moduleWcolls = [])
    (hvar : HostArg.targets args = [] → env.wcollVar = none) (hok : ∀ a ∈ args, a.Ok)
    (hsmall : ((HostArg.targets args).flatMap rows).length < 2 ^ 31) :
    ∃ opt, optArgs env (args.map HostArg.arg) = .ret opt ∧
      (ExclusionComplete (HostArg.targets args) (HostArg.exclusions args) opt.hosts ↔
        RowsExcluded (HostArg.targets args) (HostArg.exclusions args)) := by
  obtain ⟨opt, hret, hhosts⟩ := optArgs_left hmodules hvar hok hsmall
  refine ⟨opt, hret, ?_⟩
  rw [hhosts]
  exact leftEntries_complete_iff (whole_targets hok) (whole_exclusions hok)

/-! ## Hosts that stay -/

theorem whole_name {p : CStr} (hp : Plain hostlistSep p) (hne : p ≠ []) (hlen : p.length < 1023) :
    (HostExpr.name p).Whole where
  ok := .name hp hne
  short x hx := by
    rw [List.mem_singleton.mp hx]
    omega
  fits r hr := by
    rw [List.mem_singleton.mp hr]
    exact hlen

theorem HostExpr.bare_of_head {e : HostExpr} {c : Char} (hhead : e.text.head? = some c)
    (hc : c ≠ '-' ∧ c ≠ '^' ∧ c ≠ '/' ∧ isspace c = false) (hspec : NoSpecSep e.text) :
    e.Bare where
  start x hx := by
    rw [hhead, Option.mem_some_iff] at hx
    exact hx ▸ hc
  noSpec := hspec

/-- `foo1` and `foo1-0`. -/
theorem foo_whole : (HostExpr.name "foo1".toList).Whole ∧ (HostExpr.name "foo1-0".toList).Whole :=
  ⟨whole_name (plain_of_all (by decide)) (by decide) (by decide),
    whole_name (plain_of_all (by decide)) (by decide) (by decide)⟩

/-- `-w foo1,foo1 -x foo1`. -/
def excludedTwice : List HostArg :=
  [.w [.name "foo1".toList, .name "foo1".toList], .x [.name "foo1".toList]]

/-- `-w foo[1-2]-[0-3] -x foo1-0`. -/
def excludedSecond : List HostArg := [.w [fooTwoBrackets], .x [.name "foo1-0".toList]]

theorem excludedTwice_ok : ∀ a ∈ excludedTwice, a.Ok := by
  have hfoo := foo_whole.1
  have hbare : (HostExpr.name "foo1".toList).Bare :=
    HostExpr.bare_of_head rfl (by decide) ⟨by decide, by decide⟩
  intro a ha
  fin_cases ha
  · refine ⟨⟨?_, by decide⟩, ?_, ?_⟩
    · simpa [HostArg.exprs] using hfoo.ok
    · simpa [HostArg.exprs] using hfoo
    · simpa [HostArg.exprs] using hbare
  · refine ⟨hfoo.ok.singleton, ?_, ?_⟩
    · simpa [HostArg.exprs] using hfoo
    · simpa [HostArg.exprs] using hbare

/-- `-w foo1,foo1 -x foo1 -x foo1`. -/
def excludedAgain : List HostArg := excludedTwice ++ [.x [.name "foo1".toList]]

theorem exclusion_complete_again :
    ∃ opt, optArgs plainEnv (excludedAgain.map HostArg.arg) = .ret opt ∧
      ExclusionComplete (HostArg.targets excludedAgain) (HostArg.exclusions excludedAgain) opt.hosts := by
  have hok : ∀ a ∈ excludedAgain, a.Ok := by
    intro a ha
    rcases List.mem_append.mp ha with ha | ha
    · exact excludedTwice_ok a ha
    · rw [List.mem_singleton.mp ha]
      exact excludedTwice_ok _ (List.mem_cons_of_mem _ (List.mem_singleton_self _))
  obtain ⟨opt, hret, hiff⟩ := @exclusion_complete_iff plainEnv _ rfl (fun _ => rfl) hok (by decide)
  exact ⟨opt, hret, hiff.mpr (by decide)⟩

theorem excludedSecond_ok : ∀ a ∈ excludedSecond, a.Ok := by
  have htwo : fooTwoBrackets.Whole := ⟨fooTwoBrackets_ok.ok _ (by simp), by decide, by decide⟩
  have hbare : fooTwoBrackets.Bare ∧ (HostExpr.name "foo1-0".toList).Bare :=
    ⟨HostExpr.bare_of_head rfl (by decide) ⟨by decide, by decide⟩,
      HostExpr.bare_of_head rfl (by decide) ⟨by decide, by decide⟩⟩
  intro a ha
  fin_cases ha
  · refine ⟨fooTwoBrackets_ok, ?_, ?_⟩
    · simpa [HostArg.exprs] using htwo
    · simpa [HostArg.exprs] using hbare.1
  · refine ⟨foo_whole.2.ok.singleton, ?_, ?_⟩
    · simpa [HostArg.exprs] using foo_whole.2
    · simpa [HostArg.exprs] using hbare.2

/-- The options are accepted, and a host they exclude is left. -/
def LeavesExcluded (args : List HostArg) : Prop :=
  (∀ a ∈ args, a.Ok) ∧ ∃ opt, optArgs plainEnv (args.map HostArg.arg) = .ret opt ∧
    (∃ x ∈ opt.hosts, x ∈ (HostArg.exclusions args).flatMap names) ∧
    ¬ ExclusionComplete (HostArg.targets args) (HostArg.exclusions args) opt.hosts

theorem leavesExcluded_of_left {args : List HostArg} (hok : ∀ a ∈ args, a.Ok)
    (hsmall : ((HostArg.targets args).flatMap rows).length < 2 ^ 31)
    (hleft : ∃ x ∈ ((leftEntries (HostArg.targets args) (HostArg.exclusions args)).map
      Prod.snd).flatMap names, x ∈ (HostArg.exclusions args).flatMap names) :
    LeavesExcluded args := by
  obtain ⟨opt, hret, hhosts⟩ := @optArgs_left plainEnv args rfl (fun _ => rfl) hok hsmall
  obtain ⟨x, hx, hxs⟩ := hleft
  rw [← hhosts] at hx
  exact ⟨hok, opt, hret, ⟨x, hx, hxs⟩, fun h => h.none_left x hx hxs⟩

/-- Both leave the excluded host: there are two of `foo1`, and of `foo1-0` there is none until
the second bracket is expanded. -/
theorem exclusion_incomplete : LeavesExcluded excludedTwice ∧ LeavesExcluded excludedSecond :=
  ⟨leavesExcluded_of_left excludedTwice_ok (by decide) (by decide),
    leavesExcluded_of_left excludedSecond_ok (by decide) (by decide)⟩

end Pdsh
