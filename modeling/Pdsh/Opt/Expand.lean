import Pdsh.Opt.Expr
import Pdsh.Opt.Wcoll

/-!
# The two rounds of an expansion

`hostlist_create` expands the first bracket of an expression and leaves the rest
of the text in the names; `wcoll_expand` shifts the names off and pushes them
again, which expands the second. Between the rounds a row of the expression is a
C string in one of two buffers: a name read without a bracket goes through the
1024 bytes of `cur_tok`, a row formatted with its suffix through 4096 bytes.
`HostExpr.Fits` says that nothing is lost there, and this is what the product
depends on (`create_expand_iff`).
-/

namespace Pdsh

open Lib Lib.Decimal Lib.Chunks

variable {B : Nat} {slack : CStr}

/-- `hostlist_create`, and `wcoll_expand` on its result. -/
def createExpand (slack str : CStr) : Proc (Option Hostlist) := do
  let hl ← hostlistCreate slack str
  match hl with
  | none => pure none
  | some hl => do
      let wcoll ← wcollExpand slack hl
      pure (some wcoll)

/-! ## `wcoll_expand` -/

/-- The names a name stands for when it is pushed again; none when it is rejected. -/
def expandName (slack name : CStr) : Proc (List CStr) := do
  let names ← expand slack name
  pure (names.getD [])

/-- The names a list of names stands for when they are pushed again. -/
def expandAll (slack : CStr) : List CStr → Proc (List CStr)
  | [] => .ret []
  | name :: rest => do
      let names ← expandName slack name
      let more ← expandAll slack rest
      pure (names ++ more)

/-- The loop of `wcoll_expand` reads as many names again as its counter says. -/
theorem wcollExpandLoop_rel (slack : CStr) (hB : B ≤ 10 ^ 15) (hsfx : MAX_HOST_SUFFIX.toNat < B)
    {fuel : Nat} {hl wcoll : Hostlist} (hw : hl.Wf) (hb : hl.Below B)
    (hnum : ∀ x ∈ hl.names, NumbersBelow B x) (hfuel : hl.nhosts.toInt.toNat = fuel)
    (hw' : wcoll.Wf) (hb' : wcoll.Below B) :
    Run.Rel (Appended B wcoll) (expandAll slack (hl.names.take fuel))
      (wcollExpandLoop slack fuel hl wcoll) := by
  have hM : B ≤ ULONG_MAX.toNat := by
    rw [ULONG_MAX_toNat]
    omega
  have hzero : (0 : Int32).toInt = 0 := rfl
  have hone : (1 : Int32).toInt = 1 := rfl
  induction fuel generalizing hl wcoll with
  | zero => exact Appended.refl hw' hb'
  | succ fuel ih =>
      have hpos : hl.nhosts > 0 := by
        rw [gt_iff_lt, Int32.lt_iff_toInt_lt, hzero]
        omega
      obtain ⟨c, post, name, hhr, hcons, hmem, htext, hrem⟩ := hostlistShift_pos hw hpos (hb.mono hM)
      rw [c.cut_eq ((hb.mono hB).fits c (by simp [hhr])) hmem] at htext
      have hshift : hostlistShift hl = (some name, (hostlistShift hl).2) := by
        rw [← htext]
      have hcount : (hostlistShift hl).2.nhosts.toInt.toNat = fuel := by
        have hlt := hl.nhosts.toInt_lt
        rw [hostlistShift_cons hw hpos hhr]
        simp only
        rw [int_sub_toInt] <;> rw [hone] <;> omega
      rw [hcons, List.take_succ_cons, expandAll, expandName, wcollExpandLoop, hshift, Run.bind_assoc]
      apply (hostlistPush_rel slack hM hsfx hw' hb' (hnum name (by rw [hcons]; simp))).bind
      intro names r _ _ happ
      have hrest := ih hrem.wf (hrem.below B hb)
        (by
          intro x hx
          rw [hrem.names] at hx
          exact hnum x (List.mem_of_mem_tail hx))
        hcount happ.wf happ.below
      rw [hrem.names] at hrest
      rw [← Run.bind_ret (wcollExpandLoop slack fuel (hostlistShift hl).2 r.2)]
      simp only [Run.pure_eq, Run.ret_bind]
      apply hrest.bind
      intro more hl' _ _ happ'
      exact happ.trans happ'

theorem wcollExpand_rel (slack : CStr) (hB : B ≤ 10 ^ 15) (hsfx : MAX_HOST_SUFFIX.toNat < B)
    {hl : Hostlist} (hw : hl.Wf) (hb : hl.Below B) (hnum : ∀ x ∈ hl.names, NumbersBelow B x) :
    Run.Rel (Appended B hostlistNew) (expandAll slack (hl.names.take hl.nhosts.toInt.toNat))
      (wcollExpand slack hl) :=
  wcollExpandLoop_rel slack hB hsfx hw hb hnum rfl hostlistNew_wf (by simp [Hostlist.Below, hostlistNew])

/-- When each name is read again, so is the list. -/
theorem expandAll_of_forall₂ {α : Type} {Q : α → List CStr → Prop} {rs : List α} {xs : List CStr}
    (h : List.Forall₂ (fun r x => ∃ l, expandName slack x = .ret l ∧ Q r l) rs xs) :
    ∃ ls, expandAll slack xs = .ret ls.flatten ∧ List.Forall₂ Q rs ls := by
  induction h with
  | nil => exact ⟨[], rfl, .nil⟩
  | @cons r x rs xs hr _ ih =>
      obtain ⟨l, hl, hq⟩ := hr
      obtain ⟨ls, hls, hqs⟩ := ih
      refine ⟨l :: ls, ?_, .cons hq hqs⟩
      rw [expandAll, hl, Run.ret_bind, hls, Run.ret_bind]
      rfl

namespace HostExpr

variable {e r : HostExpr} {x : CStr}

/-! ## Rows -/

/-- A row with names shorter than 1024 bytes. -/
inductive Row (B : Nat) : HostExpr → Prop where
  | name {p : CStr} (hp : Plain hostlistSep p) (hne : p ≠ []) (hlen : p.length < 1024) : Row B (.name p)
  | one {p body s : CStr} (hp : Plain hostlistSep p) (hs : Plain hostlistSep s)
      (hbody : BodyOk B body) (hshort : ∀ x ∈ (one p body s).names, x.length < 1024) :
      Row B (.one p body s)

theorem Row.ok (h : r.Row B) : r.Ok B := by
  cases h with
  | name hp hne _ => exact .name hp hne
  | one hp hs hbody _ => exact .one hp hs hbody

theorem Row.of_mem (h : e.Ok B) (hshort : ∀ x ∈ e.names, x.length < 1024) (hr : r ∈ e.rows) :
    r.Row B := by
  have hrow := h.row hr
  have hmem : ∀ x ∈ r.names, x.length < 1024 := by
    intro x hx
    apply hshort
    rw [names_eq_rows]
    exact List.mem_flatMap.mpr ⟨r, hr, hx⟩
  cases r with
  | name p =>
      cases hrow with
      | name hp hne => exact .name hp hne (hmem p (by simp [names]))
  | one p body s =>
      cases hrow with
      | one hp hs hbody => exact .one hp hs hbody hmem
  | two p body m body' s => cases e <;> simp [HostExpr.rows] at hr

/-- The row is not cut between the rounds. -/
def Fits : HostExpr → Prop
  | name p => p.length < 1023
  | r => r.text.length < 4096

instance (r : HostExpr) : Decidable r.Fits := by
  unfold Fits
  split <;> infer_instance

/-- The text of a row between the rounds: formatted with a suffix, or the token
itself when it has no bracket. -/
inductive FirstRound (slack : CStr) : HostExpr → CStr → Prop where
  | pushed (r : HostExpr) : FirstRound slack r (snprintf 4096 r.text)
  | read (p : CStr) : FirstRound slack (.name p) (curTok slack p)

theorem FirstRound.name {p : CStr} (hp : p.length < 4096) : FirstRound slack (.name p) p := by
  have hpushed := @FirstRound.pushed slack (.name p)
  rwa [text, snprintf, List.take_of_length_le (by omega)] at hpushed

/-- The first round leaves one text for each row. -/
theorem Ok.firstRound (h : e.Ok B) (hshort : ∀ x ∈ e.names, x.length < 1024) (slack : CStr) :
    List.Forall₂ (FirstRound slack) e.rows (e.piece slack).names := by
  cases h with
  | name => exact .cons (.read _) .nil
  | @one p body s =>
      have hlt : ∀ x ∈ (HostExpr.one p body s).names, x.length < 4096 := by
        intro x hx
        exact Nat.lt_of_lt_of_le (hshort x hx) (by decide)
      rw [piece_names_one hlt, rows, names, List.forall₂_map_left_iff, List.forall₂_map_right_iff,
        List.forall₂_same]
      intro a ha
      apply FirstRound.name
      exact hlt _ (List.mem_map_of_mem ha)
  | two =>
      rw [piece_names_two, List.forall₂_map_right_iff, List.forall₂_same]
      intro r _
      exact .pushed r

/-! ## The second round -/

theorem Ok.expandName (h : e.Ok B) (slack : CStr) :
    expandName slack e.text = .ret (e.piece slack).names := by
  have hread := expand_listText h.singleton slack
  rw [listText_singleton] at hread
  rw [Pdsh.expandName, hread]
  simp

theorem Ok.numbersBelow (h : e.Ok B) : NumbersBelow B e.text := by
  have hbelow := numbersBelow_listText h.singleton
  rwa [listText_singleton] at hbelow

/-- A text whose bracket is never closed is rejected. -/
theorem parse_unclosed (slack : CStr) {p body : CStr} (hp : Plain hostlistSep p) (hbody : ']' ∉ body) :
    tokens hostlistSep (p ++ '[' :: body) = [p ++ '[' :: body] ∧
      parsePiece slack (p ++ '[' :: body) = .ret none := by
  constructor
  · apply tokens_unbroken
    refine ⟨by simp, 1 + body.count '[', ?_⟩
    rw [tokenLevel_append, tokenLevel_plain hp, Option.bind_some, tokenLevel, if_neg (by decide),
      if_pos rfl, tokenLevel_inside hbody (by decide)]
    rfl
  · have hopen : strchr '[' (p ++ '[' :: body) = some (p, body) :=
      strchr_eq_some_iff.mpr ⟨rfl, fun hc => (hp _ hc).1 rfl⟩
    rw [parsePiece, hopen]
    simp only [strchr_eq_none_iff.mpr hbody]

theorem expandName_unclosed {p body : CStr} (hp : Plain hostlistSep p) (hbody : ']' ∉ body) :
    expandName slack (p ++ '[' :: body) = .ret [] := by
  obtain ⟨htok, hparse⟩ := parse_unclosed slack hp hbody
  rw [expandName, expand, htok, parsePieces, hparse]
  rfl

theorem numbersBelow_unclosed {p body : CStr} (hp : Plain hostlistSep p) (hbody : ']' ∉ body) :
    NumbersBelow B (p ++ '[' :: body) := by
  obtain ⟨htok, hparse⟩ := parse_unclosed [] hp hbody
  intro tok hmem r hr
  rw [htok, List.mem_singleton] at hmem
  rw [hmem, bracketRanges, hparse] at hr
  simp at hr

/-- A row that fits is left as it is written. -/
theorem FirstRound.eq_text (hx : FirstRound slack r x) (h : r.Row B) (hf : r.Fits) : x = r.text := by
  cases hx with
  | pushed =>
      have hlt : r.text.length < 4096 := by
        cases h with
        | name _ _ hlen => exact Nat.lt_of_lt_of_le hlen (by decide)
        | one => exact hf
      exact List.take_of_length_le (by omega)
  | read p => exact if_pos hf

/-- A row that fits is read as it means. -/
theorem Row.fits (h : r.Row B) (hf : r.Fits) (hx : FirstRound slack r x) :
    NumbersBelow B x ∧ ∃ l, expandName slack x = .ret l ∧ l = r.names := by
  have hnames : (r.piece slack).names = r.names := by
    cases h with
    | name _ _ _ => simp only [piece, curTok, if_pos (show _ < 1023 from hf), Piece.names, names]
    | one _ _ _ hshort =>
        exact piece_names_one fun x hx => Nat.lt_of_lt_of_le (hshort x hx) (by decide)
  rw [hx.eq_text h hf]
  exact ⟨h.ok.numbersBelow, _, h.ok.expandName slack, hnames⟩

/-- What is left of a row that was cut in its suffix has other names. -/
theorem one_names_suffix {p body s s' : CStr} (hbody : BodyOk B body)
    (h : (one p body s').names = (one p body s).names) : s' = s := by
  obtain ⟨a, ha⟩ := List.exists_mem_of_ne_nil _ hbody.texts_ne_nil
  exact List.append_cancel_left (List.map_inj_left.mp h a ha)

/-- What is left of a row that was cut: its suffix is shorter, or its bracket is
not closed any more. -/
theorem take_text {p body s : CStr} (hp : p.length < 4095)
    (hcut : 4096 ≤ (one p body s).text.length) :
    (∃ n < s.length, (one p body s).text.take 4095 = (one p body (s.take n)).text) ∨
      ∃ n, (one p body s).text.take 4095 = p ++ '[' :: body.take n := by
  unfold text at hcut ⊢
  simp only [List.append_assoc, List.cons_append, List.length_append, List.length_cons] at hcut ⊢
  by_cases hclose : p.length + body.length + 2 ≤ 4095
  · left
    refine ⟨4095 - (p.length + body.length + 2), by omega, ?_⟩
    rw [List.take_append, List.take_of_length_le (by omega), List.append_cancel_left_eq]
    rw [show 4095 - p.length = 4094 - p.length + 1 from by omega, List.take_succ_cons, List.take_append,
      List.take_of_length_le (by omega),
      show 4094 - p.length - body.length = 4095 - (p.length + body.length + 2) + 1 from by omega,
      List.take_succ_cons]
  · right
    refine ⟨4094 - p.length, ?_⟩
    rw [List.take_append, List.take_of_length_le (by omega), List.append_cancel_left_eq,
      show 4095 - p.length = 4094 - p.length + 1 from by omega, List.take_succ_cons,
      List.take_append_of_le_length (by omega)]

/-- Any row is read again, as too few names or as others when it does not fit. Behind
`cur_tok` stands a letter here, so that a cut name does not end by chance. -/
theorem Row.reread (h : r.Row B) (hx : FirstRound ['x'] r x) :
    NumbersBelow B x ∧ ∃ l, Pdsh.expandName ['x'] x = .ret l ∧ Short HostExpr.names Fits r l := by
  cases h with
  | @name p hp hne hlen =>
      have hplain : Plain hostlistSep x ∧ x ≠ [] ∧ (1023 ≤ p.length → 1023 ≤ x.length) := by
        cases hx with
        | pushed =>
            have hid : snprintf 4096 (HostExpr.name p).text = p :=
              List.take_of_length_le (show p.length ≤ 4095 by omega)
            rw [hid]
            exact ⟨hp, hne, id⟩
        | read =>
            unfold curTok
            split
            · exact ⟨hp, hne, id⟩
            · refine ⟨?_, by simp, ?_⟩
              · have htake : Plain hostlistSep (p.take 1023) := fun c hc => hp c (List.mem_of_mem_take hc)
                apply htake.append
                simp [Plain, hostlistSep]
              · intro hle
                simp only [List.length_append, List.length_take]
                omega
      obtain ⟨hxp, hxne, hxlen⟩ := hplain
      have hxok : Ok B (.name x) := .name hxp hxne
      refine ⟨hxok.numbersBelow, _, hxok.expandName ['x'], Nat.le_refl 1, ?_⟩
      intro heq
      have hcur : curTok ['x'] x = p := (List.cons.inj heq).1
      show p.length < 1023
      by_contra hlong
      have hlong' := hxlen (by omega)
      rw [curTok, if_neg (by omega)] at hcur
      have hlength := congrArg List.length hcur
      simp only [List.length_append, List.length_take, List.length_singleton] at hlength
      omega
  | @one p body s hp hs hbody hshort =>
      have hok : Ok B (.one p body s) := .one hp hs hbody
      have hlt : ∀ y ∈ (HostExpr.one p body s).names, y.length < 4096 := by
        intro y hy
        exact Nat.lt_of_lt_of_le (hshort y hy) (by decide)
      cases hx with
      | pushed =>
        by_cases hfit : (HostExpr.one p body s).text.length < 4096
        · have hid : snprintf 4096 (HostExpr.one p body s).text = (HostExpr.one p body s).text :=
            List.take_of_length_le (by omega)
          rw [hid]
          refine ⟨hok.numbersBelow, _, hok.expandName ['x'], ?_, fun _ => hfit⟩
          rw [piece_names_one hlt]
        · obtain ⟨a, ha⟩ := List.exists_mem_of_ne_nil _ hbody.texts_ne_nil
          have hpre := hshort (p ++ a ++ s) (List.mem_map_of_mem ha)
          simp only [List.length_append] at hpre
          rcases take_text (by omega) (Nat.not_lt.mp hfit) with ⟨n, hn, htake⟩ | ⟨n, htake⟩
          · have hok' : Ok B (.one p body (s.take n)) :=
              .one hp (fun c hc => hs c (List.mem_of_mem_take hc)) hbody
            have hlt' : ∀ y ∈ (HostExpr.one p body (s.take n)).names, y.length < 4096 := by
              intro y hy
              obtain ⟨b, hb, rfl⟩ := List.mem_map.mp hy
              have hfull := hlt (p ++ b ++ s) (List.mem_map_of_mem hb)
              simp only [List.length_append, List.length_take] at hfull ⊢
              omega
            rw [snprintf, htake]
            refine ⟨hok'.numbersBelow, _, hok'.expandName ['x'], ?_, ?_⟩
            · rw [piece_names_one hlt']
              simp [names]
            · rw [piece_names_one hlt']
              intro heq
              have hsame := congrArg List.length (one_names_suffix hbody heq)
              simp only [List.length_take] at hsame
              omega
          · have hclose : ']' ∉ body.take n := fun hc => hbody.noClose (List.mem_of_mem_take hc)
            rw [snprintf, htake]
            refine ⟨numbersBelow_unclosed hp hclose, [], expandName_unclosed hp hclose, Nat.zero_le _, ?_⟩
            intro heq
            exact absurd heq.symm hok.names_ne_nil

/-! ## The whole expansion -/

variable {rs es : List HostExpr} {hl hl' : Hostlist}

theorem numbersBelow_of_rows {Q : HostExpr → CStr → Prop}
    (h : List.Forall₂ (fun r x => NumbersBelow B x ∧ Q r x) rs hl.names) :
    ∀ x ∈ hl.names, NumbersBelow B x := by
  intro x hx
  obtain ⟨r, -, hr⟩ := exists_of_forall₂ h hx
  exact hr.1

/-- Rows that fit are expanded as they mean. -/
theorem wcollExpand_fits (hB : B ≤ 10 ^ 15) (hsfx : MAX_HOST_SUFFIX.toNat < B) (hw : hl.Wf)
    (hb : hl.Below B) (hrows : ∀ r ∈ rs, r.Row B)
    (hxs : List.Forall₂ (FirstRound slack) rs hl.names) (hsmall : rs.length < 2 ^ 31)
    (hfits : ∀ r ∈ rs, r.Fits) :
    ∃ hl', wcollExpand slack hl = .ret hl' ∧ Appended B hostlistNew (rs.flatMap names) hl' := by
  have hread := ((List.forall₂_and_left _ _).mpr
    ⟨fun r hr => (⟨hrows r hr, hfits r hr⟩ : r.Row B ∧ r.Fits), hxs⟩).imp
      fun r x hr => hr.1.1.fits hr.1.2 hr.2
  have hsmall' : hl.Small := by
    rw [Hostlist.Small, ← hxs.length_eq]
    exact hsmall
  have htake : hl.names.take hl.nhosts.toInt.toNat = hl.names := by
    rw [hw.nhosts_toInt hsmall', Int.toNat_natCast, List.take_length]
  obtain ⟨ls, hls, hq⟩ := expandAll_of_forall₂ (hread.imp fun r x hr => hr.2)
  have hmap : ls = rs.map names := by
    rw [← List.forall₂_eq_eq_eq, List.forall₂_map_right_iff]
    exact hq.flip
  have hrel := wcollExpand_rel slack hB hsfx hw hb (numbersBelow_of_rows hread)
  rw [htake, hls, hmap, ← List.flatMap_def] at hrel
  exact hrel.ret_left

/-- Rows that do not fit are not expanded as they mean, and no more rows are
expanded than the counter says. -/
theorem fits_of_wcollExpand (hB : B ≤ 10 ^ 15) (hsfx : MAX_HOST_SUFFIX.toNat < B) (hw : hl.Wf)
    (hb : hl.Below B) (hrows : ∀ r ∈ rs, r.Row B)
    (hxs : List.Forall₂ (FirstRound ['x']) rs hl.names) (h : wcollExpand ['x'] hl = .ret hl')
    (hnames : hl'.names = rs.flatMap names) : rs.length < 2 ^ 31 ∧ ∀ r ∈ rs, r.Fits := by
  have hread := ((List.forall₂_and_left _ _).mpr ⟨hrows, hxs⟩).imp fun r x hr => hr.1.reread hr.2
  have hne : ∀ r ∈ rs, r.names ≠ [] := fun r hr => (hrows r hr).ok.names_ne_nil
  have hlt := hl.nhosts.toInt_lt
  have htake := List.forall₂_take hl.nhosts.toInt.toNat hread
  obtain ⟨ls, hls, hshort⟩ := expandAll_of_forall₂ (htake.imp fun r x hr => hr.2)
  have hrel := wcollExpand_rel ['x'] hB hsfx hw hb (numbersBelow_of_rows hread)
  rw [hls, h] at hrel
  have heq : ls.flatten = rs.flatMap names := by
    rw [← hnames, (show Appended B hostlistNew ls.flatten hl' from hrel).names, hostlistNew_names,
      List.nil_append]
  obtain ⟨hlen, hall⟩ := take_eq_of_flatten_eq hne hshort heq
  exact ⟨by omega, hall⟩

/-- The list between the rounds. -/
theorem create_firstRound (hB : B ≤ 10 ^ 15) (hsfx : MAX_HOST_SUFFIX.toNat < B) (hok : ListOk B es)
    (hshort : ∀ x ∈ es.flatMap names, x.length < 1024) (slack : CStr) :
    ∃ hl, createExpand slack (listText es) = Option.some <$> wcollExpand slack hl ∧ hl.Wf ∧
      hl.Below B ∧ List.Forall₂ (FirstRound slack) (es.flatMap rows) hl.names := by
  have hM : B ≤ ULONG_MAX.toNat := by
    rw [ULONG_MAX_toNat]
    omega
  have hrel := hostlistCreate_rel slack hM hsfx (numbersBelow_listText hok)
  rw [expand_listText hok slack] at hrel
  obtain ⟨o, hcreate, happ⟩ := hrel.ret_left
  cases happ with
  | @some _ hl happ =>
      refine ⟨hl, ?_, happ.wf, happ.below, ?_⟩
      · rw [createExpand, hcreate]
        simp only [Run.ret_bind]
        cases wcollExpand slack hl <;> rfl
      · rw [happ.names, hostlistNew_names, List.nil_append]
        apply forall₂_flatMap
        intro e he
        apply (hok.ok e he).firstRound
        intro x hx
        exact hshort x (List.mem_flatMap.mpr ⟨e, he, hx⟩)

theorem rows_of_listOk (hok : ListOk B es) (hshort : ∀ x ∈ es.flatMap names, x.length < 1024) :
    ∀ r ∈ es.flatMap rows, r.Row B := by
  intro r hr
  obtain ⟨e, he, hr⟩ := List.mem_flatMap.mp hr
  apply Row.of_mem (hok.ok e he) _ hr
  intro x hx
  exact hshort x (List.mem_flatMap.mpr ⟨e, he, hx⟩)

theorem flatMap_rows : (es.flatMap rows).flatMap names = es.flatMap names := by
  rw [List.flatMap_assoc]
  apply List.flatMap_congr
  intro e _
  exact e.names_eq_rows.symm

/-- An expansion that is the product has had every row whole. -/
theorem fits_of_createExpand (hB : B ≤ 10 ^ 15) (hsfx : MAX_HOST_SUFFIX.toNat < B) (hok : ListOk B es)
    (hshort : ∀ x ∈ es.flatMap names, x.length < 1024)
    (h : createExpand ['x'] (listText es) = .ret (some hl)) (hnames : hl.names = es.flatMap names) :
    (es.flatMap rows).length < 2 ^ 31 ∧ ∀ r ∈ es.flatMap rows, r.Fits := by
  obtain ⟨first, heq, hw, hb, hxs⟩ := create_firstRound hB hsfx hok hshort ['x']
  rw [heq] at h
  obtain ⟨hl', hexp, hsome⟩ := Run.bind_eq_ret_iff.mp h
  cases hsome
  rw [← flatMap_rows] at hnames
  exact fits_of_wcollExpand hB hsfx hw hb (rows_of_listOk hok hshort) hxs hexp hnames

end HostExpr

open HostExpr

/-- The two rounds make the product of each expression in a list exactly when there
are fewer than 2^31 rows and no row is cut between them. A list without brackets is
left alone under the same condition. -/
theorem create_expand_iff {es : List HostExpr} (hok : ListOk (2 ^ 32) es)
    (hshort : ∀ x ∈ es.flatMap names, x.length < 1024) :
    ((∀ slack, ∃ hl, createExpand slack (listText es) = .ret (some hl) ∧
        hl.names = es.flatMap names) ↔
      (es.flatMap rows).length < 2 ^ 31 ∧ ∀ r ∈ es.flatMap rows, r.Fits) ∧
    ∀ hl : Hostlist, hl.Wf → hl.Below (2 ^ 32) →
      (∀ p ∈ hl.names, Plain hostlistSep p ∧ p ≠ [] ∧ p.length < 1024) →
      ((∀ slack, ∃ hl', wcollExpand slack hl = .ret hl' ∧ hl'.names = hl.names) ↔
        hl.Small ∧ ∀ p ∈ hl.names, p.length < 1023) := by
  have hB : 2 ^ 32 ≤ 10 ^ 15 := by decide
  have hsfx : MAX_HOST_SUFFIX.toNat < 2 ^ 32 := by decide
  constructor
  · constructor
    · intro h
      obtain ⟨hl, hexp, hnames⟩ := h ['x']
      exact fits_of_createExpand hB hsfx hok hshort hexp hnames
    · rintro ⟨hsmall, hfits⟩ slack
      obtain ⟨first, heq, hw, hb, hxs⟩ := create_firstRound hB hsfx hok hshort slack
      obtain ⟨hl', hexp, happ⟩ :=
        wcollExpand_fits hB hsfx hw hb (rows_of_listOk hok hshort) hxs hsmall hfits
      refine ⟨hl', by rw [heq, hexp]; rfl, ?_⟩
      rw [happ.names, hostlistNew_names, List.nil_append, flatMap_rows]
  · intro hl hw hb hplain
    have hrows : ∀ r ∈ hl.names.map HostExpr.name, r.Row (2 ^ 32) := by
      intro r hr
      obtain ⟨p, hp, rfl⟩ := List.mem_map.mp hr
      obtain ⟨hpp, hne, hlen⟩ := hplain p hp
      exact .name hpp hne hlen
    have hxs : ∀ slack, List.Forall₂ (FirstRound slack) (hl.names.map HostExpr.name) hl.names := by
      intro slack
      rw [List.forall₂_map_left_iff, List.forall₂_same]
      intro p hp
      exact FirstRound.name (Nat.lt_of_lt_of_le (hplain p hp).2.2 (by decide))
    have hnames : (hl.names.map HostExpr.name).flatMap names = hl.names := by
      rw [List.flatMap_map]
      exact List.flatMap_singleton' hl.names
    have hiff : ((hl.names.map HostExpr.name).length < 2 ^ 31 ∧
        ∀ r ∈ hl.names.map HostExpr.name, r.Fits) ↔ hl.Small ∧ ∀ p ∈ hl.names, p.length < 1023 := by
      rw [List.length_map, List.forall_mem_map]
      exact Iff.rfl
    rw [← hiff]
    constructor
    · intro h
      obtain ⟨hl', hexp, heq⟩ := h ['x']
      rw [← hnames] at heq
      exact fits_of_wcollExpand hB hsfx hw hb hrows (hxs ['x']) hexp heq
    · rintro ⟨hsmall, hfits⟩ slack
      obtain ⟨hl', hexp, happ⟩ := wcollExpand_fits hB hsfx hw hb hrows (hxs slack) hsmall hfits
      refine ⟨hl', hexp, ?_⟩
      rw [happ.names, hostlistNew_names, List.nil_append, hnames]

/-- `foo[1-2]-[0-3]`, the expression of the tests. -/
def fooTwoBrackets : HostExpr := .two "foo".toList "1-2".toList "-".toList "0-3".toList []

theorem fooTwoBrackets_ok : ListOk (2 ^ 32) [fooTwoBrackets] := by
  apply Ok.singleton
  apply Ok.two
  · exact plain_of_all (by decide)
  · exact plain_of_all (by decide)
  · exact plain_of_all rfl
  · exact ⟨⟨_, rfl⟩, by decide, by decide⟩
  · exact ⟨⟨_, rfl⟩, by decide, by decide⟩

theorem create_expand_eight : listText [fooTwoBrackets] = "foo[1-2]-[0-3]".toList ∧
    ∀ slack, ∃ hl, createExpand slack (listText [fooTwoBrackets]) = .ret (some hl) ∧
      hl.names = ["foo1-0", "foo1-1", "foo1-2", "foo1-3", "foo2-0", "foo2-1", "foo2-2",
        "foo2-3"].map String.toList :=
  ⟨by decide, (create_expand_iff fooTwoBrackets_ok (by decide)).1.mpr (by decide)⟩

/-- `[1][1-000…01]`: two brackets for the one host `11`, in more than 4096 bytes. -/
def paddedBound : HostExpr := .two [] ['1'] [] ('1' :: '-' :: pad 4097 1) []

theorem parse_paddedBound :
    parseRangeList ('1' :: '-' :: pad 4097 1) MAX_RANGES = .ret (some [⟨1, 1, 1⟩]) := by
  have hcut : strchr '-' ('1' :: '-' :: pad 4097 1) = some (['1'], pad 4097 1) := by simp [strchr]
  have hlo : strtoul ['1'] = ⟨1, [], false⟩ := by decide
  have hhi : strtoul (pad 4097 1) = ⟨1, [], false⟩ := by
    rw [strtoul_digits (pad_ne_nil _ _) fun c hc => isDigit_pad hc, value_pad]
    rfl
  have hne : pad 4097 1 ≠ [] := pad_ne_nil _ _
  have hsplit : ('1' :: '-' :: pad 4097 1).splitOn ',' = ['1' :: '-' :: pad 4097 1] := by
    apply List.splitOnP_eq_singleton
    intro c hc
    rw [beq_eq_false_iff_ne]
    rintro rfl
    simp only [List.mem_cons] at hc
    rcases hc with hc | hc | hc
    · cases hc
    · cases hc
    · exact absurd (isDigit_pad hc) (by decide)
  have hdash : (pad 4097 1).head? ≠ some '-' := by
    intro hc
    exact absurd (isDigit_pad (List.mem_of_head? hc)) (by decide)
  have hone : parseSingleRange ('1' :: '-' :: pad 4097 1) = .ret ⟨1, 1, 1⟩ := by
    unfold parseSingleRange
    rw [hcut]
    obtain ⟨c, t, hcons⟩ := List.exists_cons_of_ne_nil hne
    rw [hcons] at hhi hdash ⊢
    simpa [hlo, hhi, parseUpperBound, MAX_RANGE] using hdash
  rw [parseRangeList, hsplit, show MAX_RANGES = 10239 + 1 from rfl, parseRangeListLoop, hone]
  rfl

theorem paddedBound_bodyOk : BodyOk (2 ^ 32) ('1' :: '-' :: pad 4097 1) := by
  refine ⟨⟨_, parse_paddedBound⟩, ?_, ?_⟩
  · unfold bodyRanges
    rw [parse_paddedBound]
    simp
  · intro hc
    simp only [List.mem_cons] at hc
    rcases hc with hc | hc | hc
    · cases hc
    · cases hc
    · exact absurd (isDigit_pad hc) (by decide)

theorem paddedBound_ok : ListOk (2 ^ 32) [paddedBound] := by
  apply Ok.singleton
  apply Ok.two
  · exact plain_of_all rfl
  · exact plain_of_all rfl
  · exact plain_of_all rfl
  · exact ⟨⟨_, rfl⟩, by decide, by decide⟩
  · exact paddedBound_bodyOk

theorem paddedBound_names : [paddedBound].flatMap names = [['1', '1']] := by
  have hone : bodyTexts ['1'] = [['1']] := by decide
  have htwo : bodyTexts ('1' :: '-' :: pad 4097 1) = [['1']] := by
    unfold bodyTexts bodyRanges
    rw [parse_paddedBound]
    decide
  simp [paddedBound, names, hone, htwo]

/-- The row `1[1-000…01]` is cut and then rejected, so the host is lost. -/
theorem create_expand_padded_bound :
    (ListOk (2 ^ 32) [paddedBound] ∧ [paddedBound].flatMap names = [['1', '1']]) ∧
      ¬ ∀ slack, ∃ hl, createExpand slack (listText [paddedBound]) = .ret (some hl) ∧
        hl.names = [paddedBound].flatMap names := by
  refine ⟨⟨paddedBound_ok, paddedBound_names⟩, ?_⟩
  intro h
  obtain ⟨hl, hexp, hnames⟩ := h ['x']
  have hshort : ∀ x ∈ [paddedBound].flatMap names, x.length < 1024 := by
    rw [paddedBound_names]
    decide
  obtain ⟨-, hfits⟩ := fits_of_createExpand (by decide) (by decide) paddedBound_ok hshort hexp hnames
  have hmem : HostExpr.one ['1'] ('1' :: '-' :: pad 4097 1) [] ∈ [paddedBound].flatMap rows := by
    have hone : bodyTexts ['1'] = [['1']] := by decide
    simp [paddedBound, rows, hone]
  have hlt : (HostExpr.one ['1'] ('1' :: '-' :: pad 4097 1) []).text.length < 4096 := hfits _ hmem
  have hpad := length_pad 4097 1
  simp only [text, List.length_append, List.length_cons] at hlt
  omega

end Pdsh
