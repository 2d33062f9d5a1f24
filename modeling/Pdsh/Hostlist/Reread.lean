import Pdsh.Hostlist.Order
import Pdsh.Hostlist.Pushes
import Pdsh.Hostlist.RoundTrip
import Pdsh.Hostlist.Truncated

/-!
# Reading one block back

What `hostlist_create` makes of a beginning of the text of a block: the hosts of the block only if
it is the whole text, and that is one token the parser can take (`expands_block_iff`). That nothing
else gives these hosts is a matter of counting: a bracket that is expanded takes its two characters
out of the text, and a separator in front of a token is not in its names.
-/

namespace Pdsh

open Lib Lib.Chunks Lib.Decimal

variable {hr : Hostrange} {more rs : List Hostrange} {s t u tok name slack : CStr}

/-- The text stands for the hosts, whatever the buffer of the parser holds. -/
def Expands (t : CStr) (names : List CStr) : Prop :=
  ∀ slack, ∃ hl, hostlistCreate slack t = .ret (some hl) ∧ hl.names = names

/-! ## What is read -/

/-- A token that is read is a plain one or has a bracket. -/
theorem parsePiece_ret {p : Piece} (h : parsePiece slack tok = .ret (some p)) :
    (NoBracket tok ∧ p = .host (curTok slack tok)) ∨
      ∃ a body q rs, tok = a ++ '[' :: body ++ ']' :: q ∧ '[' ∉ a ∧ ']' ∉ body ∧
        p = if q ≠ [] then .suffixed a rs q else .ranges a rs := by
  unfold parsePiece at h
  split at h
  · rename_i a rest hopen
    obtain ⟨rfl, ha⟩ := strchr_eq_some_iff.mp hopen
    split at h
    · rename_i body q hclose
      obtain ⟨rfl, hbody⟩ := strchr_eq_some_iff.mp hclose
      obtain ⟨nr, -, hmap⟩ := Run.bind_eq_ret_iff.mp h
      simp only [Run.pure_eq, Run.ret.injEq, Option.map_eq_some_iff] at hmap
      obtain ⟨rs, -, rfl⟩ := hmap
      exact .inr ⟨a, body, q, rs, by simp, ha, hbody, rfl⟩
    · cases h
  · rename_i hopen
    split at h
    · cases h
    · rename_i hclose
      cases h
      refine .inl ⟨fun c hc => ⟨?_, ?_⟩, rfl⟩
      · rintro rfl
        exact strchr_eq_none_iff.mp hopen hc
      · rintro rfl
        exact hclose hc

/-- The names of a bracket: the number, between what stands in front of the bracket and behind it. -/
theorem bracket_names {a q : CStr} {rs : List Range} {p : Piece}
    (hp : p = if q ≠ [] then .suffixed a rs q else .ranges a rs) (h : name ∈ p.names) :
    ∃ ds, (∀ c ∈ ds, c.isDigit = true) ∧ name <+: a ++ ds ++ q ∧ (q = [] → name = a ++ ds) := by
  by_cases hq : q = []
  · subst hq
    rw [if_neg (by simp)] at hp
    subst hp
    obtain ⟨r, -, hname⟩ := List.mem_flatMap.mp h
    obtain ⟨n, -, rfl⟩ := List.mem_map.mp hname
    exact ⟨pad r.width n, fun c hc => isDigit_pad hc, by simp, fun _ => rfl⟩
  · rw [if_pos hq] at hp
    subst hp
    obtain ⟨r, -, hname⟩ := List.mem_flatMap.mp h
    obtain ⟨n, -, rfl⟩ := List.mem_map.mp hname
    exact ⟨pad r.width n, fun c hc => isDigit_pad hc, List.take_prefix _ _, fun h => absurd h hq⟩

theorem Piece.pushes_unnumbered (p : Piece) : ∀ r ∈ p.pushes, r.Unnumbered := by
  cases p with
  | host name =>
      intro r hr
      rw [List.mem_singleton.mp hr]
      exact (hostrangeOfHost_wf name).single
  | ranges pfx rs =>
      intro r hr hs
      obtain ⟨x, -, rfl⟩ := List.mem_map.mp hr
      cases hs
  | suffixed pfx rs sfx =>
      intro r hr hs
      obtain ⟨x, -, rfl⟩ := List.mem_map.mp hr
      exact ⟨rfl, rfl⟩

/-- A host of the list that is made comes from a token. -/
theorem create_name {hl : Hostlist} (h : hostlistCreate slack u = .ret (some hl)) (hname : name ∈ hl.names) :
    ∃ tok ∈ tokens hostlistSep u, ∃ p, parsePiece slack tok = .ret (some p) ∧ name ∈ p.names := by
  obtain ⟨ps, hps, -, rfl⟩ := createLoop_some_iff.mp h
  have hsub := @pushRanges_subset hostlistNew (ps.flatMap Piece.pushes) rfl
    (by simp [hostlistNew]) (fun r hr => by
      obtain ⟨p, -, hr⟩ := List.mem_flatMap.mp hr
      exact p.pushes_unnumbered r hr) name hname
  rw [hostlistNew_names, List.flatMap_assoc] at hsub
  obtain ⟨p, hp, hin⟩ := List.mem_flatMap.mp (hsub.resolve_left (List.not_mem_nil))
  rw [p.pushes_names] at hin
  obtain ⟨tok, htok, hparse⟩ := exists_of_forall₂ (parsePieces_some_iff.mp hps) hp
  exact ⟨tok, htok, p, hparse, hin⟩

/-! ## Counting -/

theorem count_digits {c : Char} {ds : CStr} (hd : ∀ x ∈ ds, x.isDigit = true) (hc : c.isDigit = false) :
    ds.count c = 0 := by
  refine List.count_eq_zero_of_not_mem fun h => ?_
  rw [hd c h] at hc
  cases hc

/-- A text that keeps its opening brackets is no name of a bracket in it. -/
theorem bracket_not_whole {a body q ds : CStr} (ha : '[' ∉ a) (hd : ∀ c ∈ ds, c.isDigit = true)
    (hname : name <+: a ++ ds ++ q) (hin : a ++ '[' :: body ++ ']' :: q <:+: t)
    (hsame : t.count '[' = name.count '[') : False := by
  have hless := hname.sublist.count_le '['
  have hmore := hin.sublist.count_le '['
  simp only [List.count_append, List.count_cons, count_digits hd (show ('[' : Char).isDigit = false by decide),
    List.count_eq_zero_of_not_mem ha] at hless hmore
  simp at hmore
  omega

/-- The name of a bracket that is written as a prefix and digits, where the text is that prefix with
one bracket behind it. -/
theorem bracket_whole {before a body q after ds es pfx nums : CStr} (hd : ∀ c ∈ ds, c.isDigit = true)
    (he : ∀ c ∈ es, c.isDigit = true) (hes : es ≠ []) (hnums : NoBracket nums) (ha : '[' ∉ a)
    (hname : pfx ++ es <+: a ++ ds ++ q) (hclosed : q = [] → pfx ++ es = a ++ ds)
    (htext : pfx ++ '[' :: nums ++ [']'] = before ++ (a ++ '[' :: body ++ ']' :: q) ++ after) :
    '[' ∉ pfx ∧ pfx = before ++ a ∧ q = [] ∧ after = [] := by
  have hnoOpen : nums.count '[' = 0 := List.count_eq_zero_of_not_mem fun h => (hnums _ h).1 rfl
  have hnoClose : nums.count ']' = 0 := List.count_eq_zero_of_not_mem fun h => (hnums _ h).2 rfl
  have hclose := congrArg (List.count ']') htext
  have hless := hname.sublist.count_le ']'
  simp only [List.count_append, List.count_cons, List.count_nil, hnoClose,
    count_digits hd (show (']' : Char).isDigit = false by decide),
    count_digits he (show (']' : Char).isDigit = false by decide)] at hclose hless
  simp at hclose hless
  -- the last bracket of the text is the last one of the token
  have hafter : after = [] := by
    by_contra hne
    have hlast := congrArg List.getLast? htext
    rw [List.getLast?_concat, List.getLast?_append_of_ne_nil _ hne] at hlast
    have hpos := List.count_pos_iff.mpr (List.mem_of_getLast? hlast.symm)
    omega
  have hq : q = [] := by
    by_contra hne
    have hlast := congrArg List.getLast? htext
    rw [List.getLast?_concat, hafter, List.append_nil] at hlast
    have hqlast : q.getLast? = some ']' := by
      rw [List.getLast?_append_of_ne_nil _ (by simp), List.getLast?_append_of_ne_nil _ (by simp),
        List.getLast?_cons_of_ne_nil hne] at hlast
      exact hlast.symm
    obtain ⟨q', rfl⟩ : ∃ q', q = q' ++ [']'] := List.getLast?_eq_some_iff.mp hqlast
    rw [← List.append_assoc, List.prefix_concat_iff] at hname
    rcases hname with hname | hname
    · have hdigit := congrArg List.getLast? hname
      rw [List.getLast?_concat, List.getLast?_append_of_ne_nil _ hes] at hdigit
      exact absurd (he _ (List.mem_of_getLast? hdigit)) (by decide)
    · have hfew := hname.sublist.count_le ']'
      simp only [List.count_append, count_digits hd (show (']' : Char).isDigit = false by decide),
        count_digits he (show (']' : Char).isDigit = false by decide)] at hfew
      simp at hclose
      omega
  subst hafter hq
  have hwhole := hclosed rfl
  have hopen := congrArg (List.count '[') hwhole
  simp only [List.count_append, count_digits hd (show ('[' : Char).isDigit = false by decide),
    count_digits he (show ('[' : Char).isDigit = false by decide), List.count_eq_zero_of_not_mem ha] at hopen
  have hpfx : '[' ∉ pfx := List.count_eq_zero.mp (by omega)
  have hall := congrArg (List.count '[') htext
  simp only [List.count_append, List.count_cons, List.count_nil, hnoOpen, List.count_eq_zero_of_not_mem ha,
    List.count_eq_zero_of_not_mem hpfx] at hall
  simp at hall
  have hfront : '[' ∉ before ++ a := by
    rw [List.mem_append, not_or]
    exact ⟨List.count_eq_zero.mp (by omega), ha⟩
  refine ⟨hpfx, ?_, rfl, rfl⟩
  have hcut : strchr '[' (pfx ++ '[' :: nums ++ [']']) = some (pfx, nums ++ [']']) :=
    strchr_eq_some_iff.mpr ⟨by simp, hpfx⟩
  have hcut' : strchr '[' (pfx ++ '[' :: nums ++ [']']) = some (before ++ a, body ++ [']']) :=
    strchr_eq_some_iff.mpr ⟨by rw [htext]; simp, hfront⟩
  rw [hcut, Option.some.injEq, Prod.mk.injEq] at hcut'
  exact hcut'.1

/-! ## Blocks -/

theorem block_member (h : (hr :: more).IsChain fun a b => together a b = true) {x : Hostrange} (hx : x ∈ more) :
    hr.singlehost = false ∧ x.singlehost = false ∧ x.pfx = hr.pfx := by
  have hgroup := groupRest_of_chain h
  exact @groupRest_mem hr x more (by rw [hgroup]; exact hx)

/-- With a bracket all ranges hold numbers behind one prefix. -/
theorem block_numbered (h : (hr :: more).IsChain fun a b => together a b = true)
    (hb : isBracketNeeded hr more.head? = true) : ∀ x ∈ hr :: more, x.singlehost = false ∧ x.pfx = hr.pfx := by
  have hs : hr.singlehost = false := by
    rcases of_decide_eq_true hb with hgt | hin
    · by_contra hs
      have hsingle : hr.singlehost = true := by simpa using hs
      rw [hostrangeCount, hsingle, if_pos rfl] at hgt
      exact absurd hgt (by decide)
    · cases more with
      | nil => simp [hostrangeWithinRange, hostrangePrefixCmp] at hin
      | cons next more => exact (hostrangeWithinRange_iff.mp hin).2.1
  intro x hx
  rcases List.mem_cons.mp hx with rfl | hx
  · exact ⟨hs, rfl⟩
  · exact (block_member h hx).2

/-- Without one there is one range, of one host, or of all numbers. -/
theorem block_single (hw : hr.Wf) (h : (hr :: more).IsChain fun a b => together a b = true)
    (hb : isBracketNeeded hr more.head? = false) :
    more = [] ∧ (hr.lo = hr.hi ∧ hr.names = [blockText (hr :: more)] ∨
      hr.singlehost = false ∧ hr.lo = 0 ∧ hr.hi = ULONG_MAX) := by
  have hmore : more = [] := by
    have hgroup := groupRest_of_not_bracket hb
    rw [groupRest_of_chain h] at hgroup
    exact congrArg Prod.fst hgroup
  subst hmore
  have htext : blockText [hr] = hr.pfx ++ numText hr := by
    rw [blockText, hb]
    rfl
  refine ⟨rfl, ?_⟩
  rw [htext]
  cases hs : hr.singlehost with
  | true =>
      obtain ⟨hlo, hhi⟩ := hw.single hs
      refine .inl ⟨by rw [hlo, hhi], ?_⟩
      rw [Hostrange.names_single hs, numText, if_pos hs, List.append_nil]
  | false =>
      have hle := hw.le
      have hM := ULONG_MAX_toNat
      have hlt := hr.hi.toNat_lt
      have hnot : ¬ hostrangeCount hr > 1 := fun hgt => of_decide_eq_false hb (.inl hgt)
      have hcount : (hostrangeCount hr).toNat = (hr.hi.toNat - hr.lo.toNat + 1) % 2 ^ 64 := by
        rw [hostrangeCount, hs, if_neg Bool.false_ne_true, UInt64.toNat_add,
          UInt64.toNat_sub_of_le _ _ (UInt64.le_iff_toNat_le.mpr hle)]
        rfl
      have hone : (1 : UInt64).toNat = 1 := rfl
      rw [gt_iff_lt, UInt64.lt_iff_toNat_lt, hcount, hone] at hnot
      by_cases heq : hr.lo = hr.hi
      · refine .inl ⟨heq, ?_⟩
        have hself : hr.hi.toNat + 1 - hr.lo.toNat = 1 := by
          rw [heq]
          omega
        have hnlt : ¬ hr.lo < hr.hi := by
          rw [heq, UInt64.lt_iff_toNat_lt]
          exact Nat.lt_irrefl _
        rw [Hostrange.names_block hs, hself, numText, hs, if_neg Bool.false_ne_true, if_neg hnlt, List.append_nil]
        rfl
      · have hne : hr.lo.toNat ≠ hr.hi.toNat := fun h => heq (UInt64.toNat_inj.mp h)
        refine .inr ⟨rfl, UInt64.toNat_inj.mp ?_, UInt64.toNat_inj.mp ?_⟩
        · show hr.lo.toNat = 0
          omega
        · omega

/-- What the parser can take of a block. -/
structure Rereads (hr : Hostrange) (more : List Hostrange) : Prop where
  token : Unbroken hostlistSep (blockText (hr :: more))
  bracket : isBracketNeeded hr more.head? = true →
    '[' ∉ hr.pfx ∧ (hr :: more).length ≤ MAX_RANGES ∧ ∀ x ∈ hr :: more, hostrangeCount x ≤ MAX_RANGE
  plain : isBracketNeeded hr more.head? = false →
    NoBracket (blockText (hr :: more)) ∧ (blockText (hr :: more)).length < 1023 ∧ hr.lo = hr.hi

theorem blockText_bracket (hb : isBracketNeeded hr more.head? = true) :
    blockText (hr :: more) = hr.pfx ++ '[' :: List.intercalate [','] ((hr :: more).map numText) ++ [']'] := by
  rw [blockText, hb]
  rfl

theorem nums_inBracket (xs : List Hostrange) : ∀ text ∈ xs.map numText, InBracket text := by
  intro text htext c hc
  obtain ⟨x, -, rfl⟩ := List.mem_map.mp htext
  exact numText_ne hc

/-- A bracket of a block is read as its ranges are. -/
theorem parse_block_iff (hw : ∀ x ∈ hr :: more, x.Wf) (hchain : (hr :: more).IsChain fun a b => together a b = true)
    (hb : isBracketNeeded hr more.head? = true) (hopen : '[' ∉ hr.pfx) {p : Piece} :
    parsePiece slack (blockText (hr :: more)) = .ret (some p) ↔
      (hr :: more).length ≤ MAX_RANGES ∧ (∀ x ∈ hr :: more, hostrangeCount x ≤ MAX_RANGE) ∧
        p = .ranges hr.pfx ((hr :: more).map reread) := by
  have hnumbered := block_numbered hchain hb
  have hread := @parseRanges_counted (hr :: more) fun x hx => ⟨hw x hx, (hnumbered x hx).1⟩
  rw [blockText_bracket hb, parsePiece_list_iff hopen (by simp) (nums_inBracket _), List.length_map]
  constructor
  · rintro ⟨hlen, rs, hall, rfl⟩
    obtain ⟨hcounts, rfl⟩ := hread.mp hall
    exact ⟨hlen, hcounts, by simp⟩
  · rintro ⟨hlen, hcounts, rfl⟩
    exact ⟨hlen, _, hread.mpr ⟨hcounts, rfl⟩, by simp⟩

/-! ## Only the whole text -/

theorem Plain.of_unbroken (h : Unbroken hostlistSep tok) (hno : NoBracket tok) : Plain hostlistSep tok := by
  obtain ⟨l, hlevel⟩ := h.level
  have hall : ∀ (s : CStr), NoBracket s → tokenLevel hostlistSep 0 s = some l → ∀ c ∈ s, hostlistSep c = false := by
    intro s
    induction s with
    | nil => simp
    | cons c s ih =>
        intro hs hlevel
        obtain ⟨hc, hrest⟩ := List.forall_mem_cons.mp hs
        rw [tokenLevel, if_neg hc.1, if_neg hc.2] at hlevel
        split at hlevel
        · cases hlevel
        · rename_i hsep
          refine List.forall_mem_cons.mpr ⟨by simpa using hsep, ih hrest hlevel⟩
  exact fun c hc => ⟨(hno c hc).1, (hno c hc).2, hall tok hno hlevel c hc⟩

/-- A beginning of an unbroken text is one token. -/
theorem tokens_of_prefix {l : Int} (ht : tokenLevel hostlistSep 0 t = some l) (hu : u <+: t)
    (htok : tok ∈ tokens hostlistSep u) : tok = u := by
  obtain ⟨rest, rfl⟩ := hu
  have hne : u ≠ [] := by
    rintro rfl
    cases htok
  rw [tokenLevel_append] at ht
  obtain ⟨l', hlevel, -⟩ := Option.bind_eq_some_iff.mp ht
  rw [tokens_unbroken ⟨hne, l', hlevel⟩, List.mem_singleton] at htok
  exact htok

/-- A slack that is longer than a name is not in it. -/
theorem curTok_eq (h : curTok slack tok = name) (hlong : name.length < slack.length) :
    tok = name ∧ tok.length < 1023 := by
  unfold curTok at h
  split at h
  · exact ⟨h, by assumption⟩
  · have hlen := congrArg List.length h
    rw [List.length_append] at hlen
    omega

/-- The token of the first host of a block with a bracket. -/
theorem bracket_token (hw : hr.Wf) (hchain : (hr :: more).IsChain fun a b => together a b = true)
    (hb : isBracketNeeded hr more.head? = true) (hu : u <+: blockText (hr :: more))
    (hname : hr.names.head? = some name) (hslack : name.length < slack.length)
    (htok : tok ∈ tokens hostlistSep u) {p : Piece} (hp : parsePiece slack tok = .ret (some p)) (hin : name ∈ p.names) :
    tok = blockText (hr :: more) ∧ '[' ∉ hr.pfx := by
  obtain ⟨hs, -⟩ := block_numbered hchain hb hr (List.mem_cons_self)
  have hwritten : name = hr.pfx ++ pad hr.width hr.lo.toNat := by
    rw [Hostrange.names_eq_cons hw, List.head?_cons, hs, if_neg Bool.false_ne_true] at hname
    exact (Option.some.inj hname).symm
  have hnums := noBracket_intercalate (nums_inBracket (hr :: more))
  have htext := blockText_bracket hb
  obtain ⟨before, after, hsplit, hsep, hunbroken⟩ := token_spec htok
  rcases parsePiece_ret hp with ⟨hno, rfl⟩ | ⟨a, body, q, rs, htokeq, ha, hbody, hpiece⟩
  · -- a plain token is too short
    obtain ⟨rfl, -⟩ := curTok_eq (List.mem_singleton.mp hin).symm hslack
    have hplain := Plain.of_unbroken hunbroken hno
    have hpfx : Plain hostlistSep hr.pfx := by
      intro c hc
      exact hplain c (by rw [hwritten]; exact List.mem_append_left _ hc)
    have hlevel : tokenLevel hostlistSep 0 (blockText (hr :: more)) = some 0 := by
      rw [htext, tokenLevel_segment (Int.le_refl 0) hpfx (fun h => (hnums _ h).2 rfl) (by decide),
        List.count_eq_zero_of_not_mem fun h => (hnums _ h).1 rfl]
      rfl
    have hwhole := tokens_of_prefix hlevel hu htok
    have hshort : u <+: hr.pfx := by
      have hopened : hr.pfx ++ ['['] <+: blockText (hr :: more) := by
        rw [htext]
        exact ⟨List.intercalate [','] ((hr :: more).map numText) ++ [']'], by simp⟩
      have hclosed : '[' ∉ u := by
        rw [← hwhole]
        exact fun h => (hno _ h).1 rfl
      rcases List.prefix_or_prefix_of_prefix hu hopened with h | h
      · rcases List.prefix_concat_iff.mp h with rfl | h
        · exact absurd (by simp) hclosed
        · exact h
      · exact absurd (h.subset (by simp)) hclosed
    have hle := hshort.length_le
    rw [← hwhole, hwritten, List.length_append] at hle
    have hpos := List.length_pos_iff.mpr (pad_ne_nil hr.width hr.lo.toNat)
    omega
  · obtain ⟨ds, hd, hpre, hclosed⟩ := bracket_names hpiece hin
    obtain ⟨rest, hrest⟩ := hu
    rw [hsplit, htokeq, List.append_assoc _ after rest, htext] at hrest
    rw [hwritten] at hpre hclosed
    obtain ⟨hopen, hfront, rfl, hafter⟩ := bracket_whole hd (fun c hc => isDigit_pad hc) (pad_ne_nil _ _) hnums ha
      hpre hclosed hrest.symm
    -- a separator in front of the token would be in the name
    have hbefore : before = [] := by
      by_contra hne
      obtain ⟨c, hc, hcsep⟩ := hsep hne
      have hcount := congrArg (List.countP hostlistSep) (hclosed rfl)
      have hdigits : ∀ {ds : CStr}, (∀ c ∈ ds, c.isDigit = true) → ds.countP hostlistSep = 0 := by
        intro ds hd
        exact List.countP_eq_zero.mpr fun x hx => by simp [(plain_digits hd x hx).2.2]
      rw [hfront, List.countP_append, List.countP_append, List.countP_append, hdigits hd,
        hdigits fun c hc => isDigit_pad hc] at hcount
      have hpos := List.countP_pos_iff.mpr ⟨c, hc, hcsep⟩
      omega
    rw [hbefore, List.nil_append] at hrest
    rw [htokeq, htext, ← hrest, hafter, List.append_nil]
    exact ⟨rfl, hopen⟩

/-- The token of the host of a block without one. -/
theorem single_token (hone : hr.names = [t]) (hslack : t.length < slack.length)
    (htok : tok ∈ tokens hostlistSep u) (hu : u <+: t) {p : Piece} (hp : parsePiece slack tok = .ret (some p))
    (hin : t ∈ p.names) : tok = t ∧ NoBracket t ∧ t.length < 1023 := by
  obtain ⟨before, after, hsplit, -, -⟩ := token_spec htok
  rcases parsePiece_ret hp with ⟨hno, rfl⟩ | ⟨a, body, q, rs, rfl, ha, hbody, hpiece⟩
  · obtain ⟨rfl, hlen⟩ := curTok_eq (List.mem_singleton.mp hin).symm hslack
    exact ⟨rfl, hno, hlen⟩
  · exfalso
    obtain ⟨ds, hd, hpre, -⟩ := bracket_names hpiece hin
    have hwithin : a ++ '[' :: body ++ ']' :: q <:+: u := ⟨before, after, hsplit.symm⟩
    exact bracket_not_whole ha hd hpre (hwithin.trans hu.isInfix) rfl

/-- The range of all numbers is never read. -/
theorem full_not_read (hs : hr.singlehost = false) (hlo : hr.lo = 0) (hhi : hr.hi = ULONG_MAX)
    (hb : isBracketNeeded hr more.head? = false) (hu : u <+: blockText (hr :: more))
    (hread : ∀ name ∈ hr.names, ∃ slack, name.length < slack.length ∧ ∃ tok ∈ tokens hostlistSep u,
      ∃ p, parsePiece slack tok = .ret (some p) ∧ name ∈ p.names) : False := by
  have hlt : hr.lo < hr.hi := by
    rw [hlo, hhi]
    decide
  have htext : blockText (hr :: more) =
      hr.pfx ++ (pad hr.width hr.lo.toNat ++ '-' :: pad hr.width hr.hi.toNat) := by
    rw [blockText, hb]
    show hr.pfx ++ numText hr = _
    rw [numText, hs, if_neg Bool.false_ne_true, if_pos hlt]
  have hnames : ∀ k, k < 2 → hr.pfx ++ pad hr.width k ∈ hr.names := by
    intro k hk
    rw [Hostrange.names_block hs, mem_block, hlo, hhi]
    exact ⟨k, Nat.zero_le k, by rw [ULONG_MAX_toNat]; omega, rfl⟩
  -- each of the first two hosts is the whole of what is read
  have hwhole : ∀ k, k < 2 → hr.pfx ++ pad hr.width k = u := by
    intro k hk
    obtain ⟨slack, hslack, tok, htok, p, hp, hin⟩ := hread _ (hnames k hk)
    obtain ⟨before, after, hsplit, -, hunbroken⟩ := token_spec htok
    rcases parsePiece_ret hp with ⟨hno, rfl⟩ | ⟨a, body, q, rs, rfl, ha, hbody, hpiece⟩
    · obtain ⟨rfl, -⟩ := curTok_eq (List.mem_singleton.mp hin).symm hslack
      have hpfx : Plain hostlistSep hr.pfx := fun c hc =>
        Plain.of_unbroken hunbroken hno c (List.mem_append_left _ hc)
      have hlow : Plain hostlistSep (pad hr.width hr.lo.toNat) := plain_digits fun c hc => isDigit_pad hc
      have hhigh : Plain hostlistSep (pad hr.width hr.hi.toNat) := plain_digits fun c hc => isDigit_pad hc
      have hdash : Plain hostlistSep ['-'] := plain_of_all rfl
      have hall : Plain hostlistSep (blockText (hr :: more)) := by
        rw [htext]
        exact hpfx.append (hlow.append (hdash.append hhigh))
      exact tokens_of_prefix (tokenLevel_plain hall 0) hu htok
    · exfalso
      obtain ⟨ds, hd, hpre, -⟩ := bracket_names hpiece hin
      have hwithin : a ++ '[' :: body ++ ']' :: q <:+: u := ⟨before, after, hsplit.symm⟩
      refine bracket_not_whole ha hd hpre (hwithin.trans hu.isInfix) ?_
      have hdigits : ∀ n, (pad hr.width n).count '[' = 0 := fun n =>
        count_digits (fun c hc => isDigit_pad hc) (by decide)
      rw [htext]
      simp [List.count_append, hdigits]
  have hsame := (hwhole 0 (by decide)).trans (hwhole 1 (by decide)).symm
  have hzero := (pad_eq_pad_iff.mp (List.append_cancel_left hsame)).1
  omega

/-! ## Ranges that stay apart -/

/-- The second range goes on where the first one ends, and their widths go together. -/
def Joins (a b : Hostrange) : Prop := a.hi = b.lo - 1 ∧ Combines a b

instance (a b : Hostrange) : Decidable (Joins a b) := inferInstanceAs (Decidable (_ ∧ _))

theorem Hostrange.Rewidth.joins {a b a' b' : Hostrange} (ha : a.Rewidth a') (hb : b.Rewidth b') :
    Joins a' b' ↔ Joins a b := by
  unfold Joins
  rw [ha.combines hb, ha.bounds.2, hb.bounds.1]

theorem hostrangeCopy_numbered {r : Hostrange} (h : r.singlehost = false) : hostrangeCopy r = r := by
  cases r
  cases h
  rfl

/-- A push onto a list that ends with a range of the same prefix. -/
theorem push_together {hl : Hostlist} {t r : Hostrange} (hn : hl.nranges = hl.hr.length)
    (hlast : hl.hr.getLast? = some t) (htr : together t r = true) :
    (¬ Joins t r ∧ (hostlistPushRange hl r).1.hr = hl.hr ++ [r] ∧ (hostlistPushRange hl r).1.nranges = hl.nranges + 1) ∨
      (Joins t r ∧ (hostlistPushRange hl r).1.nranges = hl.nranges) := by
  obtain ⟨hpfx, hs, hs'⟩ := together_iff.mp htr
  have hpos : hl.nranges > 0 := by
    rw [hn]
    exact List.length_pos_iff.mpr fun h => by rw [h] at hlast; cases hlast
  have htail : hostlistTail hl r = if t.hi = r.lo - 1 then some t else none := by
    unfold hostlistTail
    rw [if_pos hpos, hn, ← List.getLast?_eq_getElem?, hlast, Option.filter_some]
    have hcmp : hostrangePrefixCmp (some t) (some r) = 0 :=
      hostrangePrefixCmp_eq_zero_iff.mpr ⟨hpfx, by rw [hs, hs']⟩
    simp [hcmp]
  unfold hostlistPushRange
  rw [htail]
  by_cases hjoin : Joins t r
  · obtain ⟨pair, hpair⟩ := Option.isSome_iff_exists.mp hjoin.2
    refine .inr ⟨hjoin, ?_⟩
    rw [if_pos hjoin.1, Option.bind_some, hpair]
  · refine .inl ⟨hjoin, ?_⟩
    have hnone : (if t.hi = r.lo - 1 then some t else none).bind (hostrangeWidthCombine · r) = none := by
      split
      · rename_i hhi
        have hno : ¬ Combines t r := fun h => hjoin ⟨hhi, h⟩
        rw [Option.bind_some]
        exact Option.not_isSome_iff_eq_none.mp hno
      · rfl
    rw [hnone]
    simp only
    rw [hn, storeRange_length, hostrangeCopy_numbered hs']
    exact ⟨rfl, trivial⟩

/-- All ranges are pushed as they are exactly when no two neighbours join. -/
theorem pushRanges_together {hl : Hostlist} {t : Hostrange} (hn : hl.nranges = hl.hr.length)
    (hlast : hl.hr.getLast? = some t) (hchain : (t :: rs).IsChain fun a b => together a b = true) :
    (pushRanges hl rs).nranges ≤ hl.nranges + rs.length ∧
      ((pushRanges hl rs).nranges = hl.nranges + rs.length ↔ (t :: rs).IsChain fun a b => ¬ Joins a b) ∧
      (((t :: rs).IsChain fun a b => ¬ Joins a b) → (pushRanges hl rs).hr = hl.hr ++ rs) := by
  have hless : ∀ (rs : List Hostrange) (hl : Hostlist), (pushRanges hl rs).nranges ≤ hl.nranges + rs.length := by
    intro rs
    induction rs with
    | nil => exact fun _ => Nat.le_refl _
    | cons r rs ih =>
        intro hl
        have hone : (hostlistPushRange hl r).1.nranges ≤ hl.nranges + 1 := by
          unfold hostlistPushRange
          split
          · exact Nat.le_succ _
          · exact Nat.le_refl _
        have hrest := ih (hostlistPushRange hl r).1
        rw [List.length_cons]
        show (pushRanges (hostlistPushRange hl r).1 rs).nranges ≤ _
        omega
  refine ⟨hless rs hl, ?_⟩
  induction rs generalizing hl t with
  | nil => exact ⟨iff_of_true rfl (List.isChain_singleton t), fun _ => (List.append_nil _).symm⟩
  | cons r rs ih =>
      obtain ⟨htr, hrest⟩ := List.isChain_cons_cons.mp hchain
      show ((pushRanges (hostlistPushRange hl r).1 rs).nranges = _ ↔ _) ∧
        (_ → (pushRanges (hostlistPushRange hl r).1 rs).hr = _)
      rw [List.isChain_cons_cons, List.length_cons]
      rcases push_together hn hlast htr with ⟨hno, hhr, hcount⟩ | ⟨hjoin, hcount⟩
      · obtain ⟨hiff, hranges⟩ := @ih (hostlistPushRange hl r).1 r (by rw [hcount, hhr, List.length_append, hn]; rfl)
          (by rw [hhr, List.getLast?_concat]) hrest
        rw [hcount] at hiff
        refine ⟨⟨fun h => ⟨hno, hiff.mp (by omega)⟩, fun h => ?_⟩, fun h => ?_⟩
        · have hall := hiff.mpr h.2
          omega
        · rw [hranges h.2, hhr, List.append_assoc]
          rfl
      · have hfew := hless rs (hostlistPushRange hl r).1
        rw [hcount] at hfew
        refine ⟨iff_of_false (by omega) fun h => h.1 hjoin, fun h => absurd hjoin h.1⟩

/-- A block pushed onto an empty list. -/
theorem pushRanges_block (hchain : (hr :: more).IsChain fun a b => together a b = true) :
    (pushRanges hostlistNew (hr :: more)).nranges ≤ (hr :: more).length ∧
      ((pushRanges hostlistNew (hr :: more)).nranges = (hr :: more).length ↔
        (hr :: more).IsChain fun a b => ¬ Joins a b) ∧
      (((hr :: more).IsChain fun a b => ¬ Joins a b) →
        (pushRanges hostlistNew (hr :: more)).hr = hostrangeCopy hr :: more) := by
  have hfirst : (hostlistPushRange hostlistNew hr).1.hr = [hostrangeCopy hr] ∧
      (hostlistPushRange hostlistNew hr).1.nranges = 1 := ⟨rfl, rfl⟩
  cases more with
  | nil => exact ⟨Nat.le_refl _, iff_of_true rfl (List.isChain_singleton hr), fun _ => rfl⟩
  | cons next more =>
      have hs := (together_iff.mp (List.isChain_cons_cons.mp hchain).1).2.1
      rw [hostrangeCopy_numbered hs] at hfirst ⊢
      have hall := @pushRanges_together (next :: more) (hostlistPushRange hostlistNew hr).1 hr (by rw [hfirst.1, hfirst.2]; rfl)
        (by rw [hfirst.1]; rfl) hchain
      rw [hfirst.1, hfirst.2, Nat.add_comm] at hall
      exact hall

/-! ## Reading a block back -/

theorem reread_rewidth {x : Hostrange} :
    x.Rewidth { x with width := (reread x).width } := by
  refine ⟨_, rfl, ?_⟩
  show padding (pad x.width x.lo.toNat).length x.lo.toNat = _
  rw [length_pad]
  unfold padding
  omega

theorem reread_joins {pfx : CStr} {a b : Hostrange} :
    Joins (hostrangeCreate pfx a.lo a.hi (reread a).width) (hostrangeCreate pfx b.lo b.hi (reread b).width) ↔
      Joins a b := by
  rw [← Hostrange.Rewidth.joins (@reread_rewidth a) (@reread_rewidth b)]
  unfold Joins Combines hostrangeWidthCombine
  rw [Option.isSome_map, Option.isSome_map]
  rfl

/-- The list of one token. -/
theorem create_token {p : Piece} (ht : Unbroken hostlistSep t) (hp : parsePiece slack t = .ret (some p))
    (hend : p.endless = false) : hostlistCreate slack t = .ret (some (pushRanges hostlistNew p.pushes)) := by
  refine createLoop_some_iff.mpr ⟨[p], ?_, by simpa using hend, by rw [List.flatMap_singleton]⟩
  rw [tokens_unbroken ht]
  exact parsePieces_some_iff.mpr (.cons hp .nil)

theorem names_pushRanges_block (hchain : (hr :: more).IsChain fun a b => together a b = true)
    (hapart : (hr :: more).IsChain fun a b => ¬ Joins a b) :
    (pushRanges hostlistNew (hr :: more)).names = (hr :: more).flatMap Hostrange.names := by
  rw [Hostlist.names, (pushRanges_block hchain).2.2 hapart, List.flatMap_cons, List.flatMap_cons, hostrangeCopy_names]

/-- A block of which no two neighbours join is read back from its text, and from no other beginning of
it, exactly when the parser can take it. -/
theorem expands_block_iff (hw : ∀ x ∈ hr :: more, x.Wf) (hchain : (hr :: more).IsChain fun a b => together a b = true)
    (hapart : (hr :: more).IsChain fun a b => ¬ Joins a b) (hu : u <+: blockText (hr :: more)) :
    Expands u ((hr :: more).flatMap Hostrange.names) ↔ u = blockText (hr :: more) ∧ Rereads hr more := by
  have hwf := hw hr List.mem_cons_self
  constructor
  · intro h
    have hread : ∀ name ∈ hr.names, ∃ slack, name.length < slack.length ∧ ∃ tok ∈ tokens hostlistSep u,
        ∃ p, parsePiece slack tok = .ret (some p) ∧ name ∈ p.names := by
      intro name hname
      obtain ⟨hl, hcreate, hnames⟩ := h (List.replicate (name.length + 1) 'x')
      refine ⟨List.replicate (name.length + 1) 'x', by simp, create_name hcreate ?_⟩
      rw [hnames, List.flatMap_cons]
      exact List.mem_append_left _ hname
    have hfound : ∀ tok ∈ tokens hostlistSep u, tok = blockText (hr :: more) →
        u = blockText (hr :: more) ∧ Unbroken hostlistSep (blockText (hr :: more)) := by
      intro tok htok heq
      obtain ⟨before, after, hsplit, -, hunbroken⟩ := token_spec htok
      rw [heq] at hsplit hunbroken
      have hwithin : blockText (hr :: more) <:+: u := ⟨before, after, hsplit.symm⟩
      exact ⟨hu.eq_of_length (Nat.le_antisymm hu.length_le hwithin.length_le), hunbroken⟩
    cases hb : isBracketNeeded hr more.head? with
    | true =>
        have hhead : hr.names.head? = some (hr.pfx ++ if hr.singlehost then [] else pad hr.width hr.lo.toNat) := by
          rw [Hostrange.names_eq_cons hwf, List.head?_cons]
        obtain ⟨slack, hslack, tok, htok, p, hp, hin⟩ := hread _ (List.mem_of_head? hhead)
        obtain ⟨heq, hopen⟩ := bracket_token hwf hchain hb hu hhead hslack htok hp hin
        obtain ⟨hall, hunbroken⟩ := hfound tok htok heq
        rw [heq, parse_block_iff hw hchain hb hopen] at hp
        refine ⟨hall, hunbroken, fun _ => ⟨hopen, hp.1, hp.2.1⟩, fun hno => ?_⟩
        rw [hb] at hno
        cases hno
    | false =>
        obtain ⟨hmore, hone⟩ := block_single hwf hchain hb
        rcases hone with ⟨hbounds, hone⟩ | ⟨hs, hlo, hhi⟩
        · obtain ⟨slack, hslack, tok, htok, p, hp, hin⟩ := hread _ (by rw [hone]; exact List.mem_singleton_self _)
          obtain ⟨heq, hno, hlen⟩ := single_token hone hslack htok hu hp hin
          obtain ⟨hall, hunbroken⟩ := hfound tok htok heq
          refine ⟨hall, hunbroken, fun hyes => ?_, fun _ => ⟨hno, hlen, hbounds⟩⟩
          rw [hb] at hyes
          cases hyes
        · exact absurd hread (fun hread => full_not_read hs hlo hhi hb hu hread)
  · rintro ⟨rfl, hreads⟩ slack
    cases hb : isBracketNeeded hr more.head? with
    | true =>
        obtain ⟨hopen, hlen, hcounts⟩ := hreads.bracket hb
        have hnumbered := block_numbered hchain hb
        have hparse := (@parse_block_iff hr more slack hw hchain hb hopen _).mpr ⟨hlen, hcounts, rfl⟩
        refine ⟨_, create_token hreads.token hparse rfl, ?_⟩
        have hpushes : (Piece.ranges hr.pfx ((hr :: more).map reread)).pushes =
            (hr :: more).map fun x => hostrangeCreate hr.pfx x.lo x.hi (reread x).width := by
          rw [Piece.pushes, List.map_map]
          rfl
        have hsame := List.isChain_map_of_isChain (S := fun a b => together a b = true)
          (fun x => hostrangeCreate hr.pfx x.lo x.hi (reread x).width)
          (fun a b _ => together_iff.mpr ⟨rfl, rfl, rfl⟩) hchain
        have hstill := List.isChain_map_of_isChain (S := fun a b => ¬ Joins a b)
          (fun x => hostrangeCreate hr.pfx x.lo x.hi (reread x).width)
          (fun a b h => mt reread_joins.mp h) hapart
        rw [List.map_cons] at hsame hstill
        have hall : (pushRanges hostlistNew (Piece.ranges hr.pfx ((hr :: more).map reread)).pushes).names =
            (Piece.ranges hr.pfx ((hr :: more).map reread)).pushes.flatMap Hostrange.names := by
          rw [hpushes]
          exact names_pushRanges_block hsame hstill
        rw [hall, Piece.pushes_names, reread_names hnumbered]
    | false =>
        obtain ⟨hno, hlen, hbounds⟩ := hreads.plain hb
        obtain ⟨rfl, hone⟩ := block_single hwf hchain hb
        have hnames : hr.names = [blockText [hr]] := by
          rcases hone with ⟨-, hone⟩ | ⟨-, hlo, hhi⟩
          · exact hone
          · rw [hlo, hhi] at hbounds
            exact absurd hbounds (by decide)
        refine ⟨_, create_token hreads.token (parsePiece_plain hno) rfl, ?_⟩
        rw [Piece.pushes, names_pushRanges_block (List.isChain_singleton _) (List.isChain_singleton _),
          List.flatMap_singleton, List.flatMap_singleton, hostrangeOfHost_names, hnames, curTok, if_pos hlen]

end Pdsh
