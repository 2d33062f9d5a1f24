import Pdsh.Hostlist.Printed
import Pdsh.Hostlist.Pushes

/-!
# Reading back what was printed

`hostlist_create` reads the text `hostlist_ranged_string` printed. The limits of
the parser are the only obstacle: printing may put more than `MAX_RANGE` hosts
into one range, more than `MAX_RANGES` ranges into one bracket, and a host of
1023 characters or more into the text, none of which comes back. Within these
limits every list of plain names does (`ranged_string_round_trip_iff`).
-/

namespace Pdsh

open Lib Lib.Chunks Lib.Decimal Lib.Memory

variable {hl : Hostlist} {hr : Hostrange} {B : Nat}

/-! ## Names are not empty -/

theorem nextTok_ne_nil {sep : Char → Bool} {str tok rest : CStr}
    (h : nextTok sep str = some (tok, rest)) : tok ≠ [] := by
  unfold nextTok at h
  split at h
  · cases h
  · rename_i c s hdrop
    have hsep : sep c = false := by
      have hhead := List.head?_dropWhile_not sep str
      rw [hdrop] at hhead
      simpa using hhead
    simp only [Option.some.injEq, Prod.mk.injEq] at h
    rw [← h.1, nextTokLoop, if_pos (.inr (by simp [hsep]))]
    exact List.cons_ne_nil _ _

theorem tokens_ne_nil {sep : Char → Bool} {str tok : CStr} (h : tok ∈ tokens sep str) :
    tok ≠ [] := by
  unfold tokens at h
  generalize str.length = fuel at h
  induction fuel generalizing str with
  | zero => simp [tokensLoop] at h
  | succ fuel ih =>
      rw [tokensLoop] at h
      split at h
      · simp at h
      · rename_i tok' rest hnext
        rcases List.mem_cons.mp h with rfl | h
        · exact nextTok_ne_nil hnext
        · exact ih h

theorem parsePiece_names_ne_nil {slack tok : CStr} {p : Piece} (hne : tok ≠ [])
    (h : parsePiece slack tok = .ret (some p)) : [] ∉ p.names := by
  have hpad : ∀ w n, pad w n ≠ [] := pad_ne_nil
  cases p with
  | host name =>
      unfold parsePiece at h
      split at h
      · split at h
        · obtain ⟨nr, -, hmap⟩ := Run.bind_eq_ret_iff.mp h
          simp only [Run.pure_eq, Run.ret.injEq, Option.map_eq_some_iff] at hmap
          obtain ⟨rs, -, hite⟩ := hmap
          split at hite <;> cases hite
        · cases h
      · split at h
        · cases h
        · cases h
          simp only [Piece.names, List.mem_singleton]
          unfold curTok
          split
          · exact fun heq => hne heq.symm
          · intro heq
            have hlen := congrArg List.length heq
            rw [List.length_nil, List.length_append, List.length_take] at hlen
            omega
  | ranges pfx rs =>
      simp only [Piece.names, List.mem_flatMap, List.mem_map, List.append_eq_nil_iff, not_exists,
        not_and]
      exact fun r _ n _ _ hnil => hpad _ _ hnil
  | suffixed pfx rs sfx =>
      simp only [Piece.names, List.mem_flatMap, List.mem_map, not_exists, not_and]
      intro r _ n _ hnil
      have hlen := congrArg List.length hnil
      have hpos := List.length_pos_iff.mpr (hpad r.width n)
      rw [snprintf, List.length_take, List.length_append, List.length_append, List.length_nil] at hlen
      omega

theorem hostlistCreate_ne_nil {slack str : CStr} (h : hostlistCreate slack str = .ret (some hl)) :
    [] ∉ hl.names := by
  obtain ⟨ps, hps, hw, rfl⟩ := hostlistCreate_pushed h
  intro hnil
  have hsub := pushRanges_subset rfl (fun t ht => absurd ht List.not_mem_nil) (fun r hr => (hw r hr).single) [] hnil
  rw [hostlistNew_names] at hsub
  rcases hsub with hnone | hpushed
  · exact absurd hnone List.not_mem_nil
  · rw [List.flatMap_assoc, List.mem_flatMap] at hpushed
    obtain ⟨p, hp, hmem⟩ := hpushed
    rw [p.pushes_names] at hmem
    obtain ⟨tok, htok, hparse⟩ := exists_of_forall₂ (parsePieces_some_iff.mp hps) hp
    exact parsePiece_names_ne_nil (tokens_ne_nil htok) hparse hmem

theorem Built.names_ne_nil (hb : Built B hl) : [] ∉ hl.names := by
  induction hb with
  | create _ h => exact hostlistCreate_ne_nil h
  | push hb _ h ih =>
      rcases hostlistPush_pushed h with heq | ⟨new, hnew, heq⟩
      · rw [heq]
        exact ih
      · obtain ⟨hn, hkind⟩ := hb.ranges
        obtain ⟨-, hkind'⟩ := (Built.create (numbersBelow_all _) hnew).ranges
        rw [heq]
        intro hnil
        rcases pushRanges_subset hn hkind (fun r hr => hkind' r (List.mem_of_mem_take hr)) [] hnil with h | h
        · exact ih h
        · obtain ⟨r, hr, hname⟩ := List.mem_flatMap.mp h
          exact hostlistCreate_ne_nil hnew (List.mem_flatMap.mpr ⟨r, List.mem_of_mem_take hr, hname⟩)

/-! ## Groups -/

/-- The ranges of a group. -/
def groupRanges (g : Bool × Hostrange × List Hostrange) : List Hostrange := g.2.1 :: g.2.2

/-- A group as it is in a list: one range without a bracket, of one name; or
ranges of numbers behind one prefix. -/
structure IsGroup (g : Bool × Hostrange × List Hostrange) : Prop where
  single : g.1 = false → g.2.2 = [] ∧ g.2.1.names = [groupText g.1 g.2.1 g.2.2]
  block : g.1 = true → ∀ x ∈ groupRanges g, x.singlehost = false ∧ x.pfx = g.2.1.pfx

theorem groupRest_append (hr : Hostrange) (rest : List Hostrange) :
    (groupRest hr rest).1 ++ (groupRest hr rest).2 = rest := by
  induction rest generalizing hr with
  | nil => rfl
  | cons next rest ih =>
      rw [groupRest]
      split
      · simp [ih next]
      · rfl

theorem groupRest_mem {hr x : Hostrange} {rest : List Hostrange} (h : x ∈ (groupRest hr rest).1) :
    hr.singlehost = false ∧ x.singlehost = false ∧ x.pfx = hr.pfx := by
  induction rest generalizing hr with
  | nil => simp [groupRest] at h
  | cons next rest ih =>
      rw [groupRest] at h
      split at h
      · rename_i hin
        obtain ⟨hpfx, hs, hs'⟩ := hostrangeWithinRange_iff.mp hin
        rcases List.mem_cons.mp h with rfl | h
        · exact ⟨hs', hs, hpfx⟩
        · obtain ⟨-, hx, hxp⟩ := ih h
          exact ⟨hs', hx, hxp.trans hpfx⟩
      · simp at h

theorem isGroup_of_ranges {rest : List Hostrange} (hw : hr.Wf)
    (hmax : hr.hi.toNat < ULONG_MAX.toNat) :
    IsGroup (isBracketNeeded hr rest.head?, hr, (groupRest hr rest).1) := by
  have hcount := hostrangeCount_toNat hw (hw.length_lt hmax)
  have hle := hw.le
  have h1 : (1 : UInt64).toNat = 1 := rfl
  constructor
  · intro hb
    simp only at hb
    have hgroup := groupRest_of_not_bracket hb
    refine ⟨by rw [hgroup], ?_⟩
    have hnot : ¬ hostrangeCount hr > 1 := fun hgt => of_decide_eq_false hb (.inl hgt)
    rw [gt_iff_lt, UInt64.lt_iff_toNat_lt, hcount, h1] at hnot
    rw [hb]
    simp only [groupText, Bool.false_eq_true, if_false, numText]
    cases hs : hr.singlehost with
    | true => simp [Hostrange.names_single hs]
    | false =>
        rw [Hostrange.names_block hs, length_block] at hnot
        have heq : hr.hi.toNat + 1 - hr.lo.toNat = 1 := by omega
        have hnlt : ¬ hr.lo < hr.hi := by
          rw [UInt64.lt_iff_toNat_lt]
          omega
        rw [Hostrange.names_block hs, heq]
        simp [block_succ, hnlt]
  · intro hb x hx
    -- a bracket is for more than one number, or for a range that another one follows
    have hs : hr.singlehost = false := by
      rcases of_decide_eq_true hb with hgt | hin
      · by_contra hs
        have hsingle : hr.singlehost = true := by simpa using hs
        simp [hostrangeCount, hsingle] at hgt
      · cases rest with
        | nil => simp [hostrangeWithinRange, hostrangePrefixCmp] at hin
        | cons next rest => exact (hostrangeWithinRange_iff.mp hin).2.1
    rcases List.mem_cons.mp hx with rfl | hx
    · exact ⟨hs, rfl⟩
    · exact (groupRest_mem hx).2

/-- The groups of a list are groups, and together they are its ranges. -/
theorem groupsLoop_spec {fuel : Nat} {ranges : List Hostrange} (hfuel : ranges.length < fuel)
    (hw : ∀ x ∈ ranges, x.Wf) (hb : ∀ x ∈ ranges, x.hi.toNat < ULONG_MAX.toNat) :
    (∀ g ∈ groupsLoop fuel ranges, IsGroup g) ∧
      (groupsLoop fuel ranges).flatMap groupRanges = ranges := by
  induction fuel generalizing ranges with
  | zero => omega
  | succ fuel ih =>
      cases ranges with
      | nil => exact ⟨by simp [groupsLoop], rfl⟩
      | cons hr rest =>
          have hless := groupRest_length hr rest
          have happ := groupRest_append hr rest
          have hsub : ∀ x ∈ (groupRest hr rest).2, x ∈ hr :: rest := by
            intro x hx
            rw [← happ]
            simp [hx]
          have hfuel' : (groupRest hr rest).2.length < fuel := by
            rw [List.length_cons] at hfuel
            omega
          obtain ⟨hgroups, hall⟩ := ih hfuel'
            (fun x hx => hw x (hsub x hx)) (fun x hx => hb x (hsub x hx))
          rw [groupsLoop]
          refine ⟨fun g hg => ?_, ?_⟩
          · rcases List.mem_cons.mp hg with rfl | hg
            · exact isGroup_of_ranges (hw hr (by simp)) (hb hr (by simp))
            · exact hgroups g hg
          · rw [List.flatMap_cons, hall, groupRanges, List.cons_append]
            simp only [happ]

/-! ## Reading a range -/

/-- A range of the list as it is read back. -/
def reread (hr : Hostrange) : Range := ⟨hr.lo, hr.hi, (pad hr.width hr.lo.toNat).length⟩

/-- The names of a range of numbers that may be printed: the range holds numbers,
and ends below `ULONG_MAX`. -/
structure Numbered (hr : Hostrange) : Prop where
  wf : hr.Wf
  single : hr.singlehost = false
  max : hr.hi.toNat < ULONG_MAX.toNat

theorem strtoul_pad {w : Nat} {n : UInt64} : strtoul (pad w n.toNat) = ⟨n, [], false⟩ := by
  have hlt := n.toNat_lt
  have hM := ULONG_MAX_toNat
  rw [strtoul_digits (pad_ne_nil _ _) fun c hc => isDigit_pad hc, value_pad, if_pos (by omega)]
  simp

theorem dash_not_mem_pad (w n : Nat) : '-' ∉ pad w n :=
  fun h => absurd (isDigit_pad h) (by decide)

theorem parseSingleRange_counted {x : Hostrange} (hw : x.Wf) (hs : x.singlehost = false) :
    parseSingleRange (numText x) =
      if hostrangeCount x > MAX_RANGE then .exit (.tooManyHosts (numText x)) else .ret (reread x) := by
  have hle := hw.le
  have hnotlt : ¬ x.lo > x.hi := by
    rw [gt_iff_lt, UInt64.lt_iff_toNat_lt]
    omega
  have hcount : hostrangeCount x = x.hi - x.lo + 1 := by rw [hostrangeCount, hs, if_neg Bool.false_ne_true]
  have hne : ([] : CStr) ≠ pad x.width x.lo.toNat := (pad_ne_nil _ _).symm
  unfold parseSingleRange numText
  rw [hs, hcount]
  simp only [Bool.false_eq_true, if_false]
  by_cases hlt : x.lo < x.hi
  · -- two numbers, with the dash between them
    have hcut : strchr '-' (pad x.width x.lo.toNat ++ '-' :: pad x.width x.hi.toNat) =
        some (pad x.width x.lo.toNat, pad x.width x.hi.toNat) :=
      strchr_eq_some_iff.mpr ⟨rfl, dash_not_mem_pad _ _⟩
    have hhead : (pad x.width x.hi.toNat).head? ≠ some '-' :=
      fun h => dash_not_mem_pad _ _ (List.mem_of_head? h)
    have hupper : parseUpperBound x.lo [] (some (pad x.width x.hi.toNat)) = some x.hi := by
      obtain ⟨c, s, hs⟩ := List.exists_cons_of_ne_nil (pad_ne_nil x.width x.hi.toNat)
      have hstr := strtoul_pad (w := x.width) (n := x.hi)
      rw [hs] at hstr ⊢
      simp [parseUpperBound, hstr]
    simp only [hlt, if_true, hcut, Option.map_some, Option.getD_some, Option.any_some,
      decide_eq_true_eq, hhead, if_false, strtoul_pad, hne, hupper, hnotlt]
    rfl
  · -- one number
    have heq : x.lo = x.hi := by
      rw [UInt64.lt_iff_toNat_lt] at hlt
      exact UInt64.toNat_inj.mp (by omega)
    have hcut : strchr '-' (pad x.width x.lo.toNat) = none :=
      strchr_eq_none_iff.mpr (dash_not_mem_pad _ _)
    simp only [hlt, if_false, List.append_nil, hcut, Option.map_none, Option.getD_none,
      Option.any_none, Bool.false_eq_true, strtoul_pad, hne, parseUpperBound, ne_eq,
      not_true_eq_false]
    rw [reread, ← heq, if_neg (fun hgt => hnotlt (heq ▸ hgt))]

theorem parseRanges_counted {xs : List Hostrange} (hxs : ∀ x ∈ xs, x.Wf ∧ x.singlehost = false) {rs : List Range} :
    List.Forall₂ (fun str r => parseSingleRange str = .ret r) (xs.map numText) rs ↔
      (∀ x ∈ xs, hostrangeCount x ≤ MAX_RANGE) ∧ rs = xs.map reread := by
  induction xs generalizing rs with
  | nil => simp
  | cons x xs ih =>
      have ih' := @ih fun y hy => hxs y (List.mem_cons_of_mem _ hy)
      obtain ⟨hw, hs⟩ := hxs x (by simp)
      rw [List.map_cons, List.forall₂_cons_left_iff, parseSingleRange_counted hw hs, List.forall_mem_cons]
      by_cases hmany : hostrangeCount x > MAX_RANGE
      · simp [hmany, UInt64.not_le.mpr hmany]
      · simp only [hmany, if_false, Run.ret.injEq, ih']
        constructor
        · rintro ⟨r, rs', rfl, ⟨hall, rfl⟩, rfl⟩
          exact ⟨⟨UInt64.not_lt.mp hmany, hall⟩, rfl⟩
        · rintro ⟨⟨-, hall⟩, rfl⟩
          exact ⟨reread x, xs.map reread, rfl, ⟨hall, rfl⟩, rfl⟩

theorem Numbered.count_le_iff {x : Hostrange} (hx : Numbered x) :
    hostrangeCount x ≤ MAX_RANGE ↔ x.names.length ≤ MAX_RANGE.toNat := by
  rw [UInt64.le_iff_toNat_le, hostrangeCount_toNat hx.wf (hx.wf.length_lt hx.max)]

theorem parseRanges_numTexts {xs : List Hostrange} (hxs : ∀ x ∈ xs, Numbered x) {rs : List Range} :
    List.Forall₂ (fun str r => parseSingleRange str = .ret r) (xs.map numText) rs ↔
      (∀ x ∈ xs, x.names.length ≤ MAX_RANGE.toNat) ∧ rs = xs.map reread := by
  rw [parseRanges_counted fun x hx => ⟨(hxs x hx).wf, (hxs x hx).single⟩]
  refine and_congr_left fun _ => forall₂_congr fun x hx => ?_
  exact (hxs x hx).count_le_iff

/-- A range prints the same at the width it is read back with. -/
theorem reread_names {pfx : CStr} {xs : List Hostrange}
    (hxs : ∀ x ∈ xs, x.singlehost = false ∧ x.pfx = pfx) :
    (Piece.ranges pfx (xs.map reread)).names = xs.flatMap Hostrange.names := by
  induction xs with
  | nil => rfl
  | cons x xs ih =>
      obtain ⟨hs, hpfx⟩ := hxs x (by simp)
      have hrest := ih fun y hy => hxs y (List.mem_cons_of_mem _ hy)
      rw [Piece.names] at hrest ⊢
      rw [List.map_cons, List.flatMap_cons, hrest, List.flatMap_cons, Hostrange.names_block hs,
        hpfx]
      congr 1
      refine block_congr (w := (pad x.width x.lo.toNat).length) ?_
      show padding (pad x.width x.lo.toNat).length x.lo.toNat = padding x.width x.lo.toNat
      rw [length_pad]
      unfold padding
      omega

/-! ## Reading a group -/

/-- A group of ranges of a list whose names are plain. -/
structure PlainGroup (g : Bool × Hostrange × List Hostrange) : Prop extends IsGroup g where
  ranges : ∀ x ∈ groupRanges g, x.Wf ∧ x.hi.toNat < ULONG_MAX.toNat
  names : ∀ x ∈ groupRanges g, ∀ name ∈ x.names, name ≠ [] ∧ Plain hostlistSep name

/-- What the parser can take of a group. -/
structure GroupFits (g : Bool × Hostrange × List Hostrange) : Prop where
  ranges : ∀ x ∈ groupRanges g, x.names.length ≤ MAX_RANGE.toNat
  bracket : g.2.2.length < MAX_RANGES
  host : g.1 = false → (groupText g.1 g.2.1 g.2.2).length < 1023

theorem numText_chars {x : Hostrange} {c : Char} (h : c ∈ numText x) : c.isDigit ∨ c = '-' := by
  unfold numText at h
  split at h
  · simp at h
  · rcases List.mem_append.mp h with h | h
    · exact .inl (isDigit_pad h)
    · split at h
      · rcases List.mem_cons.mp h with rfl | h
        · exact .inr rfl
        · exact .inl (isDigit_pad h)
      · simp at h

theorem numText_ne {x : Hostrange} {c : Char} (h : c ∈ numText x) :
    c ≠ ',' ∧ c ≠ '[' ∧ c ≠ ']' := by
  rcases numText_chars h with hd | rfl
  · refine ⟨?_, ?_, ?_⟩ <;> rintro rfl <;> exact absurd hd (by decide)
  · decide

/-- Between the brackets of a group there is no bracket. -/
theorem noBracket_nums (xs : List Hostrange) :
    NoBracket (List.intercalate [','] (xs.map numText)) := by
  induction xs with
  | nil => simp [NoBracket]
  | cons x xs ih =>
      have hx : NoBracket (numText x) := fun c hc => (numText_ne hc).2
      cases xs with
      | nil => simpa using hx
      | cons y ys =>
          rw [List.map_cons, List.map_cons, List.intercalate_cons_cons, ← List.map_cons]
          refine (hx.append ?_).append ih
          simp [NoBracket]

theorem PlainGroup.pfx_plain {g : Bool × Hostrange × List Hostrange} (hg : PlainGroup g) :
    Plain hostlistSep g.2.1.pfx := by
  have hmem : g.2.1 ∈ groupRanges g := List.mem_cons_self
  have hcons := Hostrange.names_eq_cons (hg.ranges _ hmem).1
  intro c hc
  have hname := (hg.names g.2.1 hmem _ (by rw [hcons]; exact List.mem_cons_self)).2
  exact hname c (List.mem_append_left _ hc)

theorem groupText_bracket {g : Bool × Hostrange × List Hostrange} (hb : g.1 = true) :
    groupText g.1 g.2.1 g.2.2 =
      g.2.1.pfx ++ '[' :: List.intercalate [','] ((groupRanges g).map numText) ++ ']' :: [] := by
  rw [groupText, hb]
  rfl

/-- The text of a group is one token. -/
theorem PlainGroup.closed {g : Bool × Hostrange × List Hostrange} (hg : PlainGroup g) :
    Closed hostlistSep (groupText g.1 g.2.1 g.2.2) := by
  cases hb : g.1 with
  | true =>
      rw [← hb, groupText_bracket hb]
      have hopen := fun h => (noBracket_nums (groupRanges g) _ h).1 rfl
      have hclose := fun h => (noBracket_nums (groupRanges g) _ h).2 rfl
      refine ⟨by simp, ?_⟩
      rw [tokenLevel_segment (Int.le_refl 0) hg.pfx_plain hclose (by decide),
        List.count_eq_zero_of_not_mem hopen]
      rfl
  | false =>
      obtain ⟨-, hone⟩ := hg.single hb
      rw [← hb]
      obtain ⟨hne, hplain⟩ := hg.names g.2.1 List.mem_cons_self (groupText g.1 g.2.1 g.2.2)
        (by rw [hone]; simp)
      exact hplain.closed hne

theorem PlainGroup.numbered {g : Bool × Hostrange × List Hostrange} (hg : PlainGroup g)
    (hb : g.1 = true) : ∀ x ∈ groupRanges g, Numbered x :=
  fun x hx => ⟨(hg.ranges x hx).1, (hg.block hb x hx).1, (hg.ranges x hx).2⟩

/-- Reading the text of a group with a bracket. -/
theorem PlainGroup.parse_bracket {g : Bool × Hostrange × List Hostrange} (hg : PlainGroup g)
    (hb : g.1 = true) {slack : CStr} {p : Piece} :
    parsePiece slack (groupText g.1 g.2.1 g.2.2) = .ret (some p) ↔
      GroupFits g ∧ p = .ranges g.2.1.pfx ((groupRanges g).map reread) := by
  have hopen : '[' ∉ g.2.1.pfx := fun h => (hg.pfx_plain _ h).1 rfl
  have htexts : ∀ text ∈ (groupRanges g).map numText, InBracket text := by
    intro text htext c hc
    obtain ⟨x, -, rfl⟩ := List.mem_map.mp htext
    exact numText_ne hc
  rw [groupText_bracket hb, parsePiece_list_iff hopen (by simp [groupRanges]) htexts, List.length_map]
  constructor
  · rintro ⟨hlen, rs, hall, rfl⟩
    obtain ⟨hfits, rfl⟩ := (parseRanges_numTexts (hg.numbered hb)).mp hall
    refine ⟨⟨hfits, ?_, fun hf => by rw [hb] at hf; cases hf⟩, by simp⟩
    simpa [groupRanges] using hlen
  · rintro ⟨hfits, rfl⟩
    refine ⟨by simpa [groupRanges] using hfits.bracket, (groupRanges g).map reread, ?_, by simp⟩
    exact (parseRanges_numTexts (hg.numbered hb)).mpr ⟨hfits.ranges, rfl⟩

/-- The text of a group is read back, whatever the buffer of the parser holds,
exactly when the group fits the parser. -/
theorem PlainGroup.reads_iff {g : Bool × Hostrange × List Hostrange} (hg : PlainGroup g) :
    (∀ slack, ∃ p, parsePiece slack (groupText g.1 g.2.1 g.2.2) = .ret (some p) ∧
      p.names = (groupRanges g).flatMap Hostrange.names) ↔ GroupFits g := by
  cases hb : g.1 with
  | true =>
      rw [← hb]
      constructor
      · intro h
        obtain ⟨p, hp, -⟩ := h []
        exact ((hg.parse_bracket hb).mp hp).1
      · intro hfits slack
        exact ⟨_, (hg.parse_bracket hb).mpr ⟨hfits, rfl⟩, reread_names (hg.block hb)⟩
  | false =>
      rw [← hb]
      obtain ⟨hmore, hone⟩ := hg.single hb
      have hranges : groupRanges g = [g.2.1] := by rw [groupRanges, hmore]
      have hnames : (groupRanges g).flatMap Hostrange.names = [groupText g.1 g.2.1 g.2.2] := by
        rw [hranges, List.flatMap_singleton, hone]
      have hplain := (hg.names g.2.1 List.mem_cons_self (groupText g.1 g.2.1 g.2.2)
        (by rw [hone]; simp)).2
      have hparse : ∀ slack, parsePiece slack (groupText g.1 g.2.1 g.2.2) =
          .ret (some (.host (curTok slack (groupText g.1 g.2.1 g.2.2)))) :=
        fun slack => parsePiece_plain hplain.noBracket
      rw [hnames]
      constructor
      · intro h
        refine ⟨fun x hx => ?_, by rw [hmore]; decide, fun _ => ?_⟩
        · rw [hranges, List.mem_singleton] at hx
          rw [hx, hone]
          show 1 ≤ MAX_RANGE.toNat
          decide
        · -- a buffer with one more character behind it gives another name
          by_contra hlong
          have hread : ∀ slack, curTok slack (groupText g.1 g.2.1 g.2.2) =
              groupText g.1 g.2.1 g.2.2 := by
            intro slack
            obtain ⟨p, hp, hpn⟩ := h slack
            rw [hparse] at hp
            cases hp
            simpa [Piece.names] using hpn
          have h0 := hread []
          have h1 := hread ['x']
          rw [curTok, if_neg hlong] at h0 h1
          rw [List.append_nil] at h0
          rw [h0] at h1
          have hlen := congrArg List.length h1
          rw [List.length_append] at hlen
          simp at hlen
      · intro hfits slack
        refine ⟨_, hparse slack, ?_⟩
        rw [curTok, if_pos (hfits.host hb)]
        rfl

/-- What is read of a group has as many names as the group. -/
theorem PlainGroup.length_eq {g : Bool × Hostrange × List Hostrange} (hg : PlainGroup g)
    {slack : CStr} {p : Piece} (hp : parsePiece slack (groupText g.1 g.2.1 g.2.2) = .ret (some p)) :
    p.names.length = ((groupRanges g).flatMap Hostrange.names).length := by
  cases hb : g.1 with
  | true =>
      obtain ⟨-, rfl⟩ := (hg.parse_bracket hb).mp hp
      rw [reread_names (hg.block hb)]
  | false =>
      obtain ⟨hmore, hone⟩ := hg.single hb
      have hplain := (hg.names g.2.1 List.mem_cons_self (groupText g.1 g.2.1 g.2.2)
        (by rw [hone]; simp)).2
      rw [parsePiece_plain hplain.noBracket] at hp
      cases hp
      have hranges : groupRanges g = [g.2.1] := by rw [groupRanges, hmore]
      rw [hranges, List.flatMap_singleton, hone]
      rfl

/-! ## Reading a list -/

/-- Reading a list of texts gives a list of names exactly when each text gives its
part, if each gives as many names as its part has. -/
theorem parsePieces_map_iff {γ : Type} {slack : CStr} {text : γ → CStr} {names : γ → List CStr}
    {l : List γ} (hlen : ∀ g ∈ l, ∀ p, parsePiece slack (text g) = .ret (some p) →
      p.names.length = (names g).length) :
    (∃ ps, parsePieces slack (l.map text) = .ret (some ps) ∧
        ps.flatMap Piece.names = l.flatMap names) ↔
      ∀ g ∈ l, ∃ p, parsePiece slack (text g) = .ret (some p) ∧ p.names = names g := by
  induction l with
  | nil => simp [parsePieces]
  | cons g l ih =>
      have ih' := ih fun x hx => hlen x (List.mem_cons_of_mem _ hx)
      constructor
      · rintro ⟨ps, hps, hnames⟩
        rw [List.map_cons, parsePieces_some_iff, List.forall₂_cons_left_iff] at hps
        obtain ⟨p, ps', hp, hps', rfl⟩ := hps
        rw [List.flatMap_cons, List.flatMap_cons] at hnames
        obtain ⟨hfirst, hrest⟩ := List.append_inj hnames (hlen g (by simp) p hp)
        intro x hx
        rcases List.mem_cons.mp hx with rfl | hx
        · exact ⟨p, hp, hfirst⟩
        · exact ih'.mp ⟨ps', parsePieces_some_iff.mpr hps', hrest⟩ x hx
      · intro h
        obtain ⟨p, hp, hpn⟩ := h g (by simp)
        obtain ⟨ps, hps, hpsn⟩ := ih'.mpr fun x hx => h x (List.mem_cons_of_mem _ hx)
        refine ⟨p :: ps, ?_, by rw [List.flatMap_cons, List.flatMap_cons, hpn, hpsn]⟩
        rw [List.map_cons, parsePieces_some_iff]
        exact List.Forall₂.cons hp (parsePieces_some_iff.mp hps)

/-- A list whose text can be read back. -/
def Hostlist.Reparses (hl : Hostlist) : Prop := ∀ g ∈ hl.groups, GroupFits g

/-- A list of plain names, as printing needs it. -/
structure PlainList (hl : Hostlist) : Prop where
  nranges : hl.nranges = hl.hr.length
  ranges : ∀ hr ∈ hl.hr, hr.Wf
  below : hl.Below ULONG_MAX.toNat
  names : ∀ name ∈ hl.names, name ≠ [] ∧ Plain hostlistSep name

theorem PlainList.groups (hp : PlainList hl) :
    (∀ g ∈ hl.groups, PlainGroup g) ∧ hl.groups.flatMap groupRanges = hl.hr := by
  obtain ⟨hgroups, hall⟩ := groupsLoop_spec (Nat.lt_succ_self _) hp.ranges hp.below
  refine ⟨fun g hg => ⟨hgroups g hg, ?_, ?_⟩, hall⟩
  · intro x hx
    have hmem : x ∈ hl.hr := by
      rw [← hall, List.mem_flatMap]
      exact ⟨g, hg, hx⟩
    exact ⟨hp.ranges x hmem, hp.below x hmem⟩
  · intro x hx name hname
    refine hp.names name ?_
    rw [Hostlist.names, ← hall, List.mem_flatMap]
    exact ⟨x, List.mem_flatMap.mpr ⟨g, hg, hx⟩, hname⟩

theorem PlainList.names_eq (hp : PlainList hl) :
    hl.names = hl.groups.flatMap fun g => (groupRanges g).flatMap Hostrange.names := by
  rw [Hostlist.names]
  conv_lhs => rw [← hp.groups.2]
  exact List.flatMap_assoc

theorem PlainList.tokens (hp : PlainList hl) :
    tokens hostlistSep (rangedText hl.groups) =
      hl.groups.map fun g => groupText g.1 g.2.1 g.2.2 := by
  refine tokens_join (by decide) fun tok htok => ?_
  obtain ⟨g, hg, rfl⟩ := List.mem_map.mp htok
  exact (hp.groups.1 g hg).closed

theorem PlainList.numbersBelow (hp : PlainList hl) :
    NumbersBelow ULONG_MAX.toNat (rangedText hl.groups) := by
  intro tok htok r hr
  rw [hp.tokens] at htok
  obtain ⟨g, hg, rfl⟩ := List.mem_map.mp htok
  have hgroup := hp.groups.1 g hg
  unfold bracketRanges at hr
  split at hr
  · rename_i p hparse
    cases hb : g.1 with
    | true =>
        obtain ⟨-, rfl⟩ := (hgroup.parse_bracket hb).mp hparse
        obtain ⟨x, hx, rfl⟩ := List.mem_map.mp hr
        exact (hgroup.ranges x hx).2
    | false =>
        obtain ⟨-, hone⟩ := hgroup.single hb
        have hplain := (hgroup.names g.2.1 List.mem_cons_self (groupText g.1 g.2.1 g.2.2)
          (by rw [hone]; simp)).2
        rw [parsePiece_plain hplain.noBracket] at hparse
        cases hparse
        simp [Piece.bracket] at hr
  · simp at hr

/-- The names of a text are those of the list exactly when each group is read
back. -/
theorem PlainList.expand_iff (hp : PlainList hl) (slack : CStr) :
    expand slack (rangedText hl.groups) = .ret (some hl.names) ↔
      ∀ g ∈ hl.groups, ∃ p, parsePiece slack (groupText g.1 g.2.1 g.2.2) = .ret (some p) ∧
        p.names = (groupRanges g).flatMap Hostrange.names := by
  rw [← parsePieces_map_iff fun g hg p hparse => (hp.groups.1 g hg).length_eq hparse,
    ← hp.names_eq, ← hp.tokens]
  unfold expand
  constructor
  · intro h
    obtain ⟨pieces, hps, hmap⟩ := Run.bind_eq_ret_iff.mp h
    simp only [Run.pure_eq, Run.ret.injEq, Option.map_eq_some_iff] at hmap
    obtain ⟨ps, rfl, hnames⟩ := hmap
    exact ⟨ps, hps, hnames⟩
  · rintro ⟨ps, hps, hnames⟩
    rw [hps, ← hnames]
    rfl

/-- Reading the text back, with whatever the buffer of the parser holds, gives
the names of the list exactly when the list keeps the limits of the parser. -/
theorem PlainList.reads_iff (hp : PlainList hl) :
    (∀ slack, ∃ hl', hostlistCreate slack (rangedText hl.groups) = .ret (some hl') ∧
      hl'.names = hl.names) ↔ hl.Reparses := by
  -- with numbers below `ULONG_MAX` the list that is made holds what the text stands for
  have hcreate : ∀ slack, (∃ hl', hostlistCreate slack (rangedText hl.groups) = .ret (some hl') ∧
      hl'.names = hl.names) ↔ expand slack (rangedText hl.groups) = .ret (some hl.names) := by
    intro slack
    have hrel := hostlistCreate_rel slack (Nat.le_refl _) (by decide) hp.numbersBelow
    constructor
    · rintro ⟨hl', hret, hnames⟩
      rw [hret] at hrel
      obtain ⟨names, hexp, hrel⟩ := hrel.ret_right
      cases hrel with
      | some happ =>
          rw [hexp, ← hnames, happ.names]
          rfl
    · intro hexp
      rw [hexp] at hrel
      obtain ⟨hl', hret, hrel⟩ := hrel.ret_left
      cases hrel with
      | some happ => exact ⟨_, hret, by rw [happ.names]; rfl⟩
  have hgroups := hp.groups.1
  constructor
  · intro h g hg
    exact (hgroups g hg).reads_iff.mp fun slack =>
      (hp.expand_iff slack).mp ((hcreate slack).mp (h slack)) g hg
  · intro h slack
    exact (hcreate slack).mpr ((hp.expand_iff slack).mpr fun g hg =>
      (hgroups g hg).reads_iff.mpr (h g hg) slack)

/-- The characters a name must not have. -/
def notInNames : CStr := "[], \t\n".toList

/-- No push has joined a range from 0 to one that ends in `ULONG_MAX`, and none can. -/
def Hostlist.Unwrapped (hl : Hostlist) : Prop :=
  ∀ hr ∈ hl.hr, hr.lo.toNat ≤ hr.hi.toNat ∧ hr.hi.toNat < ULONG_MAX.toNat

instance (hl : Hostlist) : Decidable hl.Unwrapped := inferInstanceAs (Decidable (∀ hr ∈ hl.hr, _))

theorem Built.plain (hb : Built B hl) (hu : hl.Unwrapped)
    (hclean : ∀ name ∈ hl.names, ∀ c ∈ name, c ∉ notInNames) : PlainList hl := by
  obtain ⟨hn, hkind⟩ := hb.ranges
  refine ⟨hn, fun hr hmem => ⟨(hu hr hmem).1, hkind hr hmem⟩, fun hr hmem => (hu hr hmem).2,
    fun name hname => ⟨?_, fun c hc => ?_⟩⟩
  · rintro rfl
    exact hb.names_ne_nil hname
  · have hnot := hclean name hname c hc
    have hchars : notInNames = ['[', ']', ',', ' ', '\t', '\n'] := by decide
    rw [hchars] at hnot
    simp only [List.mem_cons, List.not_mem_nil, or_false, not_or] at hnot
    exact ⟨hnot.1, hnot.2.1, by simp [hostlistSep, hnot]⟩

/-- The text of the list is read back as the same names, whatever the buffer of the parser holds. -/
def RoundTrips (hl : Hostlist) (n : Nat) (buf : Mem) : Prop :=
  ∀ slack, ∃ hl', hostlistCreate slack (text (hostlistRangedString hl n buf).1 0
    (hostlistRangedString hl n buf).2.toNat) = .ret (some hl') ∧ hl'.names = hl.names

/-- A list made by `hostlist_create` and `hostlist_push` out of plain names, none of whose ranges reaches
`ULONG_MAX`, is printed untruncated and read back as the same names exactly when no range of it
is larger than the parser takes, no bracket longer, and no host outside brackets
as long as the buffer of a token. The lengths up to `n` are `int`s. -/
theorem ranged_string_round_trip_iff (hb : Built (2 ^ 64) hl) (hu : hl.Unwrapped)
    (hclean : ∀ name ∈ hl.names, ∀ c ∈ name, c ∉ notInNames) {n : Nat} (_hint : n < 2 ^ 31) {buf : Mem}
    (h : (hostlistRangedString hl n buf).2 ≠ -1) : RoundTrips hl n buf ↔ hl.Reparses := by
  have hp := hb.plain hu hclean
  have hne : ∀ g ∈ hl.groups, groupText g.1 g.2.1 g.2.2 ≠ [] :=
    fun g hg => (hp.groups.1 g hg).closed.ne_nil
  obtain ⟨hret, htext, -⟩ := hostlistRangedString_spec hp.nranges hne h
  unfold RoundTrips
  rw [hret, Int.toNat_natCast, htext]
  exact hp.reads_iff

/-- The list of `n[1-16384]` and, pushed behind it, `n[16385-16386]`: one range. -/
def mergedRange : Hostlist := ⟨[⟨['n'], 1, 16386, 1, false⟩], 1, 16386⟩

theorem mergedRange_built : Built (2 ^ 64) mergedRange := by
  have hfirst : Built (2 ^ 64) ⟨[⟨['n'], 1, 16384, 1, false⟩], 1, 16384⟩ :=
    @Built.create _ [] "n[1-16384]".toList _ (numbersBelow_all _) (by decide)
  exact @Built.push _ [] "n[16385-16386]".toList _ (2, mergedRange) hfirst (numbersBelow_all _) (by decide)

/-- The list of `n[18446744073709551615]` and, pushed behind it, `n[0]`: 0 is taken for the next number. -/
def wrappedRange : Hostlist := ⟨[⟨['n'], ULONG_MAX, 0, 1, false⟩], 1, 2⟩

/-- Numbers behind a plain name are plain names. -/
theorem block_clean {pfx : CStr} {w s n : Nat} (hpfx : ∀ c ∈ pfx, c ∉ notInNames) :
    ∀ name ∈ block pfx w s n, ∀ c ∈ name, c ∉ notInNames := by
  intro name hname c hc
  obtain ⟨i, -, -, rfl⟩ := mem_block.mp hname
  rcases List.mem_append.mp hc with hc | hc
  · exact hpfx c hc
  · have hdigit := isDigit_pad hc
    have hnone : notInNames.all (!·.isDigit) = true := by decide
    intro hnot
    have hnd := List.all_eq_true.mp hnone c hnot
    simp [hdigit] at hnd

/-- The names of one range `n[lo-hi]` are plain. -/
theorem oneRange_clean (lo hi : UInt64) (w : Nat) (count : Int32) :
    ∀ name ∈ Hostlist.names ⟨[⟨['n'], lo, hi, w, false⟩], 1, count⟩, ∀ c ∈ name, c ∉ notInNames := by
  have hnames : Hostlist.names ⟨[⟨['n'], lo, hi, w, false⟩], 1, count⟩ =
      block ['n'] w lo.toNat (hi.toNat + 1 - lo.toNat) := by
    simp [Hostlist.names, Hostrange.names]
  rw [hnames]
  refine block_clean fun c hc => ?_
  rw [List.mem_singleton.mp hc]
  decide

theorem wrappedRange_built : Built (2 ^ 64) wrappedRange := by
  have hfirst : Built (2 ^ 64) ⟨[⟨['n'], ULONG_MAX, ULONG_MAX, 20, false⟩], 1, 1⟩ :=
    @Built.create _ [] "n[18446744073709551615]".toList _ (numbersBelow_all _) (by decide +kernel)
  exact @Built.push _ [] "n[0]".toList _ (1, wrappedRange) hfirst (numbersBelow_all _) (by decide +kernel)

/-- Two ranges the parser takes are printed as one it does not take; and two hosts that were joined by mistake
are printed as one that the list does not hold. -/
theorem ranged_string_not_read_back :
    (Built (2 ^ 64) mergedRange ∧ mergedRange.Unwrapped ∧
      (∀ name ∈ mergedRange.names, ∀ c ∈ name, c ∉ notInNames) ∧
      (hostlistRangedString mergedRange 64 fun _ => NUL).2 = 10 ∧ ¬ RoundTrips mergedRange 64 fun _ => NUL) ∧
    (Built (2 ^ 64) wrappedRange ∧ (∀ name ∈ wrappedRange.names, ∀ c ∈ name, c ∉ notInNames) ∧
      (hostlistRangedString wrappedRange 64 fun _ => NUL).2 = 23 ∧ ¬ RoundTrips wrappedRange 64 fun _ => NUL) := by
  refine ⟨⟨mergedRange_built, by decide, oneRange_clean _ _ _ _, by decide, fun htrip => ?_⟩,
    wrappedRange_built, oneRange_clean _ _ _ _, by decide +kernel, fun htrip => ?_⟩
  · -- the parser ends the process
    obtain ⟨hl', hret, -⟩ := htrip []
    have htext : text (hostlistRangedString mergedRange 64 fun _ => NUL).1 0 10 = "n[1-16386]".toList := by decide
    have hten : (hostlistRangedString mergedRange 64 fun _ => NUL).2.toNat = 10 := by decide
    rw [hten, htext] at hret
    have hexit : hostlistCreate [] "n[1-16386]".toList = .exit (.tooManyHosts "1-16386".toList) := rfl
    rw [hexit] at hret
    cases hret
  · -- the parser finds the one host that is printed
    obtain ⟨hl', hret, hnames⟩ := htrip []
    have htext : text (hostlistRangedString wrappedRange 64 fun _ => NUL).1 0 23 =
        "n[18446744073709551615]".toList := by decide +kernel
    have hlen : (hostlistRangedString wrappedRange 64 fun _ => NUL).2.toNat = 23 := by decide +kernel
    have hread : hostlistCreate [] "n[18446744073709551615]".toList =
        .ret (some ⟨[⟨['n'], ULONG_MAX, ULONG_MAX, 20, false⟩], 1, 1⟩) := by decide +kernel
    rw [hlen, htext, hread] at hret
    cases hret
    exact absurd hnames (by decide +kernel)

theorem ranged_string_round_trip_three : RoundTrips ⟨[⟨['n'], 1, 3, 1, false⟩], 1, 3⟩ 64 fun _ => NUL :=
  (@ranged_string_round_trip_iff ⟨[⟨['n'], 1, 3, 1, false⟩], 1, 3⟩
    (@Built.create _ [] "n[1-3]".toList _ (numbersBelow_all _) (by decide)) (by decide) (oneRange_clean _ _ _ _)
    64 (by decide) (fun _ => NUL) (by decide)).mpr (by
      intro g hg
      have hgroups : Hostlist.groups ⟨[⟨['n'], 1, 3, 1, false⟩], 1, 3⟩ =
        [(true, ⟨['n'], 1, 3, 1, false⟩, [])] := by decide
      rw [hgroups, List.mem_singleton] at hg
      subst hg
      exact ⟨by decide, by decide, by decide⟩)

end Pdsh
