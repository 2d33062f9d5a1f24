import Pdsh.Hostlist.Piece

/-!
# Tokens

`_next_tok` ends a token at a separator outside brackets. A text is unbroken when
it is not empty and has no such separator, and closed when it leaves no bracket
open either; closed texts with commas between them are cut into just these texts
(`tokens_join`), also when the last one is only unbroken.
-/

namespace Pdsh

open Lib Lib.Decimal

variable {sep : Char → Bool} {s t : CStr} {l l' : Int}

/-- The bracket level behind a text, or `none` when a token would end in it. -/
def tokenLevel (sep : Char → Bool) : Int → CStr → Option Int
  | l, [] => some l
  | l, c :: s =>
      if l = 0 ∧ sep c then none
      else tokenLevel sep (if c = '[' then l + 1 else if c = ']' then l - 1 else l) s

/-- A text no token ends in. -/
structure Unbroken (sep : Char → Bool) (s : CStr) : Prop where
  ne_nil : s ≠ []
  level : ∃ l, tokenLevel sep 0 s = some l

/-- A text that is one token, whatever separator follows it. -/
structure Closed (sep : Char → Bool) (s : CStr) : Prop where
  ne_nil : s ≠ []
  level : tokenLevel sep 0 s = some 0

theorem Closed.unbroken (h : Closed sep s) : Unbroken sep s := ⟨h.ne_nil, 0, h.level⟩

/-- No brackets. -/
def NoBracket (s : CStr) : Prop := ∀ c ∈ s, c ≠ '[' ∧ c ≠ ']'

/-- No brackets and no separators. -/
def Plain (sep : Char → Bool) (s : CStr) : Prop := ∀ c ∈ s, c ≠ '[' ∧ c ≠ ']' ∧ sep c = false

theorem Plain.noBracket (h : Plain sep s) : NoBracket s := fun c hc => ⟨(h c hc).1, (h c hc).2.1⟩

/-- No separator of a host list. -/
theorem plain_digits {a : CStr} (ha : ∀ c ∈ a, c.isDigit) : Plain hostlistSep a := by
  intro c hc
  have hd := digit_bounds (ha c hc)
  refine ⟨?_, ?_, ?_⟩
  · rintro rfl
    exact absurd hd.2 (by decide)
  · rintro rfl
    exact absurd hd.2 (by decide)
  · simp only [hostlistSep, decide_eq_false_iff_not, not_or]
    refine ⟨?_, ?_, ?_⟩ <;>
    · rintro rfl
      exact absurd hd.1 (by decide)

theorem plain_of_all (h : (s.all fun c => c ≠ '[' ∧ c ≠ ']' ∧ sep c = false) = true) : Plain sep s := by
  intro c hc
  have hall := List.all_eq_true.mp h c hc
  simpa using hall

theorem Plain.append (hs : Plain sep s) (ht : Plain sep t) : Plain sep (s ++ t) := by
  intro c hc
  rcases List.mem_append.mp hc with hc | hc
  · exact hs c hc
  · exact ht c hc

theorem NoBracket.append (hs : NoBracket s) (ht : NoBracket t) : NoBracket (s ++ t) := by
  intro c hc
  rcases List.mem_append.mp hc with hc | hc
  · exact hs c hc
  · exact ht c hc

theorem tokenLevel_append (l : Int) (s t : CStr) :
    tokenLevel sep l (s ++ t) = (tokenLevel sep l s).bind fun l' => tokenLevel sep l' t := by
  induction s generalizing l with
  | nil => rfl
  | cons c s ih =>
      rw [List.cons_append, tokenLevel, tokenLevel]
      split
      · rfl
      · exact ih _

theorem tokenLevel_plain (h : Plain sep s) (l : Int) : tokenLevel sep l s = some l := by
  induction s with
  | nil => rfl
  | cons c s ih =>
      obtain ⟨ho, hc, hsep⟩ := h c (by simp)
      rw [tokenLevel, if_neg (by simp [hsep]), if_neg ho, if_neg hc]
      exact ih fun x hx => h x (List.mem_cons_of_mem _ hx)

/-- Inside a bracket separators do not count. -/
theorem tokenLevel_inside (h : ']' ∉ s) (hl : 0 < l) :
    tokenLevel sep l s = some (l + s.count '[') := by
  induction s generalizing l with
  | nil => simp [tokenLevel]
  | cons c s ih =>
      obtain ⟨hc, hs⟩ := not_or.mp (mt List.mem_cons.mpr h)
      rw [tokenLevel, if_neg (by omega)]
      by_cases ho : c = '['
      · rw [if_pos ho, ih hs (by omega), ho, List.count_cons_self]
        congr 1
        push_cast
        omega
      · rw [if_neg ho, if_neg (Ne.symm hc), ih hs hl, List.count_cons_of_ne ho]

/-- A bracket closes itself, unless it holds an opening one. -/
theorem tokenLevel_segment {pfx body sfx : CStr} (hl : 0 ≤ l) (hpfx : Plain sep pfx)
    (hbody : ']' ∉ body) (ho : sep '[' = false) :
    tokenLevel sep l (pfx ++ '[' :: body ++ ']' :: sfx) =
      tokenLevel sep (l + body.count '[') sfx := by
  rw [List.append_assoc, tokenLevel_append, tokenLevel_plain hpfx, Option.bind_some,
    List.cons_append, tokenLevel, if_neg (by simp [ho]), if_pos rfl, tokenLevel_append,
    tokenLevel_inside hbody (by omega), Option.bind_some, tokenLevel, if_neg (by omega),
    if_neg (by decide), if_pos rfl]
  congr 1
  omega

theorem Plain.closed (h : Plain sep s) (hne : s ≠ []) : Closed sep s :=
  ⟨hne, tokenLevel_plain h 0⟩

/-! ## Cutting -/

theorem nextTokLoop_append (h : tokenLevel sep l s = some l') (rest : CStr) :
    nextTokLoop sep l (s ++ rest) =
      (s ++ (nextTokLoop sep l' rest).1, (nextTokLoop sep l' rest).2) := by
  induction s generalizing l with
  | nil =>
      cases h
      rfl
  | cons c s ih =>
      rw [tokenLevel] at h
      split at h
      · cases h
      · rename_i hcond
        have hgo : l ≠ 0 ∨ (!sep c) = true := by
          by_cases hl : l = 0
          · right
            simpa [hl] using hcond
          · exact .inl hl
        rw [List.cons_append, nextTokLoop, if_pos hgo]
        simp only [ih h]
        rfl

/-- An unbroken text begins with a character that is no separator. -/
theorem Unbroken.dropWhile_append (h : Unbroken sep s) (rest : CStr) :
    (s ++ rest).dropWhile sep = s ++ rest := by
  obtain ⟨c, s, rfl⟩ := List.exists_cons_of_ne_nil h.ne_nil
  obtain ⟨l, hlevel⟩ := h.level
  rw [tokenLevel] at hlevel
  split at hlevel
  · cases hlevel
  · rename_i hcond
    have hsep : sep c = false := by simpa using hcond
    rw [List.cons_append, List.dropWhile_cons_of_neg (by simp [hsep])]

/-- At the end of the string brackets may be open. -/
theorem nextTok_unbroken (h : Unbroken sep s) : nextTok sep s = some (s, []) := by
  obtain ⟨l, hlevel⟩ := h.level
  have hloop := nextTokLoop_append hlevel []
  have hdrop := h.dropWhile_append []
  rw [List.append_nil] at hloop hdrop
  obtain ⟨c, t, rfl⟩ := List.exists_cons_of_ne_nil h.ne_nil
  unfold nextTok
  rw [hdrop]
  simp only [hloop]
  simp [nextTokLoop]

theorem nextTok_closed (h : Closed sep s) (hc : ∀ c rest, t = c :: rest → sep c = true) :
    nextTok sep (s ++ t) = some (s, t.dropWhile sep) := by
  have hstop : nextTokLoop sep 0 t = ([], t) := by
    cases t with
    | nil => rfl
    | cons c rest => simp [nextTokLoop, hc c rest rfl]
  obtain ⟨c, s', hs⟩ := List.exists_cons_of_ne_nil h.ne_nil
  have hloop := nextTokLoop_append h.level t
  rw [hstop, List.append_nil] at hloop
  unfold nextTok
  rw [h.unbroken.dropWhile_append]
  rw [hs] at hloop ⊢
  simp only [List.cons_append] at hloop ⊢
  rw [hloop]

/-- Closed texts with commas between them are the tokens; the last one need not be
closed. -/
theorem tokensLoop_join (hcomma : sep ',' = true) {toks : List CStr}
    (h : ∀ tok ∈ toks.dropLast, Closed sep tok) (hlast : ∀ tok ∈ toks, Unbroken sep tok) {fuel : Nat}
    (hfuel : (List.intercalate [','] toks).length ≤ fuel) :
    tokensLoop sep fuel (List.intercalate [','] toks) = toks := by
  induction toks generalizing fuel with
  | nil => cases fuel <;> rfl
  | cons tok rest ih =>
      have htok := hlast tok (by simp)
      have hpos := List.length_pos_iff.mpr htok.ne_nil
      cases rest with
      | nil =>
          rw [List.intercalate_singleton] at hfuel ⊢
          cases fuel with
          | zero => omega
          | succ fuel =>
              rw [tokensLoop, nextTok_unbroken htok]
              cases fuel <;> rfl
      | cons next rest =>
          rw [List.dropLast_cons_cons] at h
          have hclosed := h tok (by simp)
          have hrest := fun x hx => h x (List.mem_cons_of_mem _ hx)
          have hrest' := fun x hx => hlast x (List.mem_cons_of_mem _ hx)
          rw [List.intercalate_cons_cons] at hfuel ⊢
          simp only [List.append_assoc, List.length_append, List.length_singleton] at hfuel ⊢
          cases fuel with
          | zero => omega
          | succ fuel =>
              have hnextTok := hrest' next (by simp)
              have hdrop : ([','] ++ List.intercalate [','] (next :: rest)).dropWhile sep =
                  List.intercalate [','] (next :: rest) := by
                rw [List.singleton_append, List.dropWhile_cons_of_pos hcomma]
                cases rest with
                | nil =>
                    rw [List.intercalate_singleton]
                    simpa using hnextTok.dropWhile_append []
                | cons x rest =>
                    rw [List.intercalate_cons_cons, List.append_assoc]
                    exact hnextTok.dropWhile_append _
              have hnext := nextTok_closed hclosed
                (t := [','] ++ List.intercalate [','] (next :: rest)) (by
                  intro c rest' hc
                  rw [List.singleton_append, List.cons.injEq] at hc
                  rw [← hc.1]
                  exact hcomma)
              rw [tokensLoop, hnext]
              simp only [hdrop]
              rw [ih hrest hrest' (by omega)]

theorem tokens_join_last (hcomma : sep ',' = true) {toks : List CStr}
    (h : ∀ tok ∈ toks.dropLast, Closed sep tok) (hlast : ∀ tok ∈ toks, Unbroken sep tok) :
    tokens sep (List.intercalate [','] toks) = toks :=
  tokensLoop_join hcomma h hlast (Nat.le_refl _)

theorem tokens_join (hcomma : sep ',' = true) {toks : List CStr}
    (h : ∀ tok ∈ toks, Closed sep tok) : tokens sep (List.intercalate [','] toks) = toks :=
  tokens_join_last hcomma (fun tok htok => h tok (List.mem_of_mem_dropLast htok))
    fun tok htok => (h tok htok).unbroken

theorem tokens_unbroken (h : Unbroken sep s) : tokens sep s = [s] := by
  obtain ⟨c, t, rfl⟩ := List.exists_cons_of_ne_nil h.ne_nil
  unfold tokens
  rw [List.length_cons, tokensLoop, nextTok_unbroken h]
  cases t.length <;> rfl

/-- One token is a first part of the string that does not end in it, up to a separator. -/
theorem nextTokLoop_spec (l : Int) (s : CStr) :
    s = (nextTokLoop sep l s).1 ++ (nextTokLoop sep l s).2 ∧
      (∃ l', tokenLevel sep l (nextTokLoop sep l s).1 = some l') ∧
      ∀ c rest, (nextTokLoop sep l s).2 = c :: rest → sep c = true := by
  induction s generalizing l with
  | nil => exact ⟨rfl, ⟨l, rfl⟩, fun c rest h => by cases h⟩
  | cons c s ih =>
      rw [nextTokLoop]
      split
      · rename_i hgo
        obtain ⟨hsplit, ⟨l', hlevel⟩, hstop⟩ :=
          ih (if c = '[' then l + 1 else if c = ']' then l - 1 else l)
        refine ⟨congrArg (c :: ·) hsplit, ⟨l', ?_⟩, hstop⟩
        rw [tokenLevel, if_neg]
        · exact hlevel
        · rintro ⟨rfl, hsep⟩
          simp [hsep] at hgo
      · rename_i hno
        refine ⟨rfl, ⟨l, rfl⟩, fun d rest h => ?_⟩
        cases h
        simpa using (not_or.mp hno).2

/-- Where a token stands: behind a separator, unless it is the first thing in the string. -/
theorem token_spec {tok : CStr} (h : tok ∈ tokens sep s) :
    ∃ before after, s = before ++ tok ++ after ∧ (before ≠ [] → ∃ c ∈ before, sep c = true) ∧
      Unbroken sep tok := by
  unfold tokens at h
  generalize s.length = fuel at h
  induction fuel generalizing s with
  | zero => simp [tokensLoop] at h
  | succ fuel ih =>
      rw [tokensLoop] at h
      unfold nextTok at h
      have hskip := List.takeWhile_append_dropWhile (p := sep) (l := s)
      have hblank : s.takeWhile sep ≠ [] → ∃ c ∈ s.takeWhile sep, sep c = true := by
        intro hne
        exact ⟨_, List.head_mem hne, List.mem_takeWhile_imp (List.head_mem hne)⟩
      cases hdrop : s.dropWhile sep with
      | nil => simp [hdrop] at h
      | cons c rest =>
          obtain ⟨hsplit, hlevel, hstop⟩ := @nextTokLoop_spec sep 0 (c :: rest)
          rw [hdrop] at h hskip
          simp only [List.mem_cons] at h
          rcases h with rfl | h
          · refine ⟨s.takeWhile sep, (nextTokLoop sep 0 (c :: rest)).2, ?_, hblank, ?_, hlevel⟩
            · rw [List.append_assoc, ← hsplit, hskip]
            · -- the character behind the separators is none
              have hhead := List.head?_dropWhile_not sep s
              rw [hdrop] at hhead
              have hc : sep c = false := by simpa using hhead
              rw [nextTokLoop, if_pos (.inr (by simp [hc]))]
              exact List.cons_ne_nil _ _
          · obtain ⟨before, after, hrest, -, htok⟩ := ih h
            have hbehind := List.takeWhile_append_dropWhile (p := sep) (l := (nextTokLoop sep 0 (c :: rest)).2)
            refine ⟨s.takeWhile sep ++ ((nextTokLoop sep 0 (c :: rest)).1 ++
              ((nextTokLoop sep 0 (c :: rest)).2.takeWhile sep ++ before)), after, ?_, fun _ => ?_, htok⟩
            · simp only [List.append_assoc] at hrest ⊢
              rw [← hrest, hbehind, ← hsplit, hskip]
            · cases hmore : (nextTokLoop sep 0 (c :: rest)).2 with
              | nil =>
                  rw [hmore] at hrest
                  have hnil : tok = [] := by
                    have hlen := congrArg List.length hrest
                    simp only [List.dropWhile_nil, List.length_nil, List.length_append] at hlen
                    exact List.length_eq_zero_iff.mp (by omega)
                  exact absurd hnil htok.ne_nil
              | cons d more =>
                  have hd := hstop d more hmore
                  refine ⟨d, ?_, hd⟩
                  rw [List.takeWhile_cons_of_pos hd]
                  simp

/-! ## Reading a token -/

theorem parsePiece_plain {slack tok : CStr} (h : NoBracket tok) :
    parsePiece slack tok = .ret (some (.host (curTok slack tok))) := by
  have hopen : strchr '[' tok = none := strchr_eq_none_iff.mpr fun hc => (h _ hc).1 rfl
  have hclose : ']' ∉ tok := fun hc => (h _ hc).2 rfl
  rw [parsePiece, hopen]
  simp only [hclose, if_false]

theorem parsePiece_bracket {slack pfx body q : CStr} (hpfx : '[' ∉ pfx) (hbody : ']' ∉ body) :
    parsePiece slack (pfx ++ '[' :: body ++ ']' :: q) = (do
      let nr ← parseRangeList body MAX_RANGES
      pure (nr.map fun rs => if q ≠ [] then Piece.suffixed pfx rs q else .ranges pfx rs)) := by
  have hopen : strchr '[' (pfx ++ '[' :: body ++ ']' :: q) = some (pfx, body ++ ']' :: q) :=
    strchr_eq_some_iff.mpr ⟨by simp, hpfx⟩
  have hclose : strchr ']' (body ++ ']' :: q) = some (body, q) :=
    strchr_eq_some_iff.mpr ⟨rfl, hbody⟩
  rw [parsePiece, hopen]
  simp only [hclose]

/-- A list of ranges is read when there is room for it and each of them is. -/
theorem parseRangeListLoop_some_iff {strs : List CStr} {len : Nat} {rs : List Range} :
    parseRangeListLoop strs len = .ret (some rs) ↔
      strs.length ≤ len ∧ List.Forall₂ (fun str r => parseSingleRange str = .ret r) strs rs := by
  induction strs generalizing len rs with
  | nil =>
      rw [parseRangeListLoop, List.forall₂_nil_left_iff]
      constructor
      · intro h
        cases h
        exact ⟨Nat.zero_le _, rfl⟩
      · rintro ⟨-, rfl⟩
        rfl
  | cons str strs ih =>
      cases len with
      | zero => simp [parseRangeListLoop]
      | succ len =>
          rw [parseRangeListLoop, List.forall₂_cons_left_iff, List.length_cons, Nat.succ_le_succ_iff]
          constructor
          · intro h
            obtain ⟨r, hr, hrest⟩ := Run.bind_eq_ret_iff.mp h
            obtain ⟨rs', hrs, hmap⟩ := Run.bind_eq_ret_iff.mp hrest
            cases rs' with
            | none => cases hmap
            | some rs' =>
                cases hmap
                obtain ⟨hlen, hall⟩ := ih.mp hrs
                exact ⟨hlen, r, rs', hr, hall, rfl⟩
          · rintro ⟨hlen, r, rs', hr, hall, rfl⟩
            rw [hr, Run.ret_bind, ih.mpr ⟨hlen, hall⟩]
            rfl

/-- What stands between brackets: no comma and no bracket. -/
def InBracket (text : CStr) : Prop := ∀ c ∈ text, c ≠ ',' ∧ c ≠ '[' ∧ c ≠ ']'

theorem noBracket_intercalate {texts : List CStr} (h : ∀ text ∈ texts, InBracket text) :
    NoBracket (List.intercalate [','] texts) := by
  induction texts with
  | nil => simp [NoBracket]
  | cons text texts ih =>
      have hrest := ih fun t ht => h t (List.mem_cons_of_mem _ ht)
      have htext : NoBracket text := fun c hc => (h text (by simp) c hc).2
      cases texts with
      | nil => simpa using htext
      | cons text' texts =>
          rw [List.intercalate_cons_cons]
          exact (htext.append (by simp [NoBracket])).append hrest

/-- A bracket is read when its ranges are. -/
theorem parsePiece_list_iff {slack pfx q : CStr} {texts : List CStr} {p : Piece} (hpfx : '[' ∉ pfx)
    (hne : texts ≠ []) (h : ∀ text ∈ texts, InBracket text) :
    parsePiece slack (pfx ++ '[' :: List.intercalate [','] texts ++ ']' :: q) = .ret (some p) ↔
      texts.length ≤ MAX_RANGES ∧
        ∃ rs, List.Forall₂ (fun str r => parseSingleRange str = .ret r) texts rs ∧
          p = if q ≠ [] then .suffixed pfx rs q else .ranges pfx rs := by
  have hclose : ']' ∉ List.intercalate [','] texts := fun hc => (noBracket_intercalate h _ hc).2 rfl
  have hsplit : (List.intercalate [','] texts).splitOn ',' = texts :=
    List.splitOn_intercalate ',' (fun text ht hc => (h text ht _ hc).1 rfl) hne
  rw [parsePiece_bracket hpfx hclose, parseRangeList, hsplit]
  constructor
  · intro hret
    obtain ⟨nr, hnr, hmap⟩ := Run.bind_eq_ret_iff.mp hret
    simp only [Run.pure_eq, Run.ret.injEq, Option.map_eq_some_iff] at hmap
    obtain ⟨rs, rfl, rfl⟩ := hmap
    obtain ⟨hlen, hall⟩ := parseRangeListLoop_some_iff.mp hnr
    exact ⟨hlen, rs, hall, rfl⟩
  · rintro ⟨hlen, rs, hall, rfl⟩
    rw [parseRangeListLoop_some_iff.mpr ⟨hlen, hall⟩]
    rfl

theorem parsePieces_some_iff {slack : CStr} {toks : List CStr} {ps : List Piece} :
    parsePieces slack toks = .ret (some ps) ↔
      List.Forall₂ (fun tok p => parsePiece slack tok = .ret (some p)) toks ps := by
  induction toks generalizing ps with
  | nil =>
      rw [parsePieces, List.forall₂_nil_left_iff]
      constructor
      · intro h
        cases h
        rfl
      · rintro rfl
        rfl
  | cons tok rest ih =>
      rw [parsePieces, List.forall₂_cons_left_iff]
      constructor
      · intro h
        obtain ⟨piece, hp, hrest⟩ := Run.bind_eq_ret_iff.mp h
        cases piece with
        | none => cases hrest
        | some p =>
            obtain ⟨pieces, hps, hmap⟩ := Run.bind_eq_ret_iff.mp hrest
            cases pieces with
            | none => cases hmap
            | some ps' =>
                cases hmap
                exact ⟨p, ps', hp, ih.mp hps, rfl⟩
      · rintro ⟨p, ps', hp, hps, rfl⟩
        rw [hp, Run.ret_bind]
        simp only
        rw [ih.mpr hps]
        rfl

end Pdsh
