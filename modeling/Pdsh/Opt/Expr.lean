import Pdsh.Hostlist.Token

/-!
# Host expressions

The host expressions of the manual: a name with up to two brackets. What an
expression means is said here without the parser of names: the product of the
values of its brackets, the first one outermost (`HostExpr.names`). The program
gets there in two rounds: the first leaves one row for each value of the first
bracket (`HostExpr.rows`), the second reads the rows again.
-/

namespace Pdsh

open Lib Lib.Decimal

variable {B : Nat} {slack body : CStr}

/-! ## Bracket bodies -/

/-- The ranges of a bracket body, none when it is not accepted. -/
def bodyRanges (body : CStr) : List Range :=
  match parseRangeList body MAX_RANGES with
  | .ret (some rs) => rs
  | _ => []

/-- The values of a bracket body in order, each as wide as its sub-range is written. -/
def bodyTexts (body : CStr) : List CStr :=
  (bodyRanges body).flatMap fun r => r.nums.map (pad r.width)

/-- A body the range parser accepts, of numbers below `B`. A closing bracket would
end it; an opening one behind the lower bound of a range is accepted. -/
structure BodyOk (B : Nat) (body : CStr) : Prop where
  accepted : ∃ rs, parseRangeList body MAX_RANGES = .ret (some rs)
  below : ∀ r ∈ bodyRanges body, r.hi.toNat < B
  noClose : ']' ∉ body

theorem BodyOk.ranges (h : BodyOk B body) :
    parseRangeList body MAX_RANGES = .ret (some (bodyRanges body)) := by
  obtain ⟨rs, hrs⟩ := h.accepted
  unfold bodyRanges
  rw [hrs]

theorem BodyOk.texts_ne_nil (h : BodyOk B body) : bodyTexts body ≠ [] := by
  have hok := parseRangeList_ok h.ranges
  have hne : bodyRanges body ≠ [] := by
    intro hnil
    have hranges := h.ranges
    rw [hnil] at hranges
    obtain ⟨str, rest, hsplit⟩ := List.exists_cons_of_ne_nil (List.splitOn_ne_nil ',' body)
    rw [parseRangeList, hsplit, show MAX_RANGES = 10239 + 1 from rfl, parseRangeListLoop] at hranges
    obtain ⟨r, -, hrest⟩ := Run.bind_eq_ret_iff.mp hranges
    obtain ⟨rs, -, hmap⟩ := Run.bind_eq_ret_iff.mp hrest
    simp at hmap
  obtain ⟨r, rest, hr⟩ := List.exists_cons_of_ne_nil hne
  have hle := hok.le r (by simp [hr])
  unfold bodyTexts Range.nums
  rw [hr]
  intro hnil
  have hlen := congrArg List.length hnil
  rw [List.flatMap_cons, List.length_append, List.length_map, List.length_range'] at hlen
  simp at hlen
  omega

theorem parseSingleRange_length {str : CStr} {r : Range} (h : parseSingleRange str = .ret r)
    (hhi : r.hi.toNat < 2 ^ 63) : r.nums.length ≤ MAX_RANGE.toNat := by
  have hle := (parseSingleRange_ok h).1
  unfold parseSingleRange at h
  simp only at h
  split at h
  · cases h
  split at h
  · cases h
  split at h
  · cases h
  split at h
  · cases h
  split at h
  · cases h
  rename_i hmany
  cases h
  have hone : (1 : UInt64).toNat = 1 := rfl
  simp only at hhi hle
  rw [UInt64.not_lt, UInt64.le_iff_toNat_le, UInt64.toNat_add,
    UInt64.toNat_sub_of_le _ _ (UInt64.le_iff_toNat_le.mpr hle), hone] at hmany
  simp only [Range.nums, List.length_range']
  omega

/-- A bracket has fewer than `2 ^ 31` values. -/
theorem BodyOk.length_texts (h : BodyOk B body) (hB : B ≤ 2 ^ 63) :
    (bodyTexts body).length < 2 ^ 31 := by
  obtain ⟨hlen, hall⟩ := parseRangeListLoop_some_iff.mp h.ranges
  have hsmall : ∀ r ∈ bodyRanges body, r.nums.length ≤ MAX_RANGE.toNat := by
    intro r hr
    obtain ⟨str, -, hstr⟩ := Chunks.exists_of_forall₂ hall hr
    exact parseSingleRange_length hstr (Nat.lt_of_lt_of_le (h.below r hr) hB)
  have hsum : (bodyTexts body).length ≤ (bodyRanges body).length * MAX_RANGE.toNat := by
    unfold bodyTexts
    rw [List.length_flatMap]
    refine (List.sum_le_card_nsmul _ MAX_RANGE.toNat ?_).trans (by simp)
    intro n hn
    obtain ⟨r, hr, rfl⟩ := List.mem_map.mp hn
    rw [List.length_map]
    exact hsmall r hr
  have hcount : (bodyRanges body).length ≤ MAX_RANGES := hall.length_eq ▸ hlen
  have hmax : MAX_RANGE.toNat = 16384 := rfl
  have hmaxs : MAX_RANGES = 10240 := rfl
  rw [hmax] at hsum
  rw [hmaxs] at hcount
  omega

theorem isDigit_bodyTexts {a : CStr} (ha : a ∈ bodyTexts body) : ∀ c ∈ a, c.isDigit := by
  obtain ⟨r, -, hr⟩ := List.mem_flatMap.mp ha
  obtain ⟨n, -, rfl⟩ := List.mem_map.mp hr
  intro c hc
  exact isDigit_pad hc

theorem ne_nil_of_mem_bodyTexts {a : CStr} (ha : a ∈ bodyTexts body) : a ≠ [] := by
  obtain ⟨r, -, hr⟩ := List.mem_flatMap.mp ha
  obtain ⟨n, -, rfl⟩ := List.mem_map.mp hr
  exact pad_ne_nil _ _

/-- The names of a bracket in a token, from its values. -/
theorem map_bodyTexts {f : CStr → CStr} :
    ((bodyRanges body).flatMap fun r => r.nums.map fun n => f (pad r.width n)) =
      (bodyTexts body).map f := by
  unfold bodyTexts
  rw [List.map_flatMap]
  apply List.flatMap_congr
  intro r _
  rw [List.map_map]
  rfl

/-! ## Expressions -/

/-- A name with up to two brackets. -/
inductive HostExpr where
  | name (p : CStr)
  | one (p body s : CStr)
  | two (p body m body' s : CStr)
deriving DecidableEq, Repr

namespace HostExpr

/-- The expression as it is written. -/
def text : HostExpr → CStr
  | name p => p
  | one p body s => p ++ '[' :: body ++ ']' :: s
  | two p body m body' s => p ++ '[' :: body ++ ']' :: (m ++ '[' :: body' ++ ']' :: s)

/-- What the expression means. -/
def names : HostExpr → List CStr
  | name p => [p]
  | one p body s => (bodyTexts body).map fun a => p ++ a ++ s
  | two p body m body' s =>
      (bodyTexts body).flatMap fun a => (bodyTexts body').map fun b => p ++ a ++ m ++ b ++ s

/-- The expressions left when the first bracket is replaced by its values. -/
def rows : HostExpr → List HostExpr
  | name p => [name p]
  | one p body s => (bodyTexts body).map fun a => name (p ++ a ++ s)
  | two p body m body' s => (bodyTexts body).map fun a => one (p ++ a ++ m) body' s

/-- The brackets opened inside bodies. -/
def nested : HostExpr → Nat
  | name _ => 0
  | one _ body _ => body.count '['
  | two _ body _ body' _ => body.count '[' + body'.count '['

theorem names_eq_rows (e : HostExpr) : e.names = e.rows.flatMap names := by
  cases e with
  | name p => rfl
  | one p body s =>
      unfold rows names
      rw [List.flatMap_map]
      exact List.map_eq_flatMap
  | two p body m body' s =>
      unfold rows names
      rw [List.flatMap_map]

end HostExpr

/-- No bracket and no separator outside the bodies, and bodies the parser accepts. -/
inductive HostExpr.Ok (B : Nat) : HostExpr → Prop where
  | name {p : CStr} (hp : Plain hostlistSep p) (hne : p ≠ []) : Ok B (.name p)
  | one {p body s : CStr} (hp : Plain hostlistSep p) (hs : Plain hostlistSep s)
      (hbody : BodyOk B body) : Ok B (.one p body s)
  | two {p body m body' s : CStr} (hp : Plain hostlistSep p) (hm : Plain hostlistSep m)
      (hs : Plain hostlistSep s) (hbody : BodyOk B body) (hbody' : BodyOk B body') :
      Ok B (.two p body m body' s)

namespace HostExpr

variable {e r : HostExpr}

theorem Ok.row (h : e.Ok B) (hr : r ∈ e.rows) : r.Ok B := by
  cases h with
  | name hp hne =>
      rw [rows, List.mem_singleton] at hr
      rw [hr]
      exact .name hp hne
  | @one p body s hp hs hbody =>
      obtain ⟨a, ha, rfl⟩ := List.mem_map.mp hr
      have hplain := plain_digits (isDigit_bodyTexts ha)
      refine .name ((hp.append hplain).append hs) ?_
      have hne := ne_nil_of_mem_bodyTexts ha
      simp [hne]
  | @two p body m body' s hp hm hs hbody hbody' =>
      obtain ⟨a, ha, rfl⟩ := List.mem_map.mp hr
      have hplain := plain_digits (isDigit_bodyTexts ha)
      exact .one ((hp.append hplain).append hm) hs hbody'

theorem Ok.names_ne_nil (h : e.Ok B) : e.names ≠ [] := by
  cases h with
  | name => exact List.cons_ne_nil _ _
  | one _ _ hbody => simpa [names] using hbody.texts_ne_nil
  | two _ _ _ hbody hbody' =>
      obtain ⟨a, ha⟩ := List.exists_mem_of_ne_nil _ hbody.texts_ne_nil
      obtain ⟨b, hb⟩ := List.exists_mem_of_ne_nil _ hbody'.texts_ne_nil
      apply List.ne_nil_of_mem
      exact List.mem_flatMap.mpr ⟨a, ha, List.mem_map_of_mem hb⟩

/-- An expression has no separator outside brackets, also where only commas
separate. -/
theorem Ok.level (h : e.Ok B) {sep : Char → Bool} (hsep : ∀ c, sep c → hostlistSep c) :
    tokenLevel sep 0 e.text = some (e.nested : Int) := by
  have hplain {s : CStr} (hs : Plain hostlistSep s) : Plain sep s := by
    intro c hc
    obtain ⟨ho, hcl, hnot⟩ := hs c hc
    refine ⟨ho, hcl, ?_⟩
    rw [Bool.eq_false_iff]
    intro hyes
    rw [hsep c hyes] at hnot
    cases hnot
  have hopen : sep '[' = false := by
    rw [Bool.eq_false_iff]
    intro hyes
    exact absurd (hsep '[' hyes) (by decide)
  cases h with
  | name hp hne => exact tokenLevel_plain (hplain hp) 0
  | one hp hs hbody =>
      rw [text, tokenLevel_segment (Int.le_refl 0) (hplain hp) hbody.noClose hopen,
        tokenLevel_plain (hplain hs)]
      simp [nested]
  | two hp hm hs hbody hbody' =>
      rw [text, tokenLevel_segment (Int.le_refl 0) (hplain hp) hbody.noClose hopen,
        tokenLevel_segment (by omega) (hplain hm) hbody'.noClose hopen, tokenLevel_plain (hplain hs)]
      simp [nested]

theorem Ok.text_ne_nil (h : e.Ok B) : e.text ≠ [] := by
  cases h with
  | name _ hne => exact hne
  | one => simp [text]
  | two => simp [text]

theorem Ok.unbroken (h : e.Ok B) {sep : Char → Bool} (hsep : ∀ c, sep c → hostlistSep c) :
    Unbroken sep e.text := ⟨h.text_ne_nil, _, h.level hsep⟩

theorem Ok.closed (h : e.Ok B) (hnested : e.nested = 0) {sep : Char → Bool}
    (hsep : ∀ c, sep c → hostlistSep c) : Closed sep e.text := by
  refine ⟨h.text_ne_nil, ?_⟩
  rw [h.level hsep, hnested]
  rfl

/-! ## Reading an expression -/

/-- The piece the parser makes of an expression. -/
def piece (slack : CStr) : HostExpr → Piece
  | name p => .host (curTok slack p)
  | one p body s =>
      if s ≠ [] then .suffixed p (bodyRanges body) s else .ranges p (bodyRanges body)
  | two p body m body' s => .suffixed p (bodyRanges body) (m ++ '[' :: body' ++ ']' :: s)

theorem Ok.parse (h : e.Ok B) (slack : CStr) :
    parsePiece slack e.text = .ret (some (e.piece slack)) := by
  cases h with
  | name hp _ => exact parsePiece_plain hp.noBracket
  | @one p body s hp _ hbody =>
      have hopen : '[' ∉ p := fun hc => (hp _ hc).1 rfl
      rw [text, parsePiece_bracket hopen hbody.noClose, hbody.ranges]
      rfl
  | @two p body m body' s hp _ _ hbody _ =>
      have hopen : '[' ∉ p := fun hc => (hp _ hc).1 rfl
      have hne : m ++ '[' :: body' ++ ']' :: s ≠ [] := by simp
      rw [text, parsePiece_bracket hopen hbody.noClose, hbody.ranges]
      simp [piece]

/-- The text of a comma list of expressions. -/
def listText (es : List HostExpr) : CStr := List.intercalate [','] (es.map text)

variable {es : List HostExpr}

/-- A list whose expressions are the tokens: a bracket that is still open behind one
would swallow the commas that follow. -/
structure ListOk (B : Nat) (es : List HostExpr) : Prop where
  ok : ∀ e ∈ es, e.Ok B
  flat : ∀ e ∈ es.dropLast, e.nested = 0

theorem tokens_listText (h : ListOk B es) {sep : Char → Bool} (hcomma : sep ',' = true)
    (hsep : ∀ c, sep c → hostlistSep c) : tokens sep (listText es) = es.map text := by
  apply tokens_join_last hcomma
  · intro tok htok
    rw [← List.map_dropLast] at htok
    obtain ⟨e, he, rfl⟩ := List.mem_map.mp htok
    exact (h.ok e (List.mem_of_mem_dropLast he)).closed (h.flat e he) hsep
  · intro tok htok
    obtain ⟨e, he, rfl⟩ := List.mem_map.mp htok
    exact (h.ok e he).unbroken hsep

theorem numbersBelow_listText (h : ListOk B es) : NumbersBelow B (listText es) := by
  intro tok htok r hr
  rw [tokens_listText h (by decide) fun c hc => hc] at htok
  obtain ⟨e, he, rfl⟩ := List.mem_map.mp htok
  rw [bracketRanges_eq ((h.ok e he).parse [])] at hr
  cases h.ok e he with
  | name => simp [piece, Piece.bracket] at hr
  | one _ _ hbody =>
      apply hbody.below
      rw [piece] at hr
      split at hr <;> exact hr
  | two _ _ _ hbody _ => exact hbody.below r hr

/-- A comma list is read as its expressions one after the other. -/
theorem expand_listText (h : ListOk B es) (slack : CStr) :
    expand slack (listText es) = .ret (some (es.flatMap fun e => (e.piece slack).names)) := by
  have hps : parsePieces slack (es.map text) = .ret (some (es.map (piece slack))) := by
    rw [parsePieces_some_iff, List.forall₂_map_left_iff, List.forall₂_map_right_iff,
      List.forall₂_same]
    intro e he
    exact (h.ok e he).parse slack
  unfold expand
  rw [tokens_listText h (by decide) fun c hc => hc, hps]
  simp [List.flatMap_map]

theorem Ok.singleton (h : e.Ok B) : ListOk B [e] := ⟨by simpa using h, by simp⟩

theorem listText_singleton (e : HostExpr) : listText [e] = e.text := List.intercalate_singleton

/-! ## The first round -/

/-- A bracket at the end or with short names behind it is expanded as it means. -/
theorem piece_names_one {p body s : CStr} (hshort : ∀ x ∈ (one p body s).names, x.length < 4096) :
    ((one p body s).piece slack).names = (one p body s).names := by
  rw [piece]
  by_cases hs : s = []
  · rw [if_neg (not_not.mpr hs)]
    have hmap := @map_bodyTexts body (fun a => p ++ a)
    simpa [Piece.names, names, hs] using hmap
  · rw [if_pos hs]
    have hmap := @map_bodyTexts body (fun a => snprintf 4096 (p ++ a ++ s))
    refine (show _ = _ from hmap).trans ?_
    apply List.map_congr_left
    intro a ha
    have hlt := hshort (p ++ a ++ s) (List.mem_map_of_mem ha)
    exact List.take_of_length_le (by omega)

/-- A second bracket is left in the rows, as far as they fit. -/
theorem piece_names_two {p body m body' s : CStr} :
    ((two p body m body' s).piece slack).names =
      (two p body m body' s).rows.map fun r => snprintf 4096 r.text := by
  have hmap := @map_bodyTexts body
    (fun a => snprintf 4096 (p ++ a ++ (m ++ '[' :: body' ++ ']' :: s)))
  refine (show _ = _ from hmap).trans ?_
  unfold rows
  rw [List.map_map]
  apply List.map_congr_left
  intro a _
  simp [text]

end HostExpr

end Pdsh
