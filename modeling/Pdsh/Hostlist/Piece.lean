import Pdsh.Hostlist.Hostname
import Pdsh.Hostlist.Parse
import Pdsh.Hostlist.Remove

/-!
# What a host list expression means

Reading a token and pushing its hosts are told apart here. `parsePiece` only
reads: it gives the piece a token stands for, rejects it, or ends the process.
`Piece.names` are the names of a piece, and `expand` the names of a whole
expression; `hostlist_create` appends exactly those.

A range of a bracket with a suffix that ends at `ULONG_MAX` is the one case
where pushing does not come back (`pushSuffixedLoop_hang`).
-/

namespace Pdsh

open Lib Lib.Decimal

variable {hl hl' : Hostlist} {B : Nat}

/-! ## Ranges -/

/-- The numbers of a range of the input. -/
def Range.nums (r : Range) : List Nat := List.range' r.lo.toNat (r.hi.toNat + 1 - r.lo.toNat)

/-- What the parser leaves of a bracket: lower bounds are not above upper bounds,
and no more ranges than fit. -/
structure RangesOk (len : Nat) (ranges : List Range) : Prop where
  le : ∀ r ∈ ranges, r.lo.toNat ≤ r.hi.toNat
  width : ∀ r ∈ ranges, 0 < r.width
  length : ranges.length ≤ len

theorem parseSingleRange_ok {str : CStr} {r : Range} (h : parseSingleRange str = .ret r) :
    r.lo.toNat ≤ r.hi.toNat ∧ 0 < r.width := by
  unfold parseSingleRange at h
  simp only at h
  split at h
  · cases h
  split at h
  · cases h
  rename_i hend
  split at h
  · cases h
  split at h
  · cases h
  rename_i hle
  split at h
  · cases h
  cases h
  refine ⟨UInt64.le_iff_toNat_le.mp (UInt64.not_lt.mp hle), ?_⟩
  -- `strtoul` reads nothing at the start of an empty string
  rw [List.length_pos_iff]
  rintro hnil
  rw [hnil] at hend
  exact hend rfl

theorem parseRangeListLoop_ok {strs : List CStr} {len : Nat} {ranges : List Range}
    (h : parseRangeListLoop strs len = .ret (some ranges)) : RangesOk len ranges := by
  induction strs generalizing len ranges with
  | nil =>
      rw [parseRangeListLoop] at h
      cases h
      exact ⟨by simp, by simp, Nat.zero_le _⟩
  | cons str rest ih =>
      cases len with
      | zero => cases h
      | succ len =>
          rw [parseRangeListLoop] at h
          obtain ⟨r, hr, hrest⟩ := Run.bind_eq_ret_iff.mp h
          obtain ⟨rs, hrs, hmap⟩ := Run.bind_eq_ret_iff.mp hrest
          simp only [Run.pure_eq, Run.ret.injEq, Option.map_eq_some_iff] at hmap
          obtain ⟨rs', rfl, rfl⟩ := hmap
          obtain ⟨hle, hwidth⟩ := parseSingleRange_ok hr
          have hok := ih hrs
          refine ⟨?_, ?_, Nat.succ_le_succ hok.length⟩
          · rintro x (_ | ⟨_, hx⟩)
            · exact hle
            · exact hok.le x hx
          · rintro x (_ | ⟨_, hx⟩)
            · exact hwidth
            · exact hok.width x hx

theorem parseRangeList_ok {str : CStr} {len : Nat} {ranges : List Range}
    (h : parseRangeList str len = .ret (some ranges)) : RangesOk len ranges :=
  parseRangeListLoop_ok h

/-! ## Pieces -/

/-- What one token stands for. -/
inductive Piece where
  /-- A token without brackets. -/
  | host (name : CStr)
  /-- A bracket at the end of the token. -/
  | ranges (pfx : CStr) (ranges : List Range)
  /-- A bracket with `sfx` behind it. -/
  | suffixed (pfx : CStr) (ranges : List Range) (sfx : CStr)
deriving DecidableEq, Repr

/-- The ranges in the bracket of a piece. -/
def Piece.bracket : Piece → List Range
  | .host _ => []
  | .ranges _ rs => rs
  | .suffixed _ rs _ => rs

/-- The names of a piece, in order. -/
def Piece.names : Piece → List CStr
  | .host name => [name]
  | .ranges pfx rs => rs.flatMap fun r => r.nums.map fun n => pfx ++ pad r.width n
  | .suffixed pfx rs sfx =>
      rs.flatMap fun r => r.nums.map fun n => snprintf 4096 (pfx ++ pad r.width n ++ sfx)

/-- Reading a token, without pushing anything. -/
def parsePiece (slack tok : CStr) : Proc (Option Piece) :=
  match strchr '[' tok with
  | some (pfx, p) =>
      match strchr ']' p with
      | some (body, q) => do
          let nr ← parseRangeList body MAX_RANGES
          pure (nr.map fun rs => if q ≠ [] then .suffixed pfx rs q else .ranges pfx rs)
      | none => .ret none
  | none => if ']' ∈ tok then .ret none else .ret (some (.host (curTok slack tok)))

/-- Pushing the hosts of a piece. -/
def pushPiece (fuel : Nat) (hl : Hostlist) : Piece → Proc Hostlist
  | .host name => .ret (hostlistPushHost hl name)
  | .ranges pfx rs => .ret (pushRangeList hl pfx rs)
  | .suffixed pfx rs sfx => pushRangeListWithSuffix fuel hl pfx sfx rs

/-- A round of `hostlist_create` reads a token and pushes its piece. -/
theorem createToken_eq (fuel : Nat) (slack : CStr) (new : Hostlist) (tok : CStr) :
    createToken fuel slack new tok = (do
      let piece ← parsePiece slack tok
      match piece with
      | none => pure none
      | some piece => do
          let new ← pushPiece fuel new piece
          pure (some new)) := by
  unfold createToken parsePiece
  cases hopen : strchr '[' tok with
  | none => by_cases h : ']' ∈ tok <;> simp [h, pushPiece]
  | some cut =>
      cases hclose : strchr ']' cut.2 with
      | none => simp [hclose]
      | some cut' =>
          cases hnr : parseRangeList cut'.1 MAX_RANGES with
          | exit e => simp [hclose, hnr]
          | hang => simp [hclose, hnr]
          | ret nr =>
              cases nr with
              | none => simp [hclose, hnr]
              | some rs => by_cases hq : cut'.2 = [] <;> simp [hclose, hnr, hq, pushPiece]

/-- A piece as the parser makes it. -/
def Piece.Ok (p : Piece) : Prop := RangesOk MAX_RANGES p.bracket

/-- Every number in the bracket of a piece is below `B`. -/
def Piece.Below (B : Nat) (p : Piece) : Prop := ∀ r ∈ p.bracket, r.hi.toNat < B

theorem parsePiece_ok {slack tok : CStr} {p : Piece} (h : parsePiece slack tok = .ret (some p)) :
    p.Ok := by
  unfold parsePiece at h
  split at h
  · split at h
    · obtain ⟨nr, hnr, hmap⟩ := Run.bind_eq_ret_iff.mp h
      simp only [Run.pure_eq, Run.ret.injEq, Option.map_eq_some_iff] at hmap
      obtain ⟨rs, rfl, rfl⟩ := hmap
      have hok := parseRangeList_ok hnr
      split <;> exact hok
    · cases h
  · split at h
    · cases h
    · cases h
      exact ⟨by simp [Piece.bracket], by simp [Piece.bracket], Nat.zero_le _⟩

/-! ## Pushing a piece -/

theorem pushHost_appended (hB : B ≤ ULONG_MAX.toNat) (hsfx : MAX_HOST_SUFFIX.toNat < B)
    (hw : hl.Wf) (hb : hl.Below B) (name : CStr) :
    Appended B hl [name] (hostlistPushHost hl name) := by
  have hle := hostrangeOfHost_hi_le name
  rw [← hostrangeOfHost_names name]
  exact hostlistPushRange_appended hB hw hb (hostrangeOfHost_wf name) (by omega)

theorem pushRangeList_appended (hB : B ≤ ULONG_MAX.toNat) {pfx : CStr} {rs : List Range}
    (hw : hl.Wf) (hb : hl.Below B) (hle : ∀ r ∈ rs, r.lo.toNat ≤ r.hi.toNat)
    (hlt : ∀ r ∈ rs, r.hi.toNat < B) :
    Appended B hl (Piece.ranges pfx rs).names (pushRangeList hl pfx rs) := by
  induction rs generalizing hl with
  | nil => exact Appended.refl hw hb
  | cons r rs ih =>
      have hrw : (hostrangeCreate pfx r.lo r.hi r.width).Wf := hostrangeCreate_wf (hle r (by simp))
      have hr := hostlistPushRange_appended hB hw hb hrw (hlt r (by simp))
      exact hr.trans (ih hr.wf hr.below (fun x hx => hle x (List.mem_cons_of_mem _ hx))
        (fun x hx => hlt x (List.mem_cons_of_mem _ hx)))

/-- Pushing one name as it is. -/
def pushSingle (hl : Hostlist) (name : CStr) : Hostlist :=
  (hostlistPushRange hl (hostrangeCreateSingle name)).1

theorem foldl_pushSingle_appended (hB : B ≤ ULONG_MAX.toNat) (hB0 : 0 < B) {names : List CStr}
    (hw : hl.Wf) (hb : hl.Below B) : Appended B hl names (names.foldl pushSingle hl) := by
  induction names generalizing hl with
  | nil => exact Appended.refl hw hb
  | cons name names ih =>
      have hone := hostlistPushRange_appended hB hw hb (hostrangeCreateSingle_wf name) (by exact hB0)
      exact hone.trans (ih hone.wf hone.below)

/-- The loop over one range comes to its end when `j <= hi` can fail. -/
theorem pushSuffixedLoop_eq {pfx sfx : CStr} {rng : Range} (hhi : rng.hi ≠ ULONG_MAX) {fuel : Nat}
    {j : UInt64} (hfuel : rng.hi.toNat + 1 - j.toNat < fuel) (hl : Hostlist) :
    pushSuffixedLoop pfx sfx rng fuel j hl =
      .ret (((List.range' j.toNat (rng.hi.toNat + 1 - j.toNat)).map fun n =>
        snprintf 4096 (pfx ++ pad rng.width n ++ sfx)).foldl pushSingle hl) := by
  have hmax : rng.hi.toNat < ULONG_MAX.toNat := by
    have hlt := rng.hi.toNat_lt
    have hM := ULONG_MAX_toNat
    have hne : rng.hi.toNat ≠ ULONG_MAX.toNat := fun heq => hhi (UInt64.toNat_inj.mp heq)
    omega
  induction fuel generalizing j hl with
  | zero => omega
  | succ fuel ih =>
      rw [pushSuffixedLoop]
      split
      · rename_i hle
        have hjn := UInt64.le_iff_toNat_le.mp hle
        have hsucc := toNat_succ (n := j) (by omega)
        have hlen : rng.hi.toNat + 1 - j.toNat = rng.hi.toNat + 1 - (j + 1).toNat + 1 := by omega
        rw [hlen, List.range'_succ, ← hsucc, ih (by omega)]
        rfl
      · rename_i hle
        rw [UInt64.le_iff_toNat_le] at hle
        have hlen : rng.hi.toNat + 1 - j.toNat = 0 := by omega
        rw [hlen]
        rfl

/-- No `unsigned long` is above `ULONG_MAX`, so a loop up to there goes on. -/
theorem pushSuffixedLoop_hang {pfx sfx : CStr} {rng : Range} (hhi : rng.hi = ULONG_MAX)
    (fuel : Nat) (j : UInt64) (hl : Hostlist) : pushSuffixedLoop pfx sfx rng fuel j hl = .hang := by
  induction fuel generalizing j hl with
  | zero => rfl
  | succ fuel ih =>
      have hle : j ≤ rng.hi := by
        have := j.toNat_lt
        rw [hhi, UInt64.le_iff_toNat_le, ULONG_MAX_toNat]
        omega
      rw [pushSuffixedLoop, if_pos hle, ih]

theorem pushRangeListWithSuffix_eq {pfx sfx : CStr} {rs : List Range} {fuel : Nat}
    (hhi : ∀ r ∈ rs, r.hi ≠ ULONG_MAX) (hfuel : ∀ r ∈ rs, r.hi.toNat + 1 < fuel) (hl : Hostlist) :
    pushRangeListWithSuffix fuel hl pfx sfx rs =
      .ret ((Piece.suffixed pfx rs sfx).names.foldl pushSingle hl) := by
  induction rs generalizing hl with
  | nil => rfl
  | cons r rs ih =>
      have hr := hfuel r (by simp)
      rw [pushRangeListWithSuffix, pushSuffixedLoop_eq (hhi r (by simp)) (by omega), Run.ret_bind,
        ih (fun x hx => hhi x (List.mem_cons_of_mem _ hx))
          (fun x hx => hfuel x (List.mem_cons_of_mem _ hx)), Piece.names, Piece.names,
        List.flatMap_cons, List.foldl_append]
      rfl

/-- Pushing a piece appends its names. -/
theorem pushPiece_appended (hB : B ≤ ULONG_MAX.toNat) (hsfx : MAX_HOST_SUFFIX.toNat < B)
    {fuel : Nat} (hfuel : B < fuel) (hw : hl.Wf) (hb : hl.Below B) {p : Piece} (hok : p.Ok)
    (hlt : p.Below B) : ∃ hl', pushPiece fuel hl p = .ret hl' ∧ Appended B hl p.names hl' := by
  cases p with
  | host name => exact ⟨_, rfl, pushHost_appended hB hsfx hw hb name⟩
  | ranges pfx rs => exact ⟨_, rfl, pushRangeList_appended hB hw hb hok.le hlt⟩
  | suffixed pfx rs sfx =>
      refine ⟨_, pushRangeListWithSuffix_eq (fun r hr => ?_) (fun r hr => ?_) hl,
        foldl_pushSingle_appended hB (by omega) hw hb⟩
      · exact ne_ulongMax_of_lt (Nat.lt_of_lt_of_le (hlt r hr) hB)
      · have := hlt r hr
        omega

/-! ## Expressions -/

/-- Reading all tokens. -/
def parsePieces (slack : CStr) : List CStr → Proc (Option (List Piece))
  | [] => .ret (some [])
  | tok :: rest => do
      let piece ← parsePiece slack tok
      match piece with
      | none => pure none
      | some piece => do
          let pieces ← parsePieces slack rest
          pure (pieces.map (piece :: ·))

/-- The names an expression stands for; `none` when it is rejected. -/
def expand (slack str : CStr) : Proc (Option (List CStr)) := do
  let pieces ← parsePieces slack (tokens hostlistSep str)
  pure (pieces.map (·.flatMap Piece.names))

/-- The ranges in the bracket of a token. -/
def bracketRanges (tok : CStr) : List Range :=
  match parsePiece [] tok with
  | .ret (some p) => p.bracket
  | _ => []

/-- Every number in a bracket of the expression is below `B`. -/
def NumbersBelow (B : Nat) (str : CStr) : Prop :=
  ∀ tok ∈ tokens hostlistSep str, ∀ r ∈ bracketRanges tok, r.hi.toNat < B

instance (B : Nat) (str : CStr) : Decidable (NumbersBelow B str) := by
  unfold NumbersBelow
  infer_instance

theorem bracketRanges_eq {slack tok : CStr} {p : Piece} (h : parsePiece slack tok = .ret (some p)) :
    bracketRanges tok = p.bracket := by
  have hsame : Run.Rel (Option.Rel fun a b => a.bracket = b.bracket) (parsePiece slack tok)
      (parsePiece [] tok) := by
    unfold parsePiece
    split
    · split
      · refine Run.Rel.bind_same fun nr _ => ?_
        cases nr with
        | none => exact Option.Rel.none
        | some rs => exact Option.Rel.some rfl
      · exact Option.Rel.none
    · split
      · exact Option.Rel.none
      · exact Option.Rel.some rfl
  rw [h] at hsame
  obtain ⟨r, hr, hrel⟩ := hsame.ret_left
  cases hrel with
  | some hb => rw [bracketRanges, hr, hb]

/-- `hostlist_create` from some list on: it ends as reading does, and appends
the names that were read. -/
theorem createLoop_rel (slack : CStr) (hB : B ≤ ULONG_MAX.toNat) (hsfx : MAX_HOST_SUFFIX.toNat < B) {fuel : Nat}
    (hfuel : B < fuel) {toks : List CStr} (hw : hl.Wf) (hb : hl.Below B)
    (hlt : ∀ tok ∈ toks, ∀ r ∈ bracketRanges tok, r.hi.toNat < B) :
    Run.Rel (Option.Rel fun ps hl' => Appended B hl (ps.flatMap Piece.names) hl')
      (parsePieces slack toks) (createLoop fuel slack toks hl) := by
  induction toks generalizing hl with
  | nil => exact Option.Rel.some (Appended.refl hw hb)
  | cons tok rest ih =>
      rw [parsePieces, createLoop, createToken_eq]
      cases hp : parsePiece slack tok with
      | exit e => rfl
      | hang => trivial
      | ret piece =>
          cases piece with
          | none => exact Option.Rel.none
          | some p =>
              have hpb : p.Below B := by
                rw [Piece.Below, ← bracketRanges_eq hp]
                exact hlt tok (by simp)
              obtain ⟨hl', hret, happ⟩ := pushPiece_appended hB hsfx hfuel hw hb (parsePiece_ok hp) hpb
              have hrest := ih happ.wf happ.below fun t ht => hlt t (List.mem_cons_of_mem _ ht)
              simp only [Run.ret_bind, hret, Run.pure_eq]
              rw [← Run.bind_ret (createLoop fuel slack rest hl')]
              refine hrest.bind fun ps r _ _ hrel => ?_
              cases hrel with
              | none => exact Option.Rel.none
              | some h => exact Option.Rel.some (happ.trans h)

/-- `hostlist_create` makes a list of exactly the names the expression stands
for, or fails as reading it does. -/
theorem hostlistCreate_rel (slack : CStr) (hB : B ≤ ULONG_MAX.toNat) (hsfx : MAX_HOST_SUFFIX.toNat < B)
    {str : CStr} (hlt : NumbersBelow B str) :
    Run.Rel (Option.Rel fun names hl => Appended B hostlistNew names hl) (expand slack str)
      (hostlistCreate slack str) := by
  have hM := ULONG_MAX_toNat
  have hrel := createLoop_rel slack hB hsfx (show B < 2 ^ 64 by omega)
    hostlistNew_wf (show hostlistNew.Below B by simp [Hostlist.Below, hostlistNew]) hlt
  rw [← Run.bind_ret (hostlistCreate slack str)]
  refine hrel.bind fun ps r _ _ h => ?_
  cases h with
  | none => exact Option.Rel.none
  | some h => exact Option.Rel.some h

/-- The lists `hostlist_create` and `hostlist_push` make, from strings whose
numbers are below `B`. -/
inductive Built (B : Nat) : Hostlist → Prop where
  | create {slack str : CStr} {hl : Hostlist} (hnum : NumbersBelow B str)
      (h : hostlistCreate slack str = .ret (some hl)) : Built B hl
  | push {slack str : CStr} {hl : Hostlist} {r : Int32 × Hostlist} (hb : Built B hl)
      (hnum : NumbersBelow B str) (h : hostlistPush slack hl str = .ret r) : Built B r.2

theorem hostlistCreate_some (hB : B ≤ ULONG_MAX.toNat) (hsfx : MAX_HOST_SUFFIX.toNat < B)
    {slack str : CStr} {hl : Hostlist} (hnum : NumbersBelow B str)
    (h : hostlistCreate slack str = .ret (some hl)) :
    ∃ names, expand slack str = .ret (some names) ∧ Appended B hostlistNew names hl := by
  have hrel := hostlistCreate_rel slack hB hsfx hnum
  rw [h] at hrel
  obtain ⟨names, hexp, hrel⟩ := hrel.ret_right
  cases hrel with
  | some happ => exact ⟨_, hexp, happ⟩

/-- `hostlist_push` leaves the list alone or appends what was read. -/
theorem hostlistPush_ret (hB : B ≤ ULONG_MAX.toNat) (hsfx : MAX_HOST_SUFFIX.toNat < B)
    {slack str : CStr} (hw : hl.Wf) (hb : hl.Below B) (hnum : NumbersBelow B str)
    {r : Int32 × Hostlist} (h : hostlistPush slack hl str = .ret r) :
    r = (0, hl) ∨ ∃ names, expand slack str = .ret (some names) ∧ Appended B hl names r.2 := by
  obtain ⟨new, hnew, hr⟩ := Run.bind_eq_ret_iff.mp h
  cases new with
  | none =>
      cases hr
      exact .inl rfl
  | some new =>
      obtain ⟨names, hexp, happ⟩ := hostlistCreate_some hB hsfx hnum hnew
      cases hr
      refine .inr ⟨names, hexp, ?_⟩
      have hpush := (hostlistPushList_spec hB hw hb happ.wf happ.below).1
      have hnames : new.names = names := by simpa using happ.names
      rwa [hnames] at hpush

/-- `hostlist_push` ends as reading does, and appends what was read; nothing when
the expression is rejected. -/
theorem hostlistPush_rel (slack : CStr) (hB : B ≤ ULONG_MAX.toNat) (hsfx : MAX_HOST_SUFFIX.toNat < B)
    {str : CStr} (hw : hl.Wf) (hb : hl.Below B) (hnum : NumbersBelow B str) :
    Run.Rel (fun o r => Appended B hl (o.getD []) r.2) (expand slack str)
      (hostlistPush slack hl str) := by
  have hrel := hostlistCreate_rel slack hB hsfx hnum
  unfold hostlistPush
  rw [← Run.bind_ret (expand slack str)]
  apply hrel.bind
  intro o new _ _ h
  cases h with
  | none => exact Appended.refl hw hb
  | some happ =>
      have hpush := (hostlistPushList_spec hB hw hb happ.wf happ.below).1
      rw [happ.names, hostlistNew_names, List.nil_append] at hpush
      exact hpush

theorem Built.wf (hB : B ≤ ULONG_MAX.toNat) (hsfx : MAX_HOST_SUFFIX.toNat < B)
    (hb : Built B hl) : hl.Wf ∧ hl.Below B := by
  induction hb with
  | create hnum h =>
      obtain ⟨_, -, happ⟩ := hostlistCreate_some hB hsfx hnum h
      exact ⟨happ.wf, happ.below⟩
  | push _ hnum h ih =>
      rcases hostlistPush_ret hB hsfx ih.1 ih.2 hnum h with rfl | ⟨_, -, happ⟩
      · exact ih
      · exact ⟨happ.wf, happ.below⟩

end Pdsh
