import Pdsh.Hostlist.Piece

/-!
# When parsing comes to an end

The tokenizer and the range parser consume their input. The loops that push a
range count an `unsigned long` up to an inclusive bound, and `ULONG_MAX` is a
bound nothing is above: a bracket with text behind it and a range that ends
there is pushed for ever. `hostlist_create` ends exactly when it does not get
to such a token.
-/

namespace Pdsh

open Lib

/-- A piece whose hosts are pushed for ever. -/
def Piece.endless : Piece → Bool
  | .suffixed _ rs _ => rs.any (·.hi = ULONG_MAX)
  | _ => false

/-- Reading the tokens in order gets to an endless piece: all before it are
accepted. -/
def reachesEndless (slack : CStr) : List CStr → Bool
  | [] => false
  | tok :: rest =>
      match parsePiece slack tok with
      | .ret (some piece) => piece.endless || reachesEndless slack rest
      | _ => false

/-- A range is pushed to its end or for ever; the process never ends in it. -/
theorem pushRangeListWithSuffix_cases (fuel : Nat) (hl : Hostlist) (pfx sfx : CStr)
    (rs : List Range) :
    (∃ hl', pushRangeListWithSuffix fuel hl pfx sfx rs = .ret hl') ∨
      pushRangeListWithSuffix fuel hl pfx sfx rs = .hang := by
  have hloop : ∀ (rng : Range) (fuel : Nat) (j : UInt64) (hl : Hostlist),
      (∃ hl', pushSuffixedLoop pfx sfx rng fuel j hl = .ret hl') ∨
        pushSuffixedLoop pfx sfx rng fuel j hl = .hang := by
    intro rng fuel
    induction fuel with
    | zero => exact fun _ _ => .inr rfl
    | succ fuel ih =>
        intro j hl
        rw [pushSuffixedLoop]
        split
        · exact ih _ _
        · exact .inl ⟨hl, rfl⟩
  induction rs generalizing hl with
  | nil => exact .inl ⟨hl, rfl⟩
  | cons r rs ih =>
      rw [pushRangeListWithSuffix]
      rcases hloop r fuel r.lo hl with ⟨hl', hret⟩ | hhang
      · rw [hret, Run.ret_bind]
        exact ih hl'
      · rw [hhang]
        exact .inr rfl

/-- One range up to `ULONG_MAX` is enough to push for ever. -/
theorem pushRangeListWithSuffix_hang {pfx sfx : CStr} {rs : List Range} {r : Range} (hr : r ∈ rs)
    (hhi : r.hi = ULONG_MAX) (fuel : Nat) (hl : Hostlist) :
    pushRangeListWithSuffix fuel hl pfx sfx rs = .hang := by
  induction rs generalizing hl with
  | nil => simp at hr
  | cons x rs ih =>
      rw [pushRangeListWithSuffix]
      rcases List.mem_cons.mp hr with rfl | hr
      · rw [pushSuffixedLoop_hang hhi]
        rfl
      · rcases pushRangeListWithSuffix_cases fuel hl pfx sfx [x] with ⟨hl', hret⟩ | hhang
        · rw [pushRangeListWithSuffix] at hret
          obtain ⟨hl'', hone, -⟩ := Run.bind_eq_ret_iff.mp hret
          rw [hone, Run.ret_bind]
          exact ih hr hl''
        · rw [pushRangeListWithSuffix] at hhang
          cases hone : pushSuffixedLoop pfx sfx x fuel x.lo hl with
          | ret hl' =>
              rw [hone] at hhang
              cases hhang
          | exit e =>
              rw [hone] at hhang
              cases hhang
          | hang => rfl

theorem pushPiece_endless {p : Piece} (h : p.endless = true) (fuel : Nat) (hl : Hostlist) :
    pushPiece fuel hl p = .hang := by
  cases p with
  | host name => cases h
  | ranges pfx rs => cases h
  | suffixed pfx rs sfx =>
      obtain ⟨r, hr, hhi⟩ := List.any_eq_true.mp h
      exact pushRangeListWithSuffix_hang hr (by simpa using hhi) fuel hl

theorem pushPiece_cases (fuel : Nat) (hl : Hostlist) (p : Piece) :
    (∃ hl', pushPiece fuel hl p = .ret hl') ∨ pushPiece fuel hl p = .hang := by
  cases p with
  | host name => exact .inl ⟨_, rfl⟩
  | ranges pfx rs => exact .inl ⟨_, rfl⟩
  | suffixed pfx rs sfx => exact pushRangeListWithSuffix_cases fuel hl pfx sfx rs

/-- Any other piece is pushed within `2^64` rounds for each of its ranges. -/
theorem pushPiece_ret {p : Piece} (h : p.endless = false) (hl : Hostlist) :
    ∃ hl', pushPiece (2 ^ 64) hl p = .ret hl' := by
  cases p with
  | host name => exact ⟨_, rfl⟩
  | ranges pfx rs => exact ⟨_, rfl⟩
  | suffixed pfx rs sfx =>
      have hhi : ∀ r ∈ rs, r.hi ≠ ULONG_MAX := by
        simpa [Piece.endless] using h
      refine ⟨_, pushRangeListWithSuffix_eq hhi (fun r hr => ?_) hl⟩
      have hne : r.hi.toNat ≠ ULONG_MAX.toNat := fun heq => hhi r hr (UInt64.toNat_inj.mp heq)
      have hlt := r.hi.toNat_lt
      have hM := ULONG_MAX_toNat
      omega

theorem parseSingleRange_ends (str : CStr) : Run.Ends (parseSingleRange str) := by
  unfold parseSingleRange Run.Ends
  simp only
  split
  · simp
  split
  · simp
  split
  · simp
  split
  · simp
  split <;> simp

theorem parseRangeListLoop_ends (strs : List CStr) (len : Nat) :
    Run.Ends (parseRangeListLoop strs len) := by
  induction strs generalizing len with
  | nil => simp [parseRangeListLoop, Run.Ends]
  | cons str rest ih =>
      cases len with
      | zero => simp [parseRangeListLoop, Run.Ends]
      | succ len =>
          rw [parseRangeListLoop]
          refine (parseSingleRange_ends str).bind fun r _ => (ih len).bind fun rs _ => ?_
          simp [Run.Ends]

/-- Reading a token ends. -/
theorem parsePiece_ends (slack tok : CStr) : Run.Ends (parsePiece slack tok) := by
  unfold parsePiece
  split
  · split
    · refine (parseRangeListLoop_ends _ _).bind fun rs _ => ?_
      simp [Run.Ends]
    · simp [Run.Ends]
  · split <;> simp [Run.Ends]

theorem createLoop_endless {slack : CStr} {toks : List CStr}
    (h : reachesEndless slack toks = true) (fuel : Nat) (hl : Hostlist) :
    createLoop fuel slack toks hl = .hang := by
  induction toks generalizing hl with
  | nil => cases h
  | cons tok rest ih =>
      rw [createLoop, createToken_eq]
      unfold reachesEndless at h
      split at h
      · rename_i p hp
        rw [hp]
        rw [Bool.or_eq_true] at h
        rcases h with h | h
        · simp [pushPiece_endless h]
        · rcases pushPiece_cases fuel hl p with ⟨hl', hret⟩ | hhang
          · simp [hret, ih h]
          · simp [hhang]
      · cases h

theorem createLoop_ends {slack : CStr} {toks : List CStr}
    (h : reachesEndless slack toks = false) (hl : Hostlist) :
    createLoop (2 ^ 64) slack toks hl ≠ .hang := by
  induction toks generalizing hl with
  | nil => exact fun hh => by cases hh
  | cons tok rest ih =>
      rw [createLoop, createToken_eq]
      unfold reachesEndless at h
      cases hp : parsePiece slack tok with
      | exit e => exact fun hh => by cases hh
      | hang => exact absurd hp (parsePiece_ends slack tok)
      | ret piece =>
          cases piece with
          | none => exact fun hh => by cases hh
          | some p =>
              simp only [hp, Bool.or_eq_false_iff] at h
              obtain ⟨hl', hret⟩ := pushPiece_ret h.1 hl
              simp only [Run.ret_bind, hret, Run.pure_eq]
              exact ih h.2 hl'

/-- `hostlist_create` ends, with a list, with NULL or with the process, exactly
on the strings that do not get it to an endless piece. -/
theorem hostlistCreate_ends_iff (slack str : CStr) :
    (∃ fuel, Run.Ends (hostlistCreateFuel fuel slack str)) ↔
      reachesEndless slack (tokens hostlistSep str) = false := by
  constructor
  · rintro ⟨fuel, hends⟩
    rw [← Bool.not_eq_true]
    exact fun h => hends (createLoop_endless h fuel hostlistNew)
  · exact fun h => ⟨2 ^ 64, createLoop_ends h hostlistNew⟩

/-- A range that is one number, the largest one, in front of a suffix. -/
theorem hostlistCreate_never_ends :
    ¬ ∃ fuel, Run.Ends (hostlistCreateFuel fuel [] "foo[18446744073709551615]x".toList) := by
  rintro ⟨fuel, hends⟩
  exact hends (createLoop_endless (by decide) fuel hostlistNew)

end Pdsh
