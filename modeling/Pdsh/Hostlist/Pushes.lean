import Pdsh.Hostlist.Termination
import Pdsh.Hostlist.Token

/-!
# Host lists as ranges that were pushed

`hostlist_create` pushes ranges, one after the other, onto an empty list (`createLoop_some_iff`).
Each push appends the names of its range, but for one case: a range that begins with 0 is taken
for the continuation of one that ends with `ULONG_MAX`. Even then no name is there that was not
pushed (`pushRanges_subset`), and where it does not occur the names are all there, in order
(`pushRanges_stored`). No bound on the numbers is needed.
-/

namespace Pdsh

open Lib Lib.Decimal

variable {hl hl' : Hostlist} {r r' t : Hostrange} {rs rs' : List Hostrange}

/-- The ranges pushed one after the other. -/
def pushRanges (hl : Hostlist) (rs : List Hostrange) : Hostlist :=
  rs.foldl (fun hl hr => (hostlistPushRange hl hr).1) hl

theorem pushRanges_append (hl : Hostlist) (rs rs' : List Hostrange) :
    pushRanges hl (rs ++ rs') = pushRanges (pushRanges hl rs) rs' := List.foldl_append

theorem hostlistPushListLoop_fst (rs : List Hostrange) (hl : Hostlist) (n : Int32) :
    (hostlistPushListLoop rs hl n).1 = pushRanges hl rs := by
  induction rs generalizing hl n with
  | nil => rfl
  | cons hr rs ih => exact ih _ _

/-- The ranges that are pushed for a piece. -/
def Piece.pushes : Piece → List Hostrange
  | .host name => [hostrangeOfHost name]
  | .ranges pfx rs => rs.map fun r => hostrangeCreate pfx r.lo r.hi r.width
  | .suffixed pfx rs sfx => (Piece.suffixed pfx rs sfx).names.map hostrangeCreateSingle

theorem Piece.pushes_names (p : Piece) : p.pushes.flatMap Hostrange.names = p.names := by
  cases p with
  | host name =>
      unfold pushes
      rw [List.flatMap_singleton]
      exact hostrangeOfHost_names name
  | ranges pfx rs =>
      unfold pushes names
      rw [List.flatMap_map]
      rfl
  | suffixed pfx rs sfx =>
      unfold pushes
      rw [List.flatMap_map]
      simp

/-- The ranges of a piece with numbers below `B` are not empty, and below `B` as well. -/
theorem Piece.pushes_below {B : Nat} {p : Piece} (hsfx : MAX_HOST_SUFFIX.toNat < B) (hok : p.Ok)
    (hlt : p.Below B) : ∀ hr ∈ p.pushes, hr.Wf ∧ hr.hi.toNat < B := by
  intro hr hmem
  cases p with
  | host name =>
      rw [List.mem_singleton.mp hmem]
      have hle := hostrangeOfHost_hi_le name
      exact ⟨hostrangeOfHost_wf name, by omega⟩
  | ranges pfx rs =>
      obtain ⟨r, hr, rfl⟩ := List.mem_map.mp hmem
      exact ⟨hostrangeCreate_wf (hok.le r hr), hlt r hr⟩
  | suffixed pfx rs sfx =>
      obtain ⟨name, -, rfl⟩ := List.mem_map.mp hmem
      exact ⟨hostrangeCreateSingle_wf name, Nat.zero_lt_of_lt hsfx⟩

theorem pushPiece_eq {p : Piece} (h : p.endless = false) (hl : Hostlist) :
    pushPiece (2 ^ 64) hl p = .ret (pushRanges hl p.pushes) := by
  cases p with
  | host name => rfl
  | ranges pfx rs =>
      unfold Piece.pushes pushRanges
      rw [List.foldl_map]
      rfl
  | suffixed pfx rs sfx =>
      have hhi : ∀ r ∈ rs, r.hi ≠ ULONG_MAX := by
        simpa [Piece.endless] using h
      have hbound : ∀ r ∈ rs, r.hi.toNat + 1 < 2 ^ 64 := by
        intro r hr
        have hne : r.hi.toNat ≠ ULONG_MAX.toNat := fun heq => hhi r hr (UInt64.toNat_inj.mp heq)
        have hlt := r.hi.toNat_lt
        have hM := ULONG_MAX_toNat
        omega
      unfold Piece.pushes pushRanges
      rw [List.foldl_map]
      exact pushRangeListWithSuffix_eq hhi hbound hl

/-- The list that is made: all pieces are read, none of them is endless, and all their ranges
are pushed. -/
theorem createLoop_some_iff {slack : CStr} {toks : List CStr} :
    createLoop (2 ^ 64) slack toks hl = .ret (some hl') ↔
      ∃ ps, parsePieces slack toks = .ret (some ps) ∧ (∀ p ∈ ps, p.endless = false) ∧
        hl' = pushRanges hl (ps.flatMap Piece.pushes) := by
  induction toks generalizing hl with
  | nil =>
      constructor
      · intro h
        cases h
        exact ⟨[], rfl, by simp, rfl⟩
      · rintro ⟨ps, hps, -, rfl⟩
        cases hps
        rfl
  | cons tok toks ih =>
      rw [createLoop, createToken_eq, parsePieces]
      cases hp : parsePiece slack tok with
      | exit e => simp
      | hang => simp
      | ret piece =>
          cases piece with
          | none => simp
          | some p =>
              simp only [Run.ret_bind]
              cases hend : p.endless with
              | true =>
                  -- the loop over the numbers does not end, so there is no list
                  rw [pushPiece_endless hend]
                  constructor
                  · intro h
                    cases h
                  · rintro ⟨ps, hps, hno, -⟩
                    obtain ⟨ps', -, hmap⟩ := Run.bind_eq_ret_iff.mp hps
                    cases ps' with
                    | none => cases hmap
                    | some ps' =>
                        cases hmap
                        have := hno p List.mem_cons_self
                        rw [hend] at this
                        cases this
              | false =>
                  rw [pushPiece_eq hend]
                  simp only [Run.ret_bind, Run.pure_eq]
                  rw [ih]
                  constructor
                  · rintro ⟨ps, hps, hno, rfl⟩
                    refine ⟨p :: ps, by rw [hps]; rfl, List.forall_mem_cons.mpr ⟨hend, hno⟩, ?_⟩
                    rw [List.flatMap_cons, pushRanges_append]
                  · rintro ⟨ps, hps, hno, rfl⟩
                    obtain ⟨ps', hps', hmap⟩ := Run.bind_eq_ret_iff.mp hps
                    cases ps' with
                    | none => cases hmap
                    | some ps' =>
                        cases hmap
                        refine ⟨ps', hps', (List.forall_mem_cons.mp hno).2, ?_⟩
                        rw [List.flatMap_cons, pushRanges_append]

/-! ## One push -/

/-- `r'` becomes the list behind a push of `r`. -/
inductive PushedOn (l : List Hostrange) (r : Hostrange) (l' : List Hostrange) : Prop where
  /-- The last range goes on. -/
  | merged {pre : List Hostrange} {tail : Hostrange} {w : Nat} (hl : l = pre ++ [tail])
      (pfx : tail.pfx = r.pfx) (kind : tail.singlehost = r.singlehost) (next : tail.hi = r.lo - 1)
      (left : padding w tail.lo.toNat = padding tail.width tail.lo.toNat)
      (right : padding w r.lo.toNat = padding r.width r.lo.toNat)
      (hl' : l' = pre ++ [{ tail with width := w, hi := r.hi }])
  /-- A copy is appended. -/
  | appended (hl' : l' = l ++ [hostrangeCopy r])

theorem hostlistPushRange_on (hn : hl.nranges = hl.hr.length) (r : Hostrange) :
    (hostlistPushRange hl r).1.nranges = (hostlistPushRange hl r).1.hr.length ∧
      PushedOn hl.hr r (hostlistPushRange hl r).1.hr := by
  unfold hostlistPushRange
  split
  case h_1 t r' heq =>
    obtain ⟨tail, htail, hcomb⟩ := Option.bind_eq_some_iff.mp heq
    obtain ⟨pre, hhr, hpfx, hs, hhi⟩ := hostlistTail_some hn htail
    obtain ⟨w, hr', -, hp, hpr⟩ := hostrangeWidthCombine_some hcomb
    obtain ⟨rfl, rfl⟩ := Prod.mk.inj hr'
    have hidx : hl.nranges - 1 = pre.length := by
      rw [hn, hhr]
      simp
    simp only [hidx]
    rw [hhr, storeRange_mid]
    exact ⟨by simp [hn, hhr], .merged rfl hpfx hs hhi hp hpr rfl⟩
  case h_2 =>
    simp only [hn, storeRange_length]
    exact ⟨by simp, .appended rfl⟩

/-- A single host holds no number. -/
def Hostrange.Unnumbered (r : Hostrange) : Prop := r.singlehost = true → r.lo = 0 ∧ r.hi = 0

theorem hostrangeCopy_unnumbered (r : Hostrange) : (hostrangeCopy r).Unnumbered := by
  intro hs
  unfold hostrangeCopy at hs ⊢
  split
  · exact ⟨rfl, rfl⟩
  · rename_i hnot
    rw [if_neg hnot] at hs
    cases hs

/-- A range that goes on where another one ends: both hold numbers. -/
theorem PushedOn.numbered {tail : Hostrange} (ht : tail.Unnumbered) (hr : r.Unnumbered)
    (kind : tail.singlehost = r.singlehost) (next : tail.hi = r.lo - 1) : r.singlehost = false := by
  rw [Bool.eq_false_iff]
  intro hs
  rw [(hr hs).1, (ht (kind.trans hs)).2] at next
  exact absurd next (by decide)

theorem toNat_sub_one {n : UInt64} (h : n ≠ 0) : (n - 1).toNat + 1 = n.toNat := by
  have hne : n.toNat ≠ 0 := fun h0 => h (UInt64.toNat_inj.mp h0)
  have hone : (1 : UInt64).toNat = 1 := rfl
  rw [UInt64.toNat_sub_of_le _ _ (UInt64.le_iff_toNat_le.mpr (by omega)), hone]
  omega

/-- A push adds no name but those of its range. -/
theorem PushedOn.subset {l l' : List Hostrange} (h : PushedOn l r l') (hl : ∀ t ∈ l, t.Unnumbered)
    (hr : r.Unnumbered) :
    (∀ t ∈ l', t.Unnumbered) ∧
      ∀ name ∈ l'.flatMap Hostrange.names, name ∈ l.flatMap Hostrange.names ∨ name ∈ r.names := by
  cases h with
  | @merged pre tail w heq pfx kind next left right heq' =>
      subst heq heq'
      have hkind := PushedOn.numbered (hl tail (by simp)) hr kind next
      have hkindt : tail.singlehost = false := kind.trans hkind
      constructor
      · intro t ht
        rcases List.mem_append.mp ht with ht | ht
        · exact hl t (by simp [ht])
        · rw [List.mem_singleton.mp ht]
          intro hs
          rw [hkindt] at hs
          cases hs
      · intro name hname
        rw [List.flatMap_append, List.flatMap_singleton] at hname ⊢
        rcases List.mem_append.mp hname with hname | hname
        · exact .inl (List.mem_append_left _ hname)
        · have hname' := hname
          rw [@Hostrange.names_block { tail with width := w, hi := r.hi } hkindt, mem_block] at hname'
          obtain ⟨k, hlo, hhi, rfl⟩ := hname'
          simp only at hlo hhi
          -- a number of the joined range is one of the new range, or below it and one of the last
          by_cases hk : r.lo.toNat ≤ k
          · refine .inr ?_
            rw [Hostrange.names_block hkind, mem_block]
            exact ⟨k, hk, by omega, by rw [pfx, pad_congr (padding_eq_mono hk right)]⟩
          · refine .inl (List.mem_append_right _ ?_)
            have hlo0 : r.lo ≠ 0 := by
              rintro h0
              rw [h0] at hk
              exact hk (Nat.zero_le _)
            have hend := toNat_sub_one hlo0
            rw [← next] at hend
            rw [Hostrange.names_block hkindt, mem_block]
            exact ⟨k, hlo, by omega, by rw [pad_congr (padding_eq_mono hlo left)]⟩
  | appended heq' =>
      subst heq'
      constructor
      · intro t ht
        rcases List.mem_append.mp ht with ht | ht
        · exact hl t ht
        · rw [List.mem_singleton.mp ht]
          exact hostrangeCopy_unnumbered r
      · intro name hname
        rw [List.flatMap_append, List.flatMap_singleton, hostrangeCopy_names] at hname
        exact List.mem_append.mp hname

/-- `r'` is not taken for the continuation of `r` by mistake: where `r` ends with `ULONG_MAX` and
`r'` begins with 0 behind the same prefix, `r` begins with another 0. -/
def Clear (r r' : Hostrange) : Prop :=
  r.hi = ULONG_MAX → r'.lo = 0 → r.singlehost = false → r'.singlehost = false → r.pfx = r'.pfx →
    r.lo = 0 ∧ pad r.width 0 ≠ pad r'.width 0

/-- What the last range keeps of the range that was pushed last. -/
structure EndsWith (l : List Hostrange) (r : Hostrange) : Prop where
  last : ∃ pre t, l = pre ++ [t] ∧ t.hi = r.hi ∧ t.pfx = r.pfx ∧ t.singlehost = r.singlehost ∧
    (r.lo = 0 → t = hostrangeCopy r)

theorem EndsWith.clear {l : List Hostrange} (h : EndsWith l r) (hc : Clear r r') :
    ∀ pre t, l = pre ++ [t] → Clear t r' := by
  intro pre t heq hmax hlo hs hs' hpfx
  obtain ⟨pre', t', heq', hhi, hpfx', hkind, hcopy⟩ := h.last
  obtain ⟨-, hlast⟩ := List.append_inj' (heq.symm.trans heq') rfl
  obtain rfl : t = t' := List.singleton_inj.mp hlast
  rw [hkind] at hs
  obtain ⟨hlo0, hne⟩ := hc (hhi ▸ hmax) hlo hs hs' (hpfx' ▸ hpfx)
  rw [hcopy hlo0, hostrangeCopy, if_neg (by simp [hs])]
  exact ⟨hlo0, hne⟩

@[simp] theorem hostrangeCopy_stored (r : Hostrange) : (hostrangeCopy r).stored = r.stored := by
  unfold Hostrange.stored
  rw [hostrangeCopy_names, hostrangeCopy_singlehost]

/-- A push appends the names of its range, stored as they are there, where it is not taken for a
continuation by mistake. -/
theorem PushedOn.stored {l l' : List Hostrange} (h : PushedOn l r l') (hl : ∀ t ∈ l, t.Wf) (hr : r.Wf)
    (hclear : ∀ pre t, l = pre ++ [t] → Clear t r) :
    (∀ t ∈ l', t.Wf) ∧ EndsWith l' r ∧
      l'.flatMap Hostrange.stored = l.flatMap Hostrange.stored ++ r.stored := by
  cases h with
  | @merged pre tail w heq pfx kind next left right heq' =>
      subst heq heq'
      have ht := hl tail (by simp)
      have hkind := PushedOn.numbered ht.single hr.single kind next
      have hkindt : tail.singlehost = false := kind.trans hkind
      have hlo0 : r.lo ≠ 0 := by
        intro h0
        have hmax : tail.hi = ULONG_MAX := by
          rw [next, h0]
          rfl
        -- two texts that one width writes, for the same 0
        obtain ⟨ht0, hne⟩ := hclear pre tail rfl hmax h0 hkindt hkind pfx
        rw [ht0] at left
        rw [h0] at right
        exact hne (pad_congr (left.symm.trans right))
      have hend := toNat_sub_one hlo0
      rw [← next] at hend
      have htw : Hostrange.Wf { tail with width := w } := ⟨ht.le, by simp [hkindt]⟩
      have hrw : Hostrange.Wf { r with width := w } := ⟨hr.le, by simp [hkind]⟩
      have hmerge := names_merge htw hrw pfx hkindt hkind rfl hend
      rw [Hostrange.names_width left, Hostrange.names_width right] at hmerge
      refine ⟨fun t hmem => ?_, ⟨pre, _, rfl, rfl, pfx, kind, fun h0 => absurd h0 hlo0⟩, ?_⟩
      · rcases List.mem_append.mp hmem with hmem | hmem
        · exact hl t (by simp [hmem])
        · rw [List.mem_singleton.mp hmem]
          have hle := ht.le
          have hle' := hr.le
          exact ⟨by simp only; omega, by simp [hkindt]⟩
      · simp only [List.flatMap_append, List.flatMap_singleton, List.append_assoc, Hostrange.stored]
        rw [← kind, ← List.map_append, ← hmerge]
  | appended heq' =>
      subst heq'
      obtain ⟨-, hhi⟩ := hostrangeCopy_bounds hr
      refine ⟨fun t hmem => ?_, ⟨l, _, rfl, hhi, hostrangeCopy_pfx r, hostrangeCopy_singlehost r,
        fun _ => rfl⟩, ?_⟩
      · rcases List.mem_append.mp hmem with hmem | hmem
        · exact hl t hmem
        · rw [List.mem_singleton.mp hmem]
          exact hr.copy
      · rw [List.flatMap_append, List.flatMap_singleton, hostrangeCopy_stored]

/-! ## All pushes -/

/-- No name is there that was not pushed. -/
theorem pushRanges_subset (hn : hl.nranges = hl.hr.length) (hl' : ∀ t ∈ hl.hr, t.Unnumbered)
    (hrs : ∀ r ∈ rs, r.Unnumbered) :
    ∀ name ∈ (pushRanges hl rs).names, name ∈ hl.names ∨ name ∈ rs.flatMap Hostrange.names := by
  induction rs generalizing hl with
  | nil => exact fun name hname => .inl hname
  | cons r rs ih =>
      intro name hname
      obtain ⟨hn', hon⟩ := hostlistPushRange_on hn r
      obtain ⟨hr, hrest⟩ := List.forall_mem_cons.mp hrs
      obtain ⟨hkept, hsub⟩ := hon.subset hl' hr
      rw [List.flatMap_cons, List.mem_append]
      rcases ih hn' hkept hrest name hname with hname | hname
      · exact (hsub name hname).imp_right .inl
      · exact .inr (.inr hname)

theorem pushRanges_stored (hn : hl.nranges = hl.hr.length) (hw : ∀ t ∈ hl.hr, t.Wf)
    (hrs : ∀ r ∈ rs, r.Wf) (hclear : rs.IsChain Clear)
    (hend : ∀ r ∈ rs.head?, ∀ pre t, hl.hr = pre ++ [t] → Clear t r) :
    (pushRanges hl rs).stored = hl.stored ++ rs.flatMap Hostrange.stored := by
  induction rs generalizing hl with
  | nil => simp [pushRanges]
  | cons r rs ih =>
      obtain ⟨hn', hon⟩ := hostlistPushRange_on hn r
      obtain ⟨hr, hrest⟩ := List.forall_mem_cons.mp hrs
      obtain ⟨hw', hlast, hstored⟩ := hon.stored hw hr (hend r rfl)
      have hnext : ∀ r' ∈ rs.head?, ∀ pre t, (hostlistPushRange hl r).1.hr = pre ++ [t] → Clear t r' := by
        intro r' hr'
        cases rs with
        | nil => cases hr'
        | cons r'' rs =>
            cases hr'
            exact hlast.clear (List.isChain_cons_cons.mp hclear).1
      have hall := ih hn' hw' hrest hclear.tail hnext
      rw [List.flatMap_cons, ← List.append_assoc]
      rw [pushRanges] at hall ⊢
      rw [List.foldl_cons, hall]
      unfold Hostlist.stored
      rw [hstored]

/-- No range that ends before `ULONG_MAX` is continued by mistake. -/
theorem pushRanges_stored_below (hw : hl.Wf) (hb : hl.Below ULONG_MAX.toNat) (hrs : ∀ r ∈ rs, r.Wf)
    (hlt : ∀ r ∈ rs, r.hi.toNat < ULONG_MAX.toNat) :
    (pushRanges hl rs).stored = hl.stored ++ rs.flatMap Hostrange.stored := by
  have hclear : ∀ r r' : Hostrange, r.hi.toNat < ULONG_MAX.toNat → Clear r r' :=
    fun r r' h hmax => absurd hmax (ne_ulongMax_of_lt h)
  apply pushRanges_stored hw.nranges hw.ranges hrs
  · exact List.Pairwise.isChain (List.pairwise_iff_forall_sublist.mpr fun hsub =>
      hclear _ _ (hlt _ (hsub.subset List.mem_cons_self)))
  · rintro r - pre t heq
    exact hclear t r (hb t (by simp [heq]))

/-! ## What `hostlist_create` and `hostlist_push` build -/

theorem pushRanges_ranges (hn : hl.nranges = hl.hr.length) (hl' : ∀ t ∈ hl.hr, t.Unnumbered)
    (hrs : ∀ r ∈ rs, r.Unnumbered) : (pushRanges hl rs).nranges = (pushRanges hl rs).hr.length ∧
      ∀ t ∈ (pushRanges hl rs).hr, t.Unnumbered := by
  induction rs generalizing hl with
  | nil => exact ⟨hn, hl'⟩
  | cons r rs ih =>
      obtain ⟨hn', hon⟩ := hostlistPushRange_on hn r
      obtain ⟨hr, hrest⟩ := List.forall_mem_cons.mp hrs
      exact ih hn' (hon.subset hl' hr).1 hrest

theorem numbersBelow_all (str : CStr) : NumbersBelow (2 ^ 64) str := fun _ _ r _ => r.hi.toNat_lt

/-- What is created was pushed, range by range, onto the empty list. -/
theorem hostlistCreate_pushed {slack str : CStr} (h : hostlistCreate slack str = .ret (some hl)) :
    ∃ ps, parsePieces slack (tokens hostlistSep str) = .ret (some ps) ∧
      (∀ r ∈ ps.flatMap Piece.pushes, r.Wf) ∧ hl = pushRanges hostlistNew (ps.flatMap Piece.pushes) := by
  obtain ⟨ps, hps, -, heq⟩ := createLoop_some_iff.mp h
  refine ⟨ps, hps, fun r hr => ?_, heq⟩
  obtain ⟨p, hp, hpush⟩ := List.mem_flatMap.mp hr
  obtain ⟨tok, -, hparse⟩ := Chunks.exists_of_forall₂ (parsePieces_some_iff.mp hps) hp
  have hlt : p.Below (2 ^ 64) := by
    rw [Piece.Below, ← bracketRanges_eq hparse]
    exact fun r _ => r.hi.toNat_lt
  exact (Piece.pushes_below (by decide) (parsePiece_ok hparse) hlt r hpush).1

/-- So is what is pushed. -/
theorem hostlistPush_pushed {slack str : CStr} {r : Int32 × Hostlist} (h : hostlistPush slack hl str = .ret r) :
    r.2 = hl ∨ ∃ new, hostlistCreate slack str = .ret (some new) ∧
      r.2 = pushRanges hl (new.hr.take new.nranges) := by
  obtain ⟨o, hcreate, hnew⟩ := Run.bind_eq_ret_iff.mp h
  cases o with
  | none =>
      cases hnew
      exact .inl rfl
  | some new =>
      cases hnew
      exact .inr ⟨new, hcreate, hostlistPushListLoop_fst _ _ _⟩

theorem Built.ranges {B : Nat} (hb : Built B hl) :
    hl.nranges = hl.hr.length ∧ ∀ t ∈ hl.hr, t.Unnumbered := by
  have hcreated {slack str : CStr} {hl : Hostlist} (h : hostlistCreate slack str = .ret (some hl)) :
      hl.nranges = hl.hr.length ∧ ∀ t ∈ hl.hr, t.Unnumbered := by
    obtain ⟨ps, -, hw, rfl⟩ := hostlistCreate_pushed h
    exact pushRanges_ranges rfl (fun t ht => absurd ht List.not_mem_nil) fun r hr => (hw r hr).single
  induction hb with
  | create _ h => exact hcreated h
  | push _ _ h ih =>
      rcases hostlistPush_pushed h with heq | ⟨new, hnew, heq⟩
      · rw [heq]
        exact ih
      · rw [heq]
        exact pushRanges_ranges ih.1 ih.2 fun r hr => (hcreated hnew).2 r (List.mem_of_mem_take hr)

end Pdsh
