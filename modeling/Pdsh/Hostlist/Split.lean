import Pdsh.Hostlist.Uniq
import Pdsh.Lib.Interval

/-!
# One split of `hostlist_coalesce`

Two ranges that share numbers are divided: the part in front, the shared numbers one by one,
and the part behind. The pieces hold the names of both ranges (`pieces_names`), they are in
order (`pieces_sorted`), and they are what the inner loop makes (`coalesceSplit_spec`).
-/

namespace Pdsh

open Lib Lib.Decimal Lib.Interval

variable {h x y h' x' : Hostrange} {pre post l : List Hostrange} {hl : Hostlist} {p : CStr} {w : Nat}

/-! ## Which pairs are left as they are -/

/-- `hostrange_intersect` finds nothing: the two ranges share one number at most. -/
def Quiet (h x : Hostrange) : Prop :=
  ¬ (h.singlehost = false ∧ ByNumber h x ∧ x.lo.toNat < h.hi.toNat)

instance (a b : Hostrange) : Decidable (ByNumber a b) := inferInstanceAs (Decidable (_ ∧ _))

instance (h x : Hostrange) : Decidable (Quiet h x) := inferInstanceAs (Decidable (¬ _))

theorem Hostrange.Rewidth.quiet_iff (hh : h.Rewidth h') (hx : x.Rewidth x') : Quiet h' x' ↔ Quiet h x := by
  unfold Quiet
  rw [hh.byNumber hx, hh.pfx.2, hh.bounds.2, hx.bounds.1]

/-- What `hostrange_intersect` finds in two ranges, once they have the width `w`. -/
def common (h x : Hostrange) (w : Nat) : Hostrange :=
  hostrangeCreate h.pfx x.lo (if x.hi < h.hi then x.hi else h.hi) w

/-- What `hostrange_intersect` returns: no range, or what both have in common. -/
def Intersects (ndebug : Bool) (h x h' x' : Hostrange) : Prop :=
  h.Rewidth h' ∧ x.Rewidth x' ∧
    ((Quiet h x ∧ hostrangeIntersect ndebug h x = .ret (none, h', x')) ∨
      (¬ Quiet h x ∧ h'.width = x'.width ∧
        hostrangeIntersect ndebug h x = .ret (some (common h x h'.width), h', x')))

/-- Behind the assertion. -/
theorem hostrangeIntersect_asserted {ndebug : Bool} (hs : h.singlehost = false) (hsx : x.singlehost = false)
    (hr : h.Rewidth h') (hrx : x.Rewidth x') (hassert : assertOrdered ndebug h x = .ret (h', x')) :
    ∃ h' x', Intersects ndebug h x h' x' := by
  have hnot : ¬ (h.singlehost = true ∨ x.singlehost = true) := by
    rw [hs, hsx]
    decide
  unfold Intersects hostrangeIntersect
  rw [if_neg hnot, hassert, Run.ret_bind]
  simp only
  have hquiet : Quiet h' x' ↔ Quiet h x := hr.quiet_iff hrx
  have hs' : h'.singlehost = false := hr.pfx.2.trans hs
  by_cases hlo : hostrangePrefixCmp h' x' = 0 ∧ h'.hi > x'.lo
  · rw [if_pos hlo]
    cases hcomb : hostrangeWidthCombine h' x' with
    | none =>
        refine ⟨h', x', hr, hrx, .inl ⟨hquiet.mp ?_, rfl⟩⟩
        rintro ⟨-, ⟨-, hc⟩, -⟩
        rw [Combines, hcomb] at hc
        cases hc
    | some r =>
        obtain ⟨w, rfl, -, hpad, hpadx⟩ := hostrangeWidthCombine_some hcomb
        refine ⟨{ h' with width := w }, { x' with width := w }, hr.trans ⟨w, rfl, hpad⟩,
          hrx.trans ⟨w, rfl, hpadx⟩, .inr ⟨?_, rfl, ?_⟩⟩
        · intro hq
          refine hquiet.mpr hq ⟨hs', ⟨hlo.1, ?_⟩, hlo.2⟩
          rw [Combines, hcomb]
          rfl
        · unfold common hostrangeCopy
          simp only [hs', hr.pfx.1, hr.bounds.2, hrx.bounds.1, hrx.bounds.2]
          rfl
  · rw [if_neg hlo]
    refine ⟨h', x', hr, hrx, .inl ⟨hquiet.mp ?_, rfl⟩⟩
    rintro ⟨-, ⟨hk, -⟩, hlt⟩
    exact hlo ⟨hk, hlt⟩

/-- `hostrange_intersect` of two ranges in order. -/
theorem hostrangeIntersect_spec (ndebug : Bool) (hh : h.lo.toNat < 2 ^ 31) (hx : x.lo.toNat < 2 ^ 31)
    (hle : h.Le x) : ∃ h' x', Intersects ndebug h x h' x' := by
  by_cases hsingle : h.singlehost = true ∨ x.singlehost = true
  · refine ⟨h, x, .refl h, .refl x, .inl ⟨?_, ?_⟩⟩
    · rintro ⟨hs, hn, -⟩
      obtain ⟨-, hkind⟩ := hostrangePrefixCmp_eq_zero_iff.mp hn.1
      rw [← hkind, hs] at hsingle
      simp at hsingle
    · unfold hostrangeIntersect
      rw [if_pos hsingle]
      rfl
  · obtain ⟨h₁, x₁, hassert, hr, hrx⟩ := assertOrdered_ret ndebug hh hx hle
    simp only [not_or, Bool.not_eq_true] at hsingle
    exact hostrangeIntersect_asserted hsingle.1 hsingle.2 hr hrx hassert

/-! ## The pieces -/

/-- The names `lo .. hi` behind `p`, in a field of `w` characters. -/
def piece (p : CStr) (w : Nat) (d : Nat × Nat) : Hostrange :=
  hostrangeCreate p (UInt64.ofNat d.1) (UInt64.ofNat d.2) w

/-- What a split leaves of two ranges that have the width `w`. -/
def pieces (w : Nat) (h x : Hostrange) : List Hostrange :=
  (divide h.lo.toNat h.hi.toNat x.lo.toNat x.hi.toNat).map (piece h.pfx w)

theorem piece_bounds {d : Nat × Nat} (hd : d.1 < 2 ^ 31) (hd' : d.2 < 2 ^ 31) :
    (piece p w d).lo.toNat = d.1 ∧ (piece p w d).hi.toNat = d.2 := by
  unfold piece hostrangeCreate
  simp only [UInt64.toNat_ofNat']
  omega

/-- A range is the piece of its bounds. -/
theorem eq_piece {r : Hostrange} {d : Nat × Nat} (hpfx : r.pfx = p) (hwidth : r.width = w)
    (hkind : r.singlehost = false) (hlo : r.lo.toNat = d.1) (hhi : r.hi.toNat = d.2) : r = piece p w d := by
  obtain ⟨pfx, lo, hi, width, single⟩ := r
  simp only at hpfx hwidth hkind hlo hhi
  subst hpfx hwidth hkind
  simp only [piece, hostrangeCreate, ← hlo, ← hhi, UInt64.ofNat_toNat]

theorem piece_names {d : Nat × Nat} (hd : d.1 < 2 ^ 31) (hd' : d.2 < 2 ^ 31) :
    (piece p w d).names = (interval d.1 d.2).map fun n => p ++ pad w n := by
  obtain ⟨hlo, hhi⟩ := @piece_bounds p w d hd hd'
  rw [@Hostrange.names_block (piece p w d) rfl, hlo, hhi]
  rfl

theorem piece_field {d : Nat × Nat} (hd : d.1 < 2 ^ 31) (hd' : d.2 < 2 ^ 31) :
    (piece p w d).field = max w (numDigits d.1) := by
  unfold Hostrange.field
  rw [(@piece_bounds p w d hd hd').1]
  rfl

/-- Pieces of one kind are ordered by their numbers. -/
theorem piece_le {d e : Nat × Nat} (hd : d.1 < 2 ^ 31) (hd' : d.2 < 2 ^ 31) (he : e.1 < 2 ^ 31)
    (he' : e.2 < 2 ^ 31) (hle : d.1 ≤ e.1) : (piece p w d).Le (piece p w e) := by
  have hdigits := numDigits_mono hle
  refine .inr ⟨hostrangePrefixCmp_eq_zero_iff.mpr ⟨rfl, rfl⟩, ?_⟩
  rw [piece_field hd hd', piece_field he he', (piece_bounds hd hd').1, (piece_bounds he he').1]
  omega

/-- Two ranges that are not quiet, as they are when the split begins. -/
structure Crossing (w : Nat) (h x : Hostrange) : Prop where
  left : h.singlehost = false
  right : x.singlehost = false
  pfx : h.pfx = x.pfx
  width : h.width = w ∧ x.width = w
  wf : h.Wf ∧ x.Wf
  below : h.hi.toNat < 2 ^ 31 ∧ x.hi.toNat < 2 ^ 31
  lo_le : h.lo.toNat ≤ x.lo.toNat
  lo_lt : x.lo.toNat < h.hi.toNat

theorem Crossing.below_of_mem (hc : Crossing w h x) {d : Nat × Nat}
    (hd : d ∈ divide h.lo.toNat h.hi.toNat x.lo.toNat x.hi.toNat) :
    h.lo.toNat ≤ d.1 ∧ d.1 ≤ d.2 ∧ d.1 ≤ min h.hi.toNat x.hi.toNat ∧ d.1 < 2 ^ 31 ∧ d.2 < 2 ^ 31 := by
  have hmem := mem_divide hc.lo_le (Nat.le_of_lt hc.lo_lt) hc.wf.2.le hd
  have hbelow := hc.below
  omega

/-- The names of both ranges are in the pieces. -/
theorem pieces_names (hc : Crossing w h x) :
    ((pieces w h x).flatMap Hostrange.names).Perm (h.names ++ x.names) := by
  have hpieces : (pieces w h x).flatMap Hostrange.names =
      ((divide h.lo.toNat h.hi.toNat x.lo.toNat x.hi.toNat).flatMap fun d => interval d.1 d.2).map
        fun n => h.pfx ++ pad w n := by
    unfold pieces
    rw [List.flatMap_map, List.map_flatMap]
    refine List.flatMap_congr fun d hd => ?_
    obtain ⟨-, -, -, h₁, h₂⟩ := hc.below_of_mem hd
    exact piece_names h₁ h₂
  have hboth : h.names ++ x.names =
      (interval h.lo.toNat h.hi.toNat ++ interval x.lo.toNat x.hi.toNat).map fun n => h.pfx ++ pad w n := by
    rw [Hostrange.names_block hc.left, Hostrange.names_block hc.right, hc.width.1, hc.width.2, ← hc.pfx,
      List.map_append]
    rfl
  rw [hpieces, hboth]
  exact (divide_perm hc.lo_le (Nat.le_of_lt hc.lo_lt) hc.wf.2.le).map _

/-- The pieces are ranges of their own, none of which is empty. -/
theorem pieces_wf (hc : Crossing w h x) : ∀ r ∈ pieces w h x, r.Wf ∧ r.hi.toNat < 2 ^ 31 := by
  intro r hr
  obtain ⟨d, hd, rfl⟩ := List.mem_map.mp hr
  obtain ⟨-, hle, -, h₁, h₂⟩ := hc.below_of_mem hd
  obtain ⟨hlo, hhi⟩ := @piece_bounds h.pfx w d h₁ h₂
  refine ⟨hostrangeCreate_wf ?_, by omega⟩
  show (piece h.pfx w d).lo.toNat ≤ (piece h.pfx w d).hi.toNat
  omega

/-- The pieces are in order. -/
theorem pieces_sorted (hc : Crossing w h x) : Sorted (pieces w h x) := by
  have hsorted := divide_sorted hc.lo_le (Nat.le_of_lt hc.lo_lt) hc.wf.2.le
  refine List.pairwise_map.mpr (hsorted.imp_of_mem fun hd he hle => ?_)
  obtain ⟨-, -, -, h₁, h₂⟩ := hc.below_of_mem hd
  obtain ⟨-, -, -, h₃, h₄⟩ := hc.below_of_mem he
  exact piece_le h₁ h₂ h₃ h₄ hle

/-- The last piece ends where the longer range did, the others at shared numbers. -/
theorem pieces_front (hc : Crossing w h x) : ∃ front : List Hostrange,
    pieces w h x = front ++ [piece h.pfx w (min h.hi.toNat x.hi.toNat, max h.hi.toNat x.hi.toNat)] ∧
      ∀ r ∈ front, r.hi.toNat ≤ min h.hi.toNat x.hi.toNat := by
  obtain ⟨front, heq, hfront⟩ := @divide_front h.lo.toNat h.hi.toNat x.lo.toNat x.hi.toNat
    (Nat.le_of_lt hc.lo_lt) hc.wf.2.le
  refine ⟨front.map (piece h.pfx w), by rw [pieces, heq, List.map_append]; rfl, fun r hr => ?_⟩
  obtain ⟨d, hd, rfl⟩ := List.mem_map.mp hr
  obtain ⟨-, -, -, h₁, h₂⟩ := hc.below_of_mem (heq ▸ List.mem_append_left _ hd)
  rw [(piece_bounds h₁ h₂).2]
  exact hfront d hd

theorem last_piece (hc : Crossing w h x) :
    (piece h.pfx w (min h.hi.toNat x.hi.toNat, max h.hi.toNat x.hi.toNat)).lo.toNat =
        min h.hi.toNat x.hi.toNat ∧
      (piece h.pfx w (min h.hi.toNat x.hi.toNat, max h.hi.toNat x.hi.toNat)).hi.toNat =
        max h.hi.toNat x.hi.toNat ∧
      (piece h.pfx w (min h.hi.toNat x.hi.toNat, max h.hi.toNat x.hi.toNat)).field =
        max w (numDigits (min h.hi.toNat x.hi.toNat)) := by
  have hbelow := hc.below
  have h₁ : min h.hi.toNat x.hi.toNat < 2 ^ 31 := by omega
  have h₂ : max h.hi.toNat x.hi.toNat < 2 ^ 31 := by omega
  exact ⟨(piece_bounds h₁ h₂).1, (piece_bounds h₁ h₂).2, piece_field h₁ h₂⟩

/-- No piece comes before the left range. -/
theorem le_pieces (hc : Crossing w h x) : ∀ r ∈ pieces w h x, h.Le r := by
  intro r hr
  obtain ⟨d, hd, rfl⟩ := List.mem_map.mp hr
  obtain ⟨hle, -, -, h₁, h₂⟩ := hc.below_of_mem hd
  have hdigits := numDigits_mono hle
  refine .inr ⟨hostrangePrefixCmp_eq_zero_iff.mpr ⟨rfl, hc.left⟩, ?_⟩
  rw [piece_field h₁ h₂, (piece_bounds h₁ h₂).1, Hostrange.field, hc.width.1]
  omega

/-! ## The split -/

theorem insertIdx_here (done l : List Hostrange) (r : Hostrange) :
    (done ++ l).insertIdx done.length r = done ++ r :: l := by
  induction done with
  | nil => rfl
  | cons a done ih => rw [List.cons_append, List.length_cons, List.insertIdx_succ_cons, ih, List.cons_append]

/-- One range inserted behind `done`, or none. -/
theorem insertRange_if (c : Prop) [Decidable c] {r : Hostrange} {done : List Hostrange}
    (hr : r.singlehost = false) (hhr : hl.hr = done ++ l) (hn : hl.nranges = hl.hr.length) :
    (if c then (hostlistInsertRange hl r done.length, done.length + 1) else (hl, done.length)) =
      ({ hl with hr := (done ++ if c then [r] else []) ++ l,
                 nranges := hl.nranges + (if c then [r] else []).length },
        (done ++ if c then [r] else []).length) := by
  have hcopy : hostrangeCopy r = r := by
    unfold hostrangeCopy
    rw [hr]
    obtain ⟨pfx, lo, hi, width, s⟩ := r
    cases hr
    rfl
  by_cases h : c
  · rw [if_pos h, if_pos h, hostlistInsertRange, if_neg (by rw [hn, hhr, List.length_append]; omega), hhr, hcopy,
      insertIdx_here]
    simp
  · rw [if_neg h, if_neg h]
    simp [← hhr]

/-- The inner loop, which is about to insert in front of `l`. -/
theorem coalesceInsert_spec {new : Hostrange} {a m : UInt64} (hnew : new.hi.toNat < 2 ^ 31) (k fuel : Nat)
    (lo : UInt64) (done : List Hostrange) (hhr : hl.hr = done ++ l) (hn : hl.nranges = hl.hr.length)
    (hk : lo.toNat + k = new.hi.toNat + 1) (hfuel : k < fuel) :
    coalesceInsert new a m fuel lo done.length hl = .ret
      { hl with
        hr := done ++ (doubled a.toNat m.toNat k lo.toNat).map (fun n => piece new.pfx new.width (n, n)) ++ l,
        nranges := hl.nranges + (doubled a.toNat m.toNat k lo.toNat).length } := by
  induction k generalizing fuel lo done hl with
  | zero =>
      obtain ⟨fuel, rfl⟩ := Nat.exists_eq_succ_of_ne_zero (by omega : fuel ≠ 0)
      have hend : ¬ lo ≤ new.hi := by
        rw [UInt64.le_iff_toNat_le]
        omega
      rw [coalesceInsert, if_neg hend, doubled]
      simp [← hhr]
  | succ k ih =>
      obtain ⟨fuel, rfl⟩ := Nat.exists_eq_succ_of_ne_zero (by omega : fuel ≠ 0)
      have hin : lo ≤ new.hi := by
        rw [UInt64.le_iff_toNat_le]
        omega
      have hone : (1 : UInt64).toNat = 1 := rfl
      have hnext : (lo + 1).toNat = lo.toNat + 1 := by
        rw [UInt64.toNat_add, hone]
        omega
      have hpiece : hostrangeCreate new.pfx lo lo new.width = piece new.pfx new.width (lo.toNat, lo.toNat) := by
        unfold piece
        rw [UInt64.ofNat_toNat]
      have hcond : (lo > a ↔ a.toNat < lo.toNat) ∧ (lo < m ↔ lo.toNat < m.toNat) :=
        ⟨UInt64.lt_iff_toNat_lt, UInt64.lt_iff_toNat_lt⟩
      rw [coalesceInsert, if_pos hin]
      simp only [hpiece]
      rw [insertRange_if (lo > a) rfl hhr hn]
      simp only
      rw [insertRange_if (lo < m) rfl rfl (by simp only [hn, hhr, List.length_append]; omega)]
      simp only
      rw [ih fuel (lo + 1) _ rfl (by simp only [hn, hhr, List.length_append]; omega) (by omega) (by omega),
        doubled, hnext]
      simp only [hcond.1, hcond.2, List.map_append, List.append_assoc, List.length_append, Nat.add_assoc]
      have hmap (q : Prop) [Decidable q] : (if q then [lo.toNat] else []).map
          (fun n => piece new.pfx new.width (n, n)) =
          if q then [piece new.pfx new.width (lo.toNat, lo.toNat)] else [] := by
        split <;> rfl
      have hlen (q : Prop) [Decidable q] : (if q then [lo.toNat] else []).length =
          (if q then [piece new.pfx new.width (lo.toNat, lo.toNat)] else []).length := by
        split <;> rfl
      rw [hmap, hmap, hlen, hlen]

theorem common_bounds (h x : Hostrange) (w : Nat) : (common h x w).lo = x.lo ∧
    (common h x w).hi.toNat = min h.hi.toNat x.hi.toNat := by
  refine ⟨rfl, ?_⟩
  unfold common hostrangeCreate
  simp only
  split
  · rename_i hlt
    have := UInt64.lt_iff_toNat_lt.mp hlt
    omega
  · rename_i hge
    have := mt UInt64.lt_iff_toNat_lt.mpr hge
    omega

/-- The split puts the pieces in the place of the two ranges. -/
theorem coalesceSplit_spec {h₀ x₀ : Hostrange} (hc : Crossing w h x) (hhr : hl.hr = pre ++ h₀ :: x₀ :: post)
    (hn : hl.nranges = hl.hr.length) :
    coalesceSplit hl (pre.length + 1) (common h x w) h x = .ret
      { hl with hr := pre ++ pieces w h x ++ post, nranges := (pre ++ pieces w h x ++ post).length } := by
  obtain ⟨hlo, hhi⟩ := common_bounds h x w
  have hbelow := hc.below
  have hlt := hc.lo_lt
  have hle := hc.wf.2.le
  -- the outer pieces
  have hprev : { h with hi := (common h x w).lo } = piece h.pfx w (h.lo.toNat, x.lo.toNat) :=
    eq_piece rfl hc.width.1 hc.left rfl (by simp only [hlo])
  have hnext : { (if (common h x w).hi < h.hi then { x with hi := h.hi } else x) with lo := (common h x w).hi } =
      piece h.pfx w (min h.hi.toNat x.hi.toNat, max h.hi.toNat x.hi.toNat) := by
    by_cases hin : (common h x w).hi < h.hi
    · have := UInt64.lt_iff_toNat_lt.mp hin
      rw [if_pos hin]
      exact eq_piece hc.pfx.symm hc.width.2 hc.right hhi (by simp only; omega)
    · have := mt UInt64.lt_iff_toNat_lt.mpr hin
      rw [if_neg hin]
      exact eq_piece hc.pfx.symm hc.width.2 hc.right hhi (by simp only; omega)
  have hempty : hostrangeEmpty (piece h.pfx w (h.lo.toNat, x.lo.toNat)) = false := by
    have hM := ULONG_MAX_toNat
    have hlo_le := hc.lo_le
    obtain ⟨hplo, hphi⟩ := @piece_bounds h.pfx w (h.lo.toNat, x.lo.toNat) (by simp only; omega) (by simp only; omega)
    have h₁ : ¬ (piece h.pfx w (h.lo.toNat, x.lo.toNat)).hi < (piece h.pfx w (h.lo.toNat, x.lo.toNat)).lo := by
      rw [UInt64.lt_iff_toNat_lt]
      omega
    have h₂ : (piece h.pfx w (h.lo.toNat, x.lo.toNat)).hi ≠ ULONG_MAX := by
      intro heq
      rw [heq] at hphi
      simp only at hphi
      omega
    unfold hostrangeEmpty
    simp [h₁, h₂]
  have hdiff : ((common h x w).hi - (common h x w).lo).toNat =
      min h.hi.toNat x.hi.toNat - x.lo.toNat := by
    rw [UInt64.toNat_sub_of_le, hlo, hhi]
    rw [UInt64.le_iff_toNat_le, hlo, hhi]
    omega
  have hset : ((pre ++ h₀ :: x₀ :: post).set pre.length (piece h.pfx w (h.lo.toNat, x.lo.toNat))).set
      (pre.length + 1) (piece h.pfx w (min h.hi.toNat x.hi.toNat, max h.hi.toNat x.hi.toNat)) =
      (pre ++ [piece h.pfx w (h.lo.toNat, x.lo.toNat)]) ++
        piece h.pfx w (min h.hi.toNat x.hi.toNat, max h.hi.toNat x.hi.toNat) :: post := by
    rw [set_neighbours]
    simp
  have hlength : (pre ++ [piece h.pfx w (h.lo.toNat, x.lo.toNat)]).length = pre.length + 1 := by simp
  unfold coalesceSplit
  simp only [hprev, hnext, hempty, Bool.false_eq_true, if_false]
  rw [hhr, Nat.add_sub_cancel, hset, hdiff]
  conv_lhs =>
    rw [← hlength]
  rw [coalesceInsert_spec (by rw [hhi]; omega) (min h.hi.toNat x.hi.toNat + 1 - x.lo.toNat) _ _ _ rfl
    (by simp only [hn, hhr, List.length_append, List.length_cons, List.length_nil]; omega)
    (by rw [hlo, hhi]; omega) (by omega)]
  have hname : (common h x w).pfx = h.pfx ∧ (common h x w).width = w := ⟨rfl, rfl⟩
  rw [hname.1, hname.2, hlo, hhi]
  simp [pieces, divide, hn, hhr, Function.comp_def]
  omega

/-! ## One round of the loop -/

variable {ndebug : Bool} {done : List Hostrange}

/-- A quiet pair is passed by. -/
theorem coalesceLoop_quiet (ndebug : Bool) (hhr : hl.hr = done ++ h :: x :: l) (hh : h.lo.toNat < 2 ^ 31)
    (hx : x.lo.toNat < 2 ^ 31) (hle : h.Le x) (hq : Quiet h x) :
    ∃ h' x', h.Rewidth h' ∧ x.Rewidth x' ∧ ∀ fuel,
      hostlistCoalesceLoop ndebug (fuel + 1) (done.length + 1) hl =
        hostlistCoalesceLoop ndebug fuel done.length { hl with hr := done ++ h' :: x' :: l } := by
  have hleft : hl.hr[done.length + 1 - 1]? = some h := by simp [hhr]
  have hright : hl.hr[done.length + 1]? = some x := by simp [hhr]
  obtain ⟨h', x', hr, hrx, hcases⟩ := hostrangeIntersect_spec ndebug hh hx hle
  obtain ⟨-, hret⟩ | ⟨hnot, -⟩ := hcases
  · refine ⟨h', x', hr, hrx, fun fuel => ?_⟩
    rw [hostlistCoalesceLoop, if_pos (Nat.succ_pos _)]
    simp only [hleft, hright, hret, Run.ret_bind]
    rw [hhr, Nat.add_sub_cancel, set_neighbours]
  · exact absurd hq hnot

/-- Any other pair is split, and the scan begins again at the end. -/
theorem coalesceLoop_split (ndebug : Bool) (hhr : hl.hr = done ++ h :: x :: l) (hn : hl.nranges = hl.hr.length)
    (hw : h.Wf ∧ x.Wf) (hb : h.hi.toNat < 2 ^ 31 ∧ x.hi.toNat < 2 ^ 31) (hle : h.Le x) (hq : ¬ Quiet h x) :
    ∃ w h' x', h.Rewidth h' ∧ x.Rewidth x' ∧ Crossing w h' x' ∧ ∀ fuel,
      hostlistCoalesceLoop ndebug (fuel + 1) (done.length + 1) hl =
        hostlistCoalesceLoop ndebug fuel ((done ++ pieces w h' x' ++ l).length - 1)
          { hl with hr := done ++ pieces w h' x' ++ l, nranges := (done ++ pieces w h' x' ++ l).length } := by
  have hleft : hl.hr[done.length + 1 - 1]? = some h := by simp [hhr]
  have hright : hl.hr[done.length + 1]? = some x := by simp [hhr]
  have hwle := hw.1.le
  have hwlex := hw.2.le
  obtain ⟨h', x', hr, hrx, hcases⟩ := hostrangeIntersect_spec ndebug (by omega) (by omega) hle
  obtain ⟨hquiet, -⟩ | ⟨-, hwidth, hret⟩ := hcases
  · exact absurd hquiet hq
  · obtain ⟨hs, hnum, hlt⟩ := not_not.mp hq
    obtain ⟨hpfx, hkind⟩ := hostrangePrefixCmp_eq_zero_iff.mp hnum.1
    have hlo := hnum.lo_le hle
    have hc : Crossing h'.width h' x' := by
      constructor
      · exact hr.pfx.2.trans hs
      · exact hrx.pfx.2.trans (hkind.symm.trans hs)
      · rw [hr.pfx.1, hrx.pfx.1]
        exact hpfx
      · exact ⟨rfl, hwidth.symm⟩
      · exact ⟨hr.wf hw.1, hrx.wf hw.2⟩
      · rw [hr.bounds.2, hrx.bounds.2]
        exact hb
      · rw [hr.bounds.1, hrx.bounds.1]
        exact hlo
      · rw [hrx.bounds.1, hr.bounds.2]
        exact hlt
    have hcommon : common h x h'.width = common h' x' h'.width := by
      unfold common
      rw [hr.pfx.1, hrx.bounds.1, hrx.bounds.2, hr.bounds.2]
    refine ⟨h'.width, h', x', hr, hrx, hc, fun fuel => ?_⟩
    rw [hostlistCoalesceLoop, if_pos (Nat.succ_pos _)]
    simp only [hleft, hright, hret, Run.ret_bind]
    rw [hcommon, coalesceSplit_spec hc hhr hn, Run.ret_bind]

/-- Two ranges that are compared by number, the upper one first: the assertion does not hold, and
without it the lower one is destroyed and read. -/
theorem coalesceLoop_fault (ndebug : Bool) (hhr : hl.hr = done ++ h :: x :: l) (hs : h.singlehost = false)
    (hnum : ByNumber h x) (hw : h.Wf ∧ x.Wf) (hb : h.hi.toNat < 2 ^ 31 ∧ x.hi.toNat < 2 ^ 31)
    (hlt : x.lo.toNat < h.lo.toNat) (fuel : Nat) :
    hostlistCoalesceLoop ndebug (fuel + 1) (done.length + 1) hl =
      .exit (if ndebug then .freed else .assertion) := by
  have hleft : hl.hr[done.length + 1 - 1]? = some h := by simp [hhr]
  have hright : hl.hr[done.length + 1]? = some x := by simp [hhr]
  have hwle := hw.1.le
  have hwlex := hw.2.le
  obtain ⟨-, hkind⟩ := hostrangePrefixCmp_eq_zero_iff.mp hnum.1
  have hsx : x.singlehost = false := hkind.symm.trans hs
  rw [hostlistCoalesceLoop, if_pos (Nat.succ_pos _)]
  simp only [hleft, hright]
  cases ndebug with
  | false =>
      have habove : ¬ (hostrangeCmp h x).1 ≤ 0 := by
        intro hcmp
        have := hnum.lo_le ((cmp_le_iff (by omega) (by omega)).mp hcmp)
        omega
      unfold hostrangeIntersect assertOrdered
      rw [if_neg (by rw [hs, hsx]; decide), if_neg (by decide), if_neg habove]
      rfl
  | true =>
      obtain ⟨h', x', hr, hrx, hcases⟩ :=
        @hostrangeIntersect_asserted h x h x true hs hsx (.refl h) (.refl x) rfl
      obtain ⟨hquiet, -⟩ | ⟨-, -, hret⟩ := hcases
      · exact absurd ⟨hs, hnum, by omega⟩ hquiet
      · -- the left range would end below its first number
        obtain ⟨hlo, hhi⟩ := common_bounds h x h'.width
        have hempty : hostrangeEmpty { h' with hi := (common h x h'.width).lo } = true := by
          unfold hostrangeEmpty
          rw [hlo, hr.bounds.1]
          simp [UInt64.lt_iff_toNat_lt.mpr hlt]
        have hread : (common h x h'.width).lo ≤ (common h x h'.width).hi := by
          rw [UInt64.le_iff_toNat_le, hlo, hhi]
          omega
        rw [hret, Run.ret_bind]
        unfold coalesceSplit
        simp only [hempty, if_true]
        rw [if_pos hread]
        rfl

/-- Behind the range `x`, only quiet pairs: the scan gets down to `x`. -/
theorem coalesceLoop_scan (ndebug : Bool) (hhr : hl.hr = done ++ x :: l) (hs : Sorted (x :: l))
    (hb : ∀ r ∈ x :: l, r.lo.toNat < 2 ^ 31) (hq : (x :: l).IsChain Quiet) :
    ∃ x' l', x.Rewidth x' ∧ List.Forall₂ Hostrange.Rewidth l l' ∧ ∀ fuel,
      hostlistCoalesceLoop ndebug (fuel + l.length) (done.length + l.length) hl =
        hostlistCoalesceLoop ndebug fuel done.length { hl with hr := done ++ x' :: l' } := by
  induction l generalizing done x hl with
  | nil =>
      refine ⟨x, [], .refl x, .nil, fun fuel => ?_⟩
      rw [← hhr]
      rfl
  | cons y l ih =>
      obtain ⟨hx, hsl⟩ := List.pairwise_cons.mp hs
      obtain ⟨hbx, hbl⟩ := List.forall_mem_cons.mp hb
      obtain ⟨hqxy, hql⟩ := List.isChain_cons_cons.mp hq
      obtain ⟨y', l', hy, hl', hscan⟩ := @ih y hl (done ++ [x]) (by rw [hhr]; simp) hsl hbl hql
      have hxy : x.Le y' := (Hostrange.Rewidth.le_iff (.refl x) hy).mpr (hx y List.mem_cons_self)
      have hq' : Quiet x y' := (Hostrange.Rewidth.quiet_iff (.refl x) hy).mpr hqxy
      have hby : y'.lo.toNat < 2 ^ 31 := by
        rw [hy.bounds.1]
        exact hbl y List.mem_cons_self
      obtain ⟨x', y'', hx', hy'', hstep⟩ := @coalesceLoop_quiet x y' l'
        { hl with hr := (done ++ [x]) ++ y' :: l' } done ndebug (by simp) hbx hby hxy hq'
      refine ⟨x', y'' :: l', hx', .cons (hy.trans hy'') hl', fun fuel => ?_⟩
      have hlength : done.length + (y :: l).length = (done ++ [x]).length + l.length := by
        simp only [List.length_append, List.length_cons, List.length_nil]
        omega
      have hfuel : fuel + (y :: l).length = (fuel + 1) + l.length := by
        rw [List.length_cons]
        omega
      rw [hlength, hfuel, hscan]
      rw [List.length_append, List.length_singleton, hstep]

end Pdsh
