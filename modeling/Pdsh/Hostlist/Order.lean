import Pdsh.Hostlist.Sort
import Pdsh.Hostlist.Names

/-!
# The order of ranges

What `hostrange_cmp` compares. Behind equal prefixes it looks at the `field` of a range, the
number of characters of its lowest number as it is printed: two ranges are compared by number
if their fields are equal or the wider one is not filled with zeros, and by width otherwise.
Neither changes when a comparison rewrites a width.

The difference of two numbers is cut to an `int`, so numbers are compared as places on a circle
of `2^32`. `hostrangeCmp_preorder_iff` says for which three ranges this gives a preorder.
-/

namespace Pdsh

open Lib Lib.Decimal Lib.Transition

variable {a b c a' b' c' : Hostrange}

/-! ## Fields -/

/-- The number of characters the lowest number is printed with. -/
def Hostrange.field (hr : Hostrange) : Nat := max hr.width (numDigits hr.lo.toNat)

/-- The ranges are compared by number: their widths can be combined. -/
def Combines (a b : Hostrange) : Prop := (hostrangeWidthCombine a b).isSome

instance (a b : Hostrange) : Decidable (Combines a b) := inferInstanceAs (Decidable (_ = true))

theorem combines_iff_width : Combines a b ↔ a.width = b.width ∨
    max a.width b.width ≤ max (numDigits a.lo.toNat) (numDigits b.lo.toNat) := by
  unfold Combines hostrangeWidthCombine widthEquiv
  simp only [Option.isSome_map, zeroPadded_eq, padding]
  split
  · simp only [Option.isSome_none, Bool.false_eq_true, false_iff]
    omega
  · split
    · split
      · simp only [Option.isSome_some, true_iff]
        omega
      · simp only [Option.isSome_none, Bool.false_eq_true, false_iff]
        omega
    · split
      · simp only [Option.isSome_some, true_iff]
        omega
      · simp only [Option.isSome_none, Bool.false_eq_true, false_iff]
        omega

/-- Fields go together if they are equal or the wider one holds no zeros in front. -/
theorem combines_iff : Combines a b ↔ a.field = b.field ∨
    (a.field < b.field ∧ b.field = numDigits b.lo.toNat) ∨
    (b.field < a.field ∧ a.field = numDigits a.lo.toNat) := by
  rw [combines_iff_width]
  unfold Hostrange.field
  omega

theorem Combines.symm (h : Combines a b) : Combines b a := by
  rw [combines_iff] at h ⊢
  omega

/-- Widths that do not go together differ as the fields do. -/
theorem field_of_not_combines (h : ¬ Combines a b) :
    (a.width < b.width ↔ a.field < b.field) ∧ a.width ≠ b.width ∧ a.field ≠ b.field := by
  rw [combines_iff_width] at h
  unfold Hostrange.field
  omega

theorem Hostrange.Rewidth.field (h : a.Rewidth a') : a'.field = a.field ∧ a'.lo = a.lo := by
  obtain ⟨w, rfl, hpad⟩ := h
  unfold padding at hpad
  refine ⟨?_, rfl⟩
  unfold Hostrange.field
  simp only
  omega

theorem Hostrange.Rewidth.pfx (h : a.Rewidth a') : a'.pfx = a.pfx ∧ a'.singlehost = a.singlehost := by
  obtain ⟨w, rfl, -⟩ := h
  exact ⟨rfl, rfl⟩

theorem Hostrange.Rewidth.trans (h : a.Rewidth b) (h' : b.Rewidth c) : a.Rewidth c := by
  obtain ⟨w, rfl, hpad⟩ := h
  obtain ⟨w', rfl, hpad'⟩ := h'
  exact ⟨w', rfl, hpad'.trans hpad⟩

theorem Hostrange.Rewidth.combines (ha : a.Rewidth a') (hb : b.Rewidth b') :
    Combines a' b' ↔ Combines a b := by
  rw [combines_iff, combines_iff, ha.field.1, ha.field.2, hb.field.1, hb.field.2]

/-! ## What a comparison returns and rewrites -/

/-- The value of `hostrange_cmp`. -/
abbrev cmp (a b : Hostrange) : Int := (hostrangeCmp a b).1

theorem cmp_of_prefixCmp (h : hostrangePrefixCmp a b ≠ 0) : cmp a b = hostrangePrefixCmp a b := by
  simp only [cmp, hostrangeCmp, if_neg h]

theorem cmp_of_combines (h : hostrangePrefixCmp a b = 0) (hc : Combines a b) :
    cmp a b = (intOfUlong (a.lo - b.lo)).toInt := by
  obtain ⟨r, hr⟩ := Option.isSome_iff_exists.mp hc
  obtain ⟨w, rfl, -⟩ := hostrangeWidthCombine_some hr
  simp only [cmp, hostrangeCmp, if_pos h, hr]

theorem cmp_of_not_combines (h : hostrangePrefixCmp a b = 0) (hc : ¬ Combines a b) :
    cmp a b = (a.width : Int) - b.width := by
  have hnone : hostrangeWidthCombine a b = none := by simpa [Combines] using hc
  simp only [cmp, hostrangeCmp, if_pos h, hnone]

/-- A comparison changes no name. -/
theorem hostrangeCmp_rewidth (a b : Hostrange) :
    a.Rewidth (hostrangeCmp a b).2.1 ∧ b.Rewidth (hostrangeCmp a b).2.2 := by
  unfold hostrangeCmp
  simp only
  split
  · split
    · rename_i h
      obtain ⟨w, hr, -, hpa, hpb⟩ := hostrangeWidthCombine_some h
      cases hr
      exact ⟨⟨w, rfl, hpa⟩, ⟨w, rfl, hpb⟩⟩
    · exact ⟨.refl a, .refl b⟩
  · exact ⟨.refl a, .refl b⟩

/-- The sign of a comparison is not changed by widths that were rewritten. -/
theorem Hostrange.Rewidth.sign_cmp (ha : a.Rewidth a') (hb : b.Rewidth b') :
    (cmp a' b').sign = (cmp a b).sign := by
  have hpfxcmp : hostrangePrefixCmp a' b' = hostrangePrefixCmp a b := by
    simp only [hostrangePrefixCmp, ha.pfx.1, ha.pfx.2, hb.pfx.1, hb.pfx.2]
  by_cases h : hostrangePrefixCmp a b = 0
  · by_cases hc : Combines a b
    · rw [cmp_of_combines h hc, cmp_of_combines (hpfxcmp.trans h) ((ha.combines hb).mpr hc), ha.field.2,
        hb.field.2]
    · -- the widths differ in the direction of the fields, which stay
      have hc' : ¬ Combines a' b' := fun h' => hc ((ha.combines hb).mp h')
      obtain ⟨hlt, hne, -⟩ := field_of_not_combines hc
      obtain ⟨hlt', hne', -⟩ := field_of_not_combines hc'
      rw [ha.field.1, hb.field.1] at hlt'
      rw [cmp_of_not_combines h hc, cmp_of_not_combines (hpfxcmp.trans h) hc']
      by_cases hwidth : a.width < b.width
      · rw [Int.sign_eq_neg_one_of_neg (by omega), Int.sign_eq_neg_one_of_neg (by omega)]
      · rw [Int.sign_eq_one_of_pos (by omega), Int.sign_eq_one_of_pos (by omega)]
  · rw [cmp_of_prefixCmp h, cmp_of_prefixCmp (hpfxcmp ▸ h), hpfxcmp]

/-- What any comparisons inside an array do to it. -/
theorem compared_rewidth {l l' : List Hostrange} (run : Steps compareStep anyStep l l') :
    List.Forall₂ Hostrange.Rewidth l l' := by
  refine run.invariant (I := List.Forall₂ Hostrange.Rewidth l) ?_ ?_
  · exact List.forall₂_same.mpr fun hr _ => .refl hr
  · intro m ij m' hall _ hstep
    have hset : ∀ {m : List Hostrange} {i : Nat} {x y : Hostrange}, List.Forall₂ Hostrange.Rewidth l m →
        m[i]? = some x → x.Rewidth y → List.Forall₂ Hostrange.Rewidth l (m.set i y) := by
      intro m i x y h hx hxy
      rw [List.forall₂_iff_get] at h ⊢
      refine ⟨by rw [List.length_set]; exact h.1, fun k h₁ h₂ => ?_⟩
      have hk := h.2 k h₁ (by rw [List.length_set] at h₂; exact h₂)
      rw [List.get_eq_getElem, List.get_eq_getElem] at hk ⊢
      rw [List.getElem_set]
      split
      · rename_i hik
        subst hik
        rw [List.getElem?_eq_getElem (by rw [List.length_set] at h₂; exact h₂)] at hx
        rw [Option.some.inj hx] at hk
        exact hk.trans hxy
      · exact hk
    unfold compareStep at hstep
    split at hstep
    · rename_i x y hx hy
      obtain ⟨hxr, hyr⟩ := hostrangeCmp_rewidth x y
      split at hstep
      · cases hstep
        exact hall
      · rename_i hne
        cases hstep
        refine hset (hset hall hx hxr) ?_ hyr
        rw [List.getElem?_set_ne hne]
        exact hy
    · cases hstep

/-! ## Numbers on a circle -/

/-- How far the lowest number of `b` lies ahead of that of `a`, on a circle of `2^32`. -/
def ahead (a b : Hostrange) : Nat := (b.lo - a.lo).toNat % 2 ^ 32

theorem ahead_add (a b c : Hostrange) : ahead a c = (ahead a b + ahead b c) % 2 ^ 32 := by
  have ha := a.lo.toNat_lt
  have hb := b.lo.toNat_lt
  have hc := c.lo.toNat_lt
  unfold ahead
  rw [UInt64.toNat_sub, UInt64.toNat_sub, UInt64.toNat_sub]
  omega

theorem ahead_self (a : Hostrange) : ahead a a = 0 := by
  unfold ahead
  rw [UInt64.sub_self]
  rfl

/-- What the `int` keeps of the difference. -/
theorem intOfUlong_sub (a b : Hostrange) : (intOfUlong (a.lo - b.lo)).toInt =
    if ahead b a < 2 ^ 31 then (ahead b a : Int) else (ahead b a : Int) - 2 ^ 32 := by
  have hsize : Int32.size = 2 ^ 32 := rfl
  unfold intOfUlong ahead
  rw [Int32.toInt_ofNat', Int.bmod_def, hsize]
  split <;> split <;> omega

/-- By number: the sign of the comparison, read off the circle. -/
theorem sign_cmp_of_combines (h : hostrangePrefixCmp a b = 0) (hc : Combines a b) :
    (cmp a b).sign = if ahead a b = 0 then 0 else if ahead a b ≤ 2 ^ 31 then -1 else 1 := by
  have hsum := ahead_add a b a
  have hself := ahead_self a
  have hlt : ahead a b < 2 ^ 32 := Nat.mod_lt _ (by decide)
  have hlt' : ahead b a < 2 ^ 32 := Nat.mod_lt _ (by decide)
  rw [cmp_of_combines h hc, intOfUlong_sub]
  by_cases hzero : ahead a b = 0
  · rw [if_pos hzero, if_pos (by omega), show ahead b a = 0 by omega]
    rfl
  · rw [if_neg hzero]
    by_cases hle : ahead a b ≤ 2 ^ 31
    · rw [if_pos hle]
      exact Int.sign_eq_neg_one_of_neg (by split <;> omega)
    · rw [if_neg hle, if_pos (by omega)]
      exact Int.sign_eq_one_of_pos (by omega)

theorem cmp_le_of_combines (h : hostrangePrefixCmp a b = 0) (hc : Combines a b) :
    cmp a b ≤ 0 ↔ ahead a b ≤ 2 ^ 31 := by
  have hsign := sign_cmp_of_combines h hc
  rw [← Int.sign_nonpos_iff, hsign]
  split
  · omega
  · split <;> omega

/-- By width: the narrower one comes first. -/
theorem cmp_le_of_not_combines (h : hostrangePrefixCmp a b = 0) (hc : ¬ Combines a b) :
    cmp a b ≤ 0 ↔ a.width < b.width := by
  obtain ⟨-, hne, -⟩ := field_of_not_combines hc
  rw [cmp_of_not_combines h hc]
  omega

/-! ## When it is a preorder -/

theorem hostrangePrefixCmp_swap (a b : Hostrange) :
    hostrangePrefixCmp b a = -hostrangePrefixCmp a b := by
  have hswap := strcmp_swap a.pfx b.pfx
  simp only [hostrangePrefixCmp]
  split <;> split <;> omega

theorem hostrangePrefixCmp_trans (hab : hostrangePrefixCmp a b ≤ 0) (hbc : hostrangePrefixCmp b c ≤ 0) :
    hostrangePrefixCmp a c ≤ 0 ∧
      (hostrangePrefixCmp a c = 0 → hostrangePrefixCmp a b = 0 ∧ hostrangePrefixCmp b c = 0) := by
  have hpfx (x y : Hostrange) (h : hostrangePrefixCmp x y ≤ 0) : strcmp x.pfx y.pfx ≤ 0 := by
    simp only [hostrangePrefixCmp] at h
    split at h <;> omega
  have hab' := hpfx a b hab
  have hbc' := hpfx b c hbc
  have hac' := strcmp_trans hab' hbc'
  -- equal ends leave no room for another string in between
  have hends (h : strcmp a.pfx c.pfx = 0) : strcmp a.pfx b.pfx = 0 ∧ strcmp b.pfx c.pfx = 0 := by
    have hca : strcmp c.pfx a.pfx ≤ 0 := by rw [strcmp_swap a.pfx c.pfx, h]; decide
    have hcb := strcmp_trans hca hab'
    have hba := strcmp_trans hbc' hca
    rw [strcmp_swap b.pfx c.pfx] at hcb
    rw [strcmp_swap a.pfx b.pfx] at hba
    omega
  simp only [hostrangePrefixCmp] at hab hbc ⊢
  by_cases h : strcmp a.pfx c.pfx = 0
  · obtain ⟨h₁, h₂⟩ := hends h
    rw [if_pos h₁] at hab ⊢
    rw [if_pos h₂] at hbc ⊢
    rw [if_pos h]
    omega
  · rw [if_neg h]
    exact ⟨hac', fun h' => absurd h' h⟩

/-- Compared by number, or by width. -/
def ByNumber (a b : Hostrange) : Prop := hostrangePrefixCmp a b = 0 ∧ Combines a b

def ByWidth (a b : Hostrange) : Prop := hostrangePrefixCmp a b = 0 ∧ ¬ Combines a b

/-- The numbers of three ranges go round the circle: two of them are opposite, or the way from
`a` to `b` and on to `c` leads past half of it where `a` and `c` are compared by number, or it
leads up where their widths lead down. -/
inductive GoRound (a b c : Hostrange) : Prop where
  | opposite (h : ByNumber a b) (hhalf : ahead a b = 2 ^ 31)
  | round (hab : ByNumber a b) (hbc : ByNumber b c) (hac : ByNumber a c) (h₁ : ahead a b ≤ 2 ^ 31)
      (h₂ : ahead b c ≤ 2 ^ 31) (hlo : 2 ^ 31 < ahead a b + ahead b c)
      (hhi : ahead a b + ahead b c < 2 ^ 32)
  | down (hab : ByNumber a b) (hbc : ByNumber b c) (hac : ByWidth a c) (hwidth : c.width < a.width)
      (h₁ : ahead a b ≤ 2 ^ 31) (h₂ : ahead b c ≤ 2 ^ 31)
  | first (hab : ByWidth a b) (hbc : ByNumber b c) (hac : ByNumber a c) (hwidth : a.width < b.width)
      (h₂ : ahead b c ≤ 2 ^ 31) (hlo : 2 ^ 31 < ahead a c)
  | last (hab : ByNumber a b) (hbc : ByWidth b c) (hac : ByNumber a c) (hwidth : b.width < c.width)
      (h₁ : ahead a b ≤ 2 ^ 31) (hlo : 2 ^ 31 < ahead a c)

/-- Exchanging the arguments turns the sign, but for numbers that are opposite on the circle. -/
theorem sign_cmp_swap_iff :
    (cmp a b).sign = -(cmp b a).sign ↔ ¬ (ByNumber a b ∧ ahead a b = 2 ^ 31) := by
  have hswap := hostrangePrefixCmp_swap a b
  by_cases h : hostrangePrefixCmp a b = 0
  · by_cases hc : Combines a b
    · have hsum := ahead_add a b a
      have hself := ahead_self a
      have hlt : ahead a b < 2 ^ 32 := Nat.mod_lt _ (by decide)
      have hlt' : ahead b a < 2 ^ 32 := Nat.mod_lt _ (by decide)
      rw [sign_cmp_of_combines h hc, sign_cmp_of_combines (by omega) hc.symm]
      simp only [ByNumber, h, hc, true_and]
      split <;> split <;> (try split) <;> (try split) <;> omega
    · have hc' : ¬ Combines b a := fun h' => hc h'.symm
      rw [cmp_of_not_combines h hc, cmp_of_not_combines (by omega) hc', ← Int.sign_neg, Int.neg_sub]
      simp [ByNumber, hc]
  · rw [cmp_of_prefixCmp h, cmp_of_prefixCmp (by omega), hswap, Int.sign_neg, Int.neg_neg]
    simp [ByNumber, h]

/-- Where transitivity fails, the numbers go round. -/
theorem goRound_of_not_trans (hab : cmp a b ≤ 0) (hbc : cmp b c ≤ 0) (hac : ¬ cmp a c ≤ 0) :
    GoRound a b c := by
  have hpfxcmp (x y : Hostrange) (h : cmp x y ≤ 0) : hostrangePrefixCmp x y ≤ 0 := by
    by_cases h0 : hostrangePrefixCmp x y = 0
    · omega
    · rwa [cmp_of_prefixCmp h0] at h
  obtain ⟨hle, hends⟩ := hostrangePrefixCmp_trans (hpfxcmp a b hab) (hpfxcmp b c hbc)
  have h0 : hostrangePrefixCmp a c = 0 := by
    by_contra hne
    rw [cmp_of_prefixCmp hne] at hac
    exact hac hle
  obtain ⟨hpab, hpbc⟩ := hends h0
  by_cases hcab : Combines a b
  · rw [cmp_le_of_combines hpab hcab] at hab
    by_cases hcbc : Combines b c
    · rw [cmp_le_of_combines hpbc hcbc] at hbc
      by_cases hcac : Combines a c
      · have hsum := ahead_add a b c
        rw [cmp_le_of_combines h0 hcac] at hac
        exact .round ⟨hpab, hcab⟩ ⟨hpbc, hcbc⟩ ⟨h0, hcac⟩ hab hbc (by omega) (by omega)
      · obtain ⟨-, hne, -⟩ := field_of_not_combines hcac
        rw [cmp_le_of_not_combines h0 hcac] at hac
        exact .down ⟨hpab, hcab⟩ ⟨hpbc, hcbc⟩ ⟨h0, hcac⟩ (by omega) hab hbc
    · rw [cmp_le_of_not_combines hpbc hcbc] at hbc
      by_cases hcac : Combines a c
      · rw [cmp_le_of_combines h0 hcac] at hac
        exact .last ⟨hpab, hcab⟩ ⟨hpbc, hcbc⟩ ⟨h0, hcac⟩ hbc hab (by omega)
      · -- the fields of `a`, `b` and `c` would have to rise and fall
        exfalso
        rw [cmp_le_of_not_combines h0 hcac] at hac
        rw [combines_iff_width] at hcab hcbc hcac
        omega
  · rw [cmp_le_of_not_combines hpab hcab] at hab
    by_cases hcbc : Combines b c
    · rw [cmp_le_of_combines hpbc hcbc] at hbc
      by_cases hcac : Combines a c
      · rw [cmp_le_of_combines h0 hcac] at hac
        exact .first ⟨hpab, hcab⟩ ⟨hpbc, hcbc⟩ ⟨h0, hcac⟩ hab hbc (by omega)
      · exfalso
        rw [cmp_le_of_not_combines h0 hcac] at hac
        rw [combines_iff_width] at hcab hcbc hcac
        omega
    · rw [cmp_le_of_not_combines hpbc hcbc] at hbc
      exfalso
      by_cases hcac : Combines a c
      · rw [combines_iff_width] at hcab hcbc hcac
        omega
      · rw [cmp_le_of_not_combines h0 hcac] at hac
        omega

/-- Where the numbers go round, a law fails. -/
theorem not_preorder_of_goRound (h : GoRound a b c) :
    ¬ ((cmp a b).sign = -(cmp b a).sign ∧ (cmp a b ≤ 0 → cmp b c ≤ 0 → cmp a c ≤ 0)) := by
  rintro ⟨hsign, htrans⟩
  cases h with
  | opposite h hhalf => exact sign_cmp_swap_iff.mp hsign ⟨h, hhalf⟩
  | round hab hbc hac h₁ h₂ hlo hhi =>
      have hsum := ahead_add a b c
      rw [cmp_le_of_combines hab.1 hab.2, cmp_le_of_combines hbc.1 hbc.2,
        cmp_le_of_combines hac.1 hac.2] at htrans
      have := htrans h₁ h₂
      omega
  | down hab hbc hac hwidth h₁ h₂ =>
      rw [cmp_le_of_combines hab.1 hab.2, cmp_le_of_combines hbc.1 hbc.2,
        cmp_le_of_not_combines hac.1 hac.2] at htrans
      have := htrans h₁ h₂
      omega
  | first hab hbc hac hwidth h₂ hlo =>
      rw [cmp_le_of_not_combines hab.1 hab.2, cmp_le_of_combines hbc.1 hbc.2,
        cmp_le_of_combines hac.1 hac.2] at htrans
      have := htrans hwidth h₂
      omega
  | last hab hbc hac hwidth h₁ hlo =>
      rw [cmp_le_of_combines hab.1 hab.2, cmp_le_of_not_combines hbc.1 hbc.2,
        cmp_le_of_combines hac.1 hac.2] at htrans
      have := htrans h₁ hwidth
      omega

/-- At three places of an array, `hostrange_cmp` keeps its signs whatever comparisons were made
before, and obeys the laws of a total preorder, if and only if the numbers there do not go
round. -/
theorem hostrangeCmp_preorder_iff {l : List Hostrange} {i j k : Nat} (hi : l[i]? = some a)
    (hj : l[j]? = some b) (hk : l[k]? = some c) :
    (∀ l', Steps compareStep anyStep l l' → ∀ a' b' c', l'[i]? = some a' → l'[j]? = some b' →
        l'[k]? = some c' →
        ((cmp a' b').sign = (cmp a b).sign ∧ (cmp b' c').sign = (cmp b c).sign ∧
          (cmp a' c').sign = (cmp a c).sign) ∧
        (cmp a' b').sign = -(cmp b' a').sign ∧ (cmp a' b' ≤ 0 → cmp b' c' ≤ 0 → cmp a' c' ≤ 0)) ↔
      ¬ GoRound a b c := by
  constructor
  · intro hall hround
    exact not_preorder_of_goRound hround (hall l .refl a b c hi hj hk).2
  · intro hround l' run a' b' c' hi' hj' hk'
    have hrw := compared_rewidth run
    have hplace : ∀ {n : Nat} {x x' : Hostrange}, l[n]? = some x → l'[n]? = some x' → x.Rewidth x' := by
      intro n x x' hx hx'
      obtain ⟨hn, rfl⟩ := List.getElem?_eq_some_iff.mp hx
      obtain ⟨hn', rfl⟩ := List.getElem?_eq_some_iff.mp hx'
      exact (List.forall₂_iff_get.mp hrw).2 n hn hn'
    have ha := hplace hi hi'
    have hb := hplace hj hj'
    have hc := hplace hk hk'
    have hle {x y x' y' : Hostrange} (h : (cmp x' y').sign = (cmp x y).sign) : cmp x' y' ≤ 0 ↔ cmp x y ≤ 0 := by
      rw [← Int.sign_nonpos_iff, h, Int.sign_nonpos_iff]
    have hab := ha.sign_cmp hb
    have hbc := hb.sign_cmp hc
    have hac := ha.sign_cmp hc
    refine ⟨⟨hab, hbc, hac⟩, ?_, ?_⟩
    · rw [hab, hb.sign_cmp ha]
      exact sign_cmp_swap_iff.mpr fun h => hround (.opposite h.1 h.2)
    · rw [hle hab, hle hbc, hle hac]
      intro h₁ h₂
      by_contra h₃
      exact hround (goRound_of_not_trans h₁ h₂ h₃)

/-- Two numbers that are opposite on the circle are each below the other. -/
theorem hostrangeCmp_opposite :
    ¬ ((hostrangeCmp (hostrangeCreate "n".toList 0 0 1)
        (hostrangeCreate "n".toList 2147483648 2147483648 10)).1.sign =
      -(hostrangeCmp (hostrangeCreate "n".toList 2147483648 2147483648 10)
        (hostrangeCreate "n".toList 0 0 1)).1.sign) := by
  decide

/-! ## The order of small numbers -/

/-- The order of ranges: by prefix, by field, by number. -/
def Hostrange.Le (a b : Hostrange) : Prop :=
  hostrangePrefixCmp a b < 0 ∨ (hostrangePrefixCmp a b = 0 ∧
    (a.field < b.field ∨ (a.field = b.field ∧ a.lo.toNat ≤ b.lo.toNat)))

/-- Below `2^31` the `int` keeps the sign of a difference. -/
theorem ahead_le_iff (ha : a.lo.toNat < 2 ^ 31) (hb : b.lo.toNat < 2 ^ 31) :
    ahead a b ≤ 2 ^ 31 ↔ a.lo.toNat ≤ b.lo.toNat := by
  unfold ahead
  rw [UInt64.toNat_sub]
  omega

/-- Behind equal prefixes, ranges compared by number are ordered as their fields are. -/
theorem lo_le_iff_of_combines (hc : Combines a b) :
    a.lo.toNat ≤ b.lo.toNat ↔
      a.field < b.field ∨ (a.field = b.field ∧ a.lo.toNat ≤ b.lo.toNat) := by
  have hdigits (m n : Nat) (h : m ≤ n) : numDigits m ≤ numDigits n := numDigits_mono h
  have hfield : numDigits a.lo.toNat ≤ a.field ∧ numDigits b.lo.toNat ≤ b.field := by
    unfold Hostrange.field
    omega
  rw [combines_iff] at hc
  constructor
  · intro hle
    have := hdigits _ _ hle
    omega
  · rintro (hlt | ⟨-, hle⟩)
    · by_contra hgt
      have := hdigits b.lo.toNat a.lo.toNat (by omega)
      omega
    · exact hle

theorem cmp_le_iff (ha : a.lo.toNat < 2 ^ 31) (hb : b.lo.toNat < 2 ^ 31) : cmp a b ≤ 0 ↔ a.Le b := by
  unfold Hostrange.Le
  by_cases h : hostrangePrefixCmp a b = 0
  · simp only [h, Int.lt_irrefl, false_or, true_and]
    by_cases hc : Combines a b
    · rw [cmp_le_of_combines h hc, ahead_le_iff ha hb]
      exact lo_le_iff_of_combines hc
    · obtain ⟨hlt, -, hne⟩ := field_of_not_combines hc
      rw [cmp_le_of_not_combines h hc, hlt]
      omega
  · rw [cmp_of_prefixCmp h]
    omega

theorem Hostrange.Le.refl (a : Hostrange) : a.Le a :=
  .inr ⟨hostrangePrefixCmp_eq_zero_iff.mpr ⟨rfl, rfl⟩, .inr ⟨rfl, Nat.le_refl _⟩⟩

theorem Hostrange.Le.trans (hab : a.Le b) (hbc : b.Le c) : a.Le c := by
  have hpfxcmp : hostrangePrefixCmp a b ≤ 0 ∧ hostrangePrefixCmp b c ≤ 0 := by
    unfold Hostrange.Le at hab hbc
    omega
  obtain ⟨hle, hends⟩ := hostrangePrefixCmp_trans hpfxcmp.1 hpfxcmp.2
  unfold Hostrange.Le at hab hbc ⊢
  by_cases h : hostrangePrefixCmp a c = 0
  · obtain ⟨h₁, h₂⟩ := hends h
    omega
  · omega

theorem Hostrange.Le.total (a b : Hostrange) : a.Le b ∨ b.Le a := by
  have hswap := hostrangePrefixCmp_swap a b
  unfold Hostrange.Le
  omega

/-- A width that is rewritten does not move a range. -/
theorem Hostrange.Rewidth.le_iff (ha : a.Rewidth a') (hb : b.Rewidth b') : a'.Le b' ↔ a.Le b := by
  unfold Hostrange.Le
  simp only [hostrangePrefixCmp, ha.pfx.1, ha.pfx.2, hb.pfx.1, hb.pfx.2, ha.field.1, ha.field.2,
    hb.field.1, hb.field.2]

/-- Numbers below `2^31` do not go round. -/
theorem not_goRound (ha : a.lo.toNat < 2 ^ 31) (hb : b.lo.toNat < 2 ^ 31) (hc : c.lo.toNat < 2 ^ 31) :
    ¬ GoRound a b c := by
  intro h
  refine not_preorder_of_goRound h ⟨sign_cmp_swap_iff.mpr ?_, ?_⟩
  · rintro ⟨-, hhalf⟩
    unfold ahead at hhalf
    rw [UInt64.toNat_sub] at hhalf
    omega
  · rw [cmp_le_iff ha hb, cmp_le_iff hb hc, cmp_le_iff ha hc]
    exact Hostrange.Le.trans

/-- A number without zeros, one with a zero in front, and one that goes with both: comparing the
first with the last rewrites the width of the last, and the order stays. -/
theorem hostrangeCmp_preorder_padded :
    ∃ c, Steps compareStep anyStep [hostrangeCreate "n".toList 9 9 1, hostrangeCreate "n".toList 10 10 3,
        hostrangeCreate "n".toList 100 100 3]
        [hostrangeCreate "n".toList 9 9 1, hostrangeCreate "n".toList 10 10 3, c] ∧ c.width = 1 ∧
      (cmp (hostrangeCreate "n".toList 10 10 3) c).sign = -1 ∧
      cmp (hostrangeCreate "n".toList 9 9 1) c ≤ 0 := by
  have hstep : compareStep [hostrangeCreate "n".toList 9 9 1, hostrangeCreate "n".toList 10 10 3,
      hostrangeCreate "n".toList 100 100 3] (0, 2) = some [hostrangeCreate "n".toList 9 9 1,
      hostrangeCreate "n".toList 10 10 3, hostrangeCreate "n".toList 100 100 1] := by decide
  have run : Steps compareStep anyStep _ _ := .tail .refl trivial hstep
  obtain ⟨⟨-, hbc, hac⟩, -⟩ := (@hostrangeCmp_preorder_iff _ _ _ [hostrangeCreate "n".toList 9 9 1,
    hostrangeCreate "n".toList 10 10 3, hostrangeCreate "n".toList 100 100 3] 0 1 2 rfl rfl rfl).mpr
    (not_goRound (by decide) (by decide) (by decide)) _ run _ _ _ rfl rfl rfl
  refine ⟨_, run, rfl, hbc, ?_⟩
  rw [← Int.sign_nonpos_iff, hac]
  decide

end Pdsh
