import Pdsh.Hostlist.Order
import Pdsh.Hostlist.Update
import Pdsh.Lib.Merge

/-!
# `hostlist_uniq`

The sorted array is gone through from the left, and neighbours that meet or overlap become one
range. No name is lost, none is new, and `nhosts` goes down by the names that were there twice
(`hostlist_uniq_names`). A name that is there twice stays so where its two ranges do not meet:
they have other prefixes or widths, or a range with another width stands between them
(`hostlist_uniq_nodup_iff`).
-/

namespace Pdsh

open Lib Lib.Decimal Lib.Merge Lib.Transition

variable {h x y a b c h' x' : Hostrange}

/-! ## Joining two ranges -/

theorem assertOrdered_ret (ndebug : Bool) (hh : h.lo.toNat < 2 ^ 31) (hx : x.lo.toNat < 2 ^ 31)
    (hle : h.Le x) :
    ∃ h₁ x₁, assertOrdered ndebug h x = .ret (h₁, x₁) ∧ h.Rewidth h₁ ∧ x.Rewidth x₁ := by
  unfold assertOrdered
  cases ndebug with
  | true => exact ⟨h, x, rfl, .refl h, .refl x⟩
  | false =>
      rw [if_neg (by decide), if_pos ((cmp_le_iff hh hx).mpr hle)]
      obtain ⟨hl, hr⟩ := hostrangeCmp_rewidth h x
      exact ⟨_, _, rfl, hl, hr⟩

/-- All numbers below `2^31`: too many for an `int` to count. -/
def Hostrange.Full (hr : Hostrange) : Prop :=
  hr.singlehost = false ∧ hr.lo.toNat = 0 ∧ hr.hi.toNat = 2 ^ 31 - 1

instance (hr : Hostrange) : Decidable hr.Full := inferInstanceAs (Decidable (_ ∧ _))

/-- `x` was joined to `h`, and `dup` names were in both. -/
structure Joined (h x h' : Hostrange) (dup : Nat) : Prop where
  linked : ByNumber h x
  countable : ¬ (h.Full ∧ x.Full)
  same : ({ h with hi := h'.hi } : Hostrange).Rewidth h'
  hi : h'.hi.toNat = max h.hi.toNat x.hi.toNat
  names : ∀ name, name ∈ h'.names ↔ name ∈ h.names ∨ name ∈ x.names
  length : h'.names.length + dup = h.names.length + x.names.length

/-- The ranges stay apart. -/
structure Apart (h x h' x' : Hostrange) : Prop where
  left : h.Rewidth h'
  right : x.Rewidth x'
  why : ¬ ByNumber h x ∨ (h.singlehost = false ∧ h.hi.toNat + 1 < x.lo.toNat) ∨ (h.Full ∧ x.Full)

theorem Hostrange.mem_names (hs : a.singlehost = false) {name : CStr} :
    name ∈ a.names ↔ ∃ i, a.lo.toNat ≤ i ∧ i ≤ a.hi.toNat ∧ name = a.pfx ++ pad a.width i := by
  rw [Hostrange.names_block hs, mem_block]
  constructor
  · rintro ⟨i, hlo, hhi, rfl⟩
    exact ⟨i, hlo, by omega, rfl⟩
  · rintro ⟨i, hlo, hhi, rfl⟩
    exact ⟨i, hlo, by omega, rfl⟩

theorem ByNumber.lo_le (hn : ByNumber a b) (hle : a.Le b) : a.lo.toNat ≤ b.lo.toNat := by
  rw [lo_le_iff_of_combines hn.2]
  unfold Hostrange.Le at hle
  rcases hle with hlt | ⟨-, hle⟩
  · have := hn.1
    omega
  · exact hle

theorem Hostrange.Rewidth.byNumber {a' b' : Hostrange} (ha : a.Rewidth a') (hb : b.Rewidth b') :
    ByNumber a' b' ↔ ByNumber a b := by
  unfold ByNumber
  simp only [hostrangePrefixCmp, ha.pfx.1, ha.pfx.2, hb.pfx.1, hb.pfx.2, ha.combines hb]

theorem Hostrange.Rewidth.full (hr : a.Rewidth b) : b.Full ↔ a.Full := by
  obtain ⟨w, rfl, -⟩ := hr
  rfl

/-- Ranges of one width overlap or meet: what one range from `h.lo` on holds then. -/
theorem names_union (hs : h.singlehost = false) (hsx : x.singlehost = false) (hpfx : h.pfx = x.pfx)
    (hwid : h.width = x.width) (hlo : h.lo.toNat ≤ x.lo.toNat) (hmeet : x.lo.toNat ≤ h.hi.toNat + 1)
    (hw : h.Wf) (hwx : x.Wf) {hi : UInt64} (hhi : hi.toNat = max h.hi.toNat x.hi.toNat) :
    (∀ name, name ∈ ({ h with hi := hi } : Hostrange).names ↔ name ∈ h.names ∨ name ∈ x.names) ∧
      ({ h with hi := hi } : Hostrange).names.length +
        (min h.hi.toNat x.hi.toNat + 1 - x.lo.toNat) = h.names.length + x.names.length := by
  have hle := hw.le
  have hlex := hwx.le
  have hsame : ({ h with hi := hi } : Hostrange).singlehost = false := hs
  constructor
  · intro name
    rw [Hostrange.mem_names hsame, Hostrange.mem_names hs, Hostrange.mem_names hsx, hhi, ← hpfx, ← hwid]
    constructor
    · rintro ⟨i, hi₁, hi₂, rfl⟩
      by_cases hin : i ≤ h.hi.toNat
      · exact .inl ⟨i, hi₁, hin, rfl⟩
      · exact .inr ⟨i, by omega, by omega, rfl⟩
    · rintro (⟨i, hi₁, hi₂, rfl⟩ | ⟨i, hi₁, hi₂, rfl⟩)
      · exact ⟨i, hi₁, by omega, rfl⟩
      · exact ⟨i, by show h.lo.toNat ≤ i; omega, by omega, rfl⟩
  · rw [Hostrange.names_block hsame, Hostrange.names_block hs, Hostrange.names_block hsx, length_block,
      length_block, length_block]
    show hi.toNat + 1 - h.lo.toNat + _ = _
    omega

theorem int32_nonneg {n : Nat} (h : n < 2 ^ 31) : 0 ≤ Int32.ofNat n := by
  rw [Int32.le_iff_toInt_le, Int32.toInt_ofNat_of_lt h]
  exact Int.natCast_nonneg n

/-- What `hostrange_join` does to two ranges in order. -/
theorem hostrangeJoin_spec (ndebug : Bool) (hw : h.Wf) (hwx : x.Wf) (hb : h.hi.toNat < 2 ^ 31)
    (hbx : x.hi.toNat < 2 ^ 31) (hle : h.Le x) :
    ∃ ndup h' x', hostrangeJoin ndebug h x = .ret (ndup, h', x') ∧
      ((∃ dup, ndup = Int32.ofNat dup ∧ 0 ≤ ndup ∧ Joined h x h' dup) ∨ (ndup < 0 ∧ Apart h x h' x')) := by
  have hwle := hw.le
  have hwlex := hwx.le
  obtain ⟨h₁, x₁, hassert, hr₁, hrx₁⟩ := assertOrdered_ret ndebug (by omega) (by omega) hle
  have hminus : (-1 : Int32) < 0 := by decide
  unfold hostrangeJoin
  rw [hassert, Run.ret_bind]
  simp only
  by_cases hp : hostrangePrefixCmp h₁ x₁ = 0
  · rw [if_pos hp]
    cases hcomb : hostrangeWidthCombine h₁ x₁ with
    | none =>
        refine ⟨-1, h₁, x₁, rfl, .inr ⟨hminus, hr₁, hrx₁, .inl fun hn => ?_⟩⟩
        have hc : Combines h₁ x₁ := (hr₁.combines hrx₁).mpr hn.2
        rw [Combines, hcomb] at hc
        cases hc
    | some r =>
        -- from here on the two ranges are `g` and `z`, which have the same width
        obtain ⟨g, z⟩ := r
        obtain ⟨w, hgz, -, hpad, hpadx⟩ := hostrangeWidthCombine_some hcomb
        obtain ⟨hg, hz⟩ := Prod.mk.inj hgz
        have hr₂ : h.Rewidth g := hr₁.trans ⟨w, hg, hpad⟩
        have hrx₂ : x.Rewidth z := hrx₁.trans ⟨w, hz, hpadx⟩
        have hn : ByNumber h x := (hr₁.byNumber hrx₁).mp ⟨hp, by rw [Combines, hcomb]; rfl⟩
        have hlo := hn.lo_le hle
        obtain ⟨hpfx, hkind⟩ := hostrangePrefixCmp_eq_zero_iff.mp hp
        have hgz : g.pfx = z.pfx ∧ g.singlehost = z.singlehost ∧ g.width = z.width := by
          rw [hg, hz]
          exact ⟨hpfx, hkind, rfl⟩
        simp only
        have hgw := hr₂.wf hw
        have hzw := hrx₂.wf hwx
        obtain ⟨hglo, hghi⟩ := hr₂.bounds
        obtain ⟨hzlo, hzhi⟩ := hrx₂.bounds
        have hsame (hi : UInt64) : ({ h with hi := hi } : Hostrange).Rewidth { g with hi := hi } := by
          obtain ⟨v, rfl, hv⟩ := hr₂
          exact ⟨v, rfl, hv⟩
        by_cases hsingle : g.singlehost = true
        · -- two single hosts of one name
          have hsz : z.singlehost = true := hgz.2.1 ▸ hsingle
          obtain ⟨-, hhi⟩ := hgw.single hsingle
          obtain ⟨-, hhiz⟩ := hzw.single hsz
          rw [if_pos ⟨hsingle, hsz⟩]
          refine ⟨1, g, z, rfl, .inl ⟨1, rfl, by decide, hn, ?_, ?_, ?_, ?_, ?_⟩⟩
          · rintro ⟨hfull, -⟩
            have := (hr₂.full.mpr hfull).1
            rw [hsingle] at this
            cases this
          · have := hsame g.hi
            rw [hghi] at this ⊢
            exact hr₂
          · rw [← hghi, ← hzhi, hhi, hhiz]
            rfl
          · intro name
            rw [← hr₂.names, ← hrx₂.names, Hostrange.names_single hsingle, Hostrange.names_single hsz, hgz.1]
            exact (or_self_iff).symm
          · rw [← hr₂.names, ← hrx₂.names, Hostrange.names_single hsingle, Hostrange.names_single hsz]
            rfl
        · have hs : g.singlehost = false := by simpa using hsingle
          have hsz : z.singlehost = false := hgz.2.1 ▸ hs
          have hone : (1 : UInt64).toNat = 1 := rfl
          have hminus_one : (z.lo - 1).toNat = (2 ^ 64 - 1 + z.lo.toNat) % 2 ^ 64 := by
            rw [UInt64.toNat_sub, hone]
          have hfull : h.Full ∧ x.Full ↔ z.lo.toNat = 0 ∧ z.hi.toNat = 2 ^ 31 - 1 ∧ g.lo.toNat = 0 ∧
              g.hi.toNat = 2 ^ 31 - 1 := by
            rw [← hr₂.full, ← hrx₂.full]
            unfold Hostrange.Full
            simp only [hs, hsz, true_and]
            omega
          have hjoined {hi : UInt64} {dup : Nat} (hhi : hi.toNat = max g.hi.toNat z.hi.toNat)
              (hmeet : z.lo.toNat ≤ g.hi.toNat + 1) (hdup : dup = min g.hi.toNat z.hi.toNat + 1 - z.lo.toNat)
              (hcount : ¬ (h.Full ∧ x.Full)) : Joined h x { g with hi := hi } dup := by
            obtain ⟨hnames, hlength⟩ := @names_union g z hs hsz hgz.1 hgz.2.2
              (by rw [hglo, hzlo]; exact hlo) hmeet hgw hzw hi hhi
            rw [hr₂.names, hrx₂.names] at hnames hlength
            refine ⟨hn, hcount, hsame hi, by rw [← hghi, ← hzhi]; exact hhi, hnames, ?_⟩
            rw [hdup]
            exact hlength
          rw [← hglo, ← hghi] at hwle
          rw [← hzlo, ← hzhi] at hwlex
          rw [← hglo, ← hzlo] at hlo
          rw [← hghi] at hb
          rw [← hzhi] at hbx
          rw [if_neg (fun hboth => hsingle hboth.1)]
          by_cases hnext : g.hi = z.lo - 1
          · -- they meet
            have hlo0 : z.lo.toNat ≠ 0 := by
              intro h0
              rw [hnext, hminus_one] at hb
              omega
            have hmeet : g.hi.toNat + 1 = z.lo.toNat := by
              rw [hnext, hminus_one]
              omega
            rw [if_pos hnext]
            exact ⟨0, _, z, rfl, .inl ⟨0, rfl, by decide, hjoined (by omega) (by omega) (by omega)
              (by rw [hfull]; omega)⟩⟩
          · rw [if_neg hnext]
            by_cases hover : g.hi ≥ z.lo
            · have hover' : z.lo.toNat ≤ g.hi.toNat := hover
              rw [if_pos hover]
              by_cases hlonger : g.hi < z.hi
              · have hlonger' : g.hi.toNat < z.hi.toNat := hlonger
                have hdup : (g.hi - z.lo + 1).toNat = g.hi.toNat + 1 - z.lo.toNat := by
                  rw [UInt64.toNat_add, UInt64.toNat_sub]
                  omega
                rw [if_pos hlonger, intOfUlong, hdup]
                exact ⟨_, _, z, rfl, .inl ⟨_, rfl, int32_nonneg (by omega),
                  hjoined (by omega) (by omega) (by omega) (by rw [hfull]; omega)⟩⟩
              · have hinside : z.hi.toNat ≤ g.hi.toNat := by
                  have := mt UInt64.lt_iff_toNat_lt.mpr hlonger
                  omega
                have hcount : (hostrangeCount z).toNat = z.hi.toNat + 1 - z.lo.toNat := by
                  rw [hostrangeCount, if_neg (by rw [hsz]; decide), UInt64.toNat_add, UInt64.toNat_sub]
                  omega
                rw [if_neg hlonger, intOfUlong, hcount]
                by_cases hmany : h.Full ∧ x.Full
                · -- `2^31` names, which is no `int`
                  have hnums := hfull.mp hmany
                  refine ⟨_, g, z, rfl, .inr ⟨?_, hr₂, hrx₂, .inr (.inr hmany)⟩⟩
                  rw [hnums.1, hnums.2.1]
                  decide
                · have hself : ({ g with hi := g.hi } : Hostrange) = g := rfl
                  rw [← hself]
                  refine ⟨_, _, z, rfl, .inl ⟨_, rfl, int32_nonneg ?_,
                    hjoined (by omega) (by omega) (by omega) hmany⟩⟩
                  rw [hfull] at hmany
                  omega
            · -- there is a gap between them
              rw [if_neg hover]
              have hgap : g.hi.toNat < z.lo.toNat := by
                have := mt UInt64.le_iff_toNat_le.mpr hover
                omega
              refine ⟨-1, g, z, rfl, .inr ⟨hminus, hr₂, hrx₂, .inr (.inl ⟨hr₂.pfx.2 ▸ hs, ?_⟩)⟩⟩
              by_contra hclose
              rw [← hghi, ← hzlo] at hclose
              apply hnext
              apply UInt64.toNat_inj.mp
              rw [hminus_one]
              omega
  · rw [if_neg hp]
    refine ⟨-1, h₁, x₁, rfl, .inr ⟨hminus, hr₁, hrx₁, .inl fun hn => hp ?_⟩⟩
    exact ((hr₁.byNumber hrx₁).mpr hn).1

/-! ## The loop -/

variable {done l out : List Hostrange} {hl : Hostlist} {B : Nat}

/-- Both neighbours are written back. -/
theorem set_neighbours (done l : List Hostrange) (h x h' x' : Hostrange) :
    ((done ++ h :: x :: l).set done.length h').set (done.length + 1) x' = done ++ h' :: x' :: l := by
  simp

theorem eraseIdx_second (done l : List Hostrange) (h x : Hostrange) :
    (done ++ h :: x :: l).eraseIdx (done.length + 1) = done ++ h :: l := by
  rw [List.eraseIdx_append_of_length_le (by omega), Nat.add_sub_cancel_left]
  rfl

theorem attemptRangeJoin_spec (ndebug : Bool) (hhr : hl.hr = done ++ h :: x :: l) (hw : h.Wf) (hwx : x.Wf)
    (hb : h.hi.toNat < 2 ^ 31) (hbx : x.hi.toNat < 2 ^ 31) (hle : h.Le x) :
    (∃ h' dup, Joined h x h' dup ∧ 0 ≤ Int32.ofNat dup ∧
      attemptRangeJoin ndebug hl (done.length + 1) = .ret (Int32.ofNat dup,
        { hr := done ++ h' :: l, nranges := hl.nranges - 1, nhosts := hl.nhosts - Int32.ofNat dup })) ∨
    (∃ h' x' ndup, Apart h x h' x' ∧ ndup < 0 ∧
      attemptRangeJoin ndebug hl (done.length + 1) = .ret (ndup, { hl with hr := done ++ h' :: x' :: l })) := by
  have hleft : hl.hr[done.length + 1 - 1]? = some h := by simp [hhr]
  have hright : hl.hr[done.length + 1]? = some x := by simp [hhr]
  obtain ⟨ndup, h', x', hjoin, hcases⟩ := hostrangeJoin_spec ndebug hw hwx hb hbx hle
  unfold attemptRangeJoin
  simp only [hleft, hright, hjoin, Run.ret_bind]
  rw [hhr, Nat.add_sub_cancel, set_neighbours]
  rcases hcases with ⟨dup, rfl, hnonneg, hjoined⟩ | ⟨hneg, hapart⟩
  · refine .inl ⟨h', dup, hjoined, hnonneg, ?_⟩
    rw [if_pos hnonneg]
    simp only [hostlistDeleteRange, eraseIdx_second]
    rfl
  · refine .inr ⟨h', x', ndup, hapart, hneg, ?_⟩
    have hnot : ¬ ndup ≥ 0 := by
      rw [ge_iff_le, Int32.le_iff_toInt_le]
      rw [Int32.lt_iff_toInt_lt] at hneg
      have hzero : (0 : Int32).toInt = 0 := rfl
      omega
    rw [if_neg hnot]
    rfl

/-- Ranges in order. -/
abbrev Sorted (l : List Hostrange) : Prop := l.Pairwise Hostrange.Le

theorem Joined.le_iff {dup : Nat} (hj : Joined h x h' dup) (y : Hostrange) : h'.Le y ↔ h.Le y := by
  have := hj.same.le_iff (.refl y)
  unfold Hostrange.Le at this ⊢
  exact this

theorem Joined.wf {dup : Nat} (hj : Joined h x h' dup) (hw : h.Wf) (hwx : x.Wf) : h'.Wf := by
  have hlo := hj.same.bounds.1
  have hkind := hj.same.pfx.2
  have hle := hw.le
  refine ⟨?_, fun hs => ?_⟩
  · rw [hlo, hj.hi]
    simp only
    omega
  · have hsh : h.singlehost = true := hkind ▸ hs
    have hsx : x.singlehost = true := (hostrangePrefixCmp_eq_zero_iff.mp hj.linked.1).2 ▸ hsh
    refine ⟨hlo.trans (hw.single hsh).1, UInt64.toNat_inj.mp ?_⟩
    rw [hj.hi, (hw.single hsh).2, (hwx.single hsx).2]
    rfl

/-- Sorting goes on to hold when the range in hand takes in the next one. -/
theorem Sorted.joined {dup : Nat} (hs : Sorted (h :: x :: l)) (hj : Joined h x h' dup) : Sorted (h' :: l) := by
  obtain ⟨hh, hrest⟩ := List.pairwise_cons.mp hs
  refine List.pairwise_cons.mpr ⟨fun y hy => ?_, (List.pairwise_cons.mp hrest).2⟩
  exact (hj.le_iff y).mpr (hh y (List.mem_cons_of_mem _ hy))

theorem Sorted.apart (hs : Sorted (h :: x :: l)) (ha : Apart h x h' x') : Sorted (x' :: l) := by
  obtain ⟨-, hrest⟩ := List.pairwise_cons.mp hs
  obtain ⟨hx, hl⟩ := List.pairwise_cons.mp hrest
  exact List.pairwise_cons.mpr ⟨fun y hy => (ha.right.le_iff (.refl y)).mpr (hx y hy), hl⟩

/-- `hostlist_uniq` merges what is behind the range in hand. -/
theorem hostlistUniqLoop_spec (ndebug : Bool) (fuel : Nat) (hhr : hl.hr = done ++ h :: l)
    (hn : hl.nranges = hl.hr.length) (hw : ∀ hr ∈ h :: l, hr.Wf) (hb : ∀ hr ∈ h :: l, hr.hi.toNat < 2 ^ 31)
    (hs : Sorted (h :: l)) (hfuel : l.length ≤ fuel) :
    ∃ hl' out n, hostlistUniqLoop ndebug fuel (done.length + 1) hl = .ret hl' ∧
      Merges Joined Apart h l out n ∧ hl'.hr = done ++ out ∧ hl'.nranges = hl'.hr.length ∧
      hl'.nhosts = hl.nhosts - Int32.ofNat n := by
  induction fuel generalizing hl done h l with
  | zero =>
      obtain rfl : l = [] := List.length_eq_zero_iff.mp (by omega)
      exact ⟨hl, [h], 0, rfl, .nil h, hhr, hn, by simp⟩
  | succ fuel ih =>
      cases l with
      | nil =>
          refine ⟨hl, [h], 0, ?_, .nil h, hhr, hn, by simp⟩
          rw [hostlistUniqLoop, if_neg (by rw [hn, hhr]; simp)]
          rfl
      | cons x l =>
          obtain ⟨hwh, hwl⟩ := List.forall_mem_cons.mp hw
          obtain ⟨hwx, hwl⟩ := List.forall_mem_cons.mp hwl
          obtain ⟨hbh, hbl⟩ := List.forall_mem_cons.mp hb
          obtain ⟨hbx, hbl⟩ := List.forall_mem_cons.mp hbl
          have hle : h.Le x := (List.pairwise_cons.mp hs).1 x List.mem_cons_self
          rw [hostlistUniqLoop, if_pos (by rw [hn, hhr]; simp)]
          rcases attemptRangeJoin_spec ndebug hhr hwh hwx hbh hbx hle with
            ⟨h', dup, hjoined, hnonneg, hattempt⟩ | ⟨h', x', ndup, hapart, hneg, hattempt⟩
          · -- joined: the loop stays at its place
            have hnot : ¬ Int32.ofNat dup < 0 := by
              rw [Int32.lt_iff_toInt_lt]
              rw [Int32.le_iff_toInt_le] at hnonneg
              have hzero : (0 : Int32).toInt = 0 := rfl
              omega
            obtain ⟨hl', out, n, hloop, hmerges, hhr', hn', hnhosts⟩ := @ih h' done l
              { hr := done ++ h' :: l, nranges := hl.nranges - 1, nhosts := hl.nhosts - Int32.ofNat dup }
              rfl (by simp only [hn, hhr, List.length_append, List.length_cons]; omega)
              (List.forall_mem_cons.mpr ⟨hjoined.wf hwh hwx, hwl⟩)
              (List.forall_mem_cons.mpr ⟨by rw [hjoined.hi]; omega, hbl⟩)
              (hs.joined hjoined) (by simpa using hfuel)
            refine ⟨hl', out, dup + n, ?_, .join hjoined hmerges, hhr', hn', ?_⟩
            · rw [hattempt, Run.ret_bind]
              simp only [if_neg hnot]
              exact hloop
            · rw [hnhosts, Int32.ofNat_add, Int32.sub_sub]
          · -- apart: the loop goes on with the next range in hand
            obtain ⟨hl', out, n, hloop, hmerges, hhr', hn', hnhosts⟩ := @ih x' (done ++ [h']) l
              { hl with hr := done ++ h' :: x' :: l } (by simp)
              (by simp only [hn, hhr, List.length_append, List.length_cons])
              (List.forall_mem_cons.mpr ⟨hapart.right.wf hwx, hwl⟩)
              (List.forall_mem_cons.mpr ⟨by rw [hapart.right.bounds.2]; exact hbx, hbl⟩)
              (hs.apart hapart) (by simpa using hfuel)
            refine ⟨hl', h' :: out, n, ?_, .apart hapart hmerges, by rw [hhr']; simp, hn', hnhosts⟩
            rw [hattempt, Run.ret_bind]
            simp only [if_pos hneg]
            rw [List.length_append] at hloop
            exact hloop

/-! ## What `qsort` leaves -/

theorem rewidth_names {l l' : List Hostrange} (hall : List.Forall₂ Hostrange.Rewidth l l') :
    l'.flatMap Hostrange.names = l.flatMap Hostrange.names := by
  induction hall with
  | nil => rfl
  | cons hr _ ih => rw [List.flatMap_cons, List.flatMap_cons, hr.names, ih]

/-- What holds of a range and of all that print alike holds behind comparisons. -/
theorem rewidth_forall {P : Hostrange → Prop} (hP : ∀ a b, a.Rewidth b → P a → P b) {l l' : List Hostrange}
    (hall : List.Forall₂ Hostrange.Rewidth l l') (hl : ∀ hr ∈ l, P hr) : ∀ hr ∈ l', P hr := by
  induction hall with
  | nil => exact hl
  | cons hr _ ih =>
      obtain ⟨ha, hrest⟩ := List.forall_mem_cons.mp hl
      exact List.forall_mem_cons.mpr ⟨hP _ _ hr ha, ih hrest⟩

/-- The array behind `qsort`: in order, and with the same names. -/
structure InOrder (l s : List Hostrange) : Prop where
  rewidth : ∃ l', List.Forall₂ Hostrange.Rewidth l l' ∧ s.Perm l'
  sorted : Sorted s
  wf : ∀ hr ∈ s, hr.Wf
  below : ∀ hr ∈ s, hr.hi.toNat < 2 ^ 31
  names : (s.flatMap Hostrange.names).Perm (l.flatMap Hostrange.names)
  length : s.length = l.length

theorem Qsorted.inOrder {l s : List Hostrange} (hq : Qsorted l s) (hw : ∀ hr ∈ l, hr.Wf)
    (hb : ∀ hr ∈ l, hr.hi.toNat < 2 ^ 31) : InOrder l s := by
  obtain ⟨l', run, hperm⟩ := hq.compared
  have hall := compared_rewidth run
  have hw' := rewidth_forall (fun _ _ hr h => hr.wf h) hall hw
  have hb' := rewidth_forall (P := fun hr => hr.hi.toNat < 2 ^ 31)
    (fun _ _ hr h => by rw [hr.bounds.2]; exact h) hall hb
  have hwf : ∀ hr ∈ s, hr.Wf := fun hr h => hw' hr (hperm.mem_iff.mp h)
  have hbelow : ∀ hr ∈ s, hr.hi.toNat < 2 ^ 31 := fun hr h => hb' hr (hperm.mem_iff.mp h)
  refine ⟨⟨l', hall, hperm⟩, ?_, hwf, hbelow, ?_, by rw [hperm.length_eq, hall.length_eq]⟩
  · -- below `2^31` the comparator is the order of ranges, which is transitive
    have hchain : s.IsChain Hostrange.Le := by
      refine hq.ordered.imp_of_mem_imp ?_
      intro a b ha hb hcmp
      have hla := (hwf a ha).le
      have hlb := (hwf b hb).le
      have := hbelow a ha
      have := hbelow b hb
      exact (cmp_le_iff (by omega) (by omega)).mp hcmp
    have htrans : IsTrans Hostrange Hostrange.Le := ⟨fun _ _ _ => Hostrange.Le.trans⟩
    exact List.isChain_iff_pairwise.mp hchain
  · rw [← rewidth_names hall]
    exact hperm.flatMap_right _

/-! ## The names that are left -/

/-- Behind a list of one range or none, `hostlist_uniq` is the sort and the merge. -/
theorem hostlistUniq_merges (ndebug : Bool) {qsort : List Hostrange → List Hostrange} (hw : hl.Wf)
    (hb : hl.Below (2 ^ 31)) (hq : Qsorted hl.hr (qsort hl.hr)) (hmany : ¬ hl.nranges ≤ 1) :
    ∃ hl' h l n, hostlistUniq ndebug qsort hl = .ret hl' ∧ qsort hl.hr = h :: l ∧
      InOrder hl.hr (h :: l) ∧ Merges Joined Apart h l hl'.hr n ∧ hl'.nranges = hl'.hr.length ∧
      hl'.nhosts = hl.nhosts - Int32.ofNat n := by
  have hord := hq.inOrder hw.ranges hb
  unfold hostlistUniq
  rw [if_neg hmany]
  cases hsort : qsort hl.hr with
  | nil =>
      have hlength := hord.length
      rw [hsort, ← hw.nranges] at hlength
      simp at hlength
      omega
  | cons h l =>
      rw [hsort] at hord
      have hlength : l.length + 1 = hl.nranges := by rw [hw.nranges, ← hord.length, List.length_cons]
      obtain ⟨hl', out, n, hloop, hmerges, hhr, hn, hnhosts⟩ := @hostlistUniqLoop_spec h [] l
        { hl with hr := h :: l } ndebug hl.nranges rfl (by simp only [List.length_cons]; omega) hord.wf
        hord.below hord.sorted (by omega)
      rw [List.nil_append] at hhr
      subst hhr
      exact ⟨hl', h, l, n, hloop, rfl, hord, hmerges, hn, hnhosts⟩

/-- `hostlist_uniq` keeps the set of names, and `nhosts` counts what is left. -/
theorem hostlist_uniq_names (ndebug : Bool) {qsort : List Hostrange → List Hostrange} (hw : hl.Wf)
    (hb : hl.Below (2 ^ 31)) (hq : Qsorted hl.hr (qsort hl.hr)) :
    ∃ hl', hostlistUniq ndebug qsort hl = .ret hl' ∧ (∀ name, name ∈ hl'.names ↔ name ∈ hl.names) ∧
      hl'.Wf ∧ (hl'.Small → hl'.nhosts.toInt = hl'.names.length) := by
  by_cases hone : hl.nranges ≤ 1
  · unfold hostlistUniq
    rw [if_pos hone]
    exact ⟨hl, rfl, fun _ => Iff.rfl, hw, hw.nhosts_toInt⟩
  · obtain ⟨hl', h, l, n, hret, -, hord, hmerges, hn, hnhosts⟩ := hostlistUniq_merges ndebug hw hb hq hone
    have hapart : ∀ a b a' b', Apart a b a' b' → a'.names = a.names ∧ b'.names = b.names :=
      fun _ _ _ _ ha => ⟨ha.left.names, ha.right.names⟩
    have hlen := hmerges.length_add (fun _ _ _ _ hj => hj.length) hapart
    have hmem := hmerges.mem_iff (fun _ _ _ _ hj => hj.names) hapart
    have hwf : hl'.Wf := by
      refine ⟨?_, hn, ?_⟩
      · obtain ⟨hwh, hwl⟩ := List.forall_mem_cons.mp hord.wf
        exact hmerges.forall_mem (P := Hostrange.Wf) (fun _ _ _ _ hj ha hb => hj.wf ha hb)
          (fun _ _ _ _ ha h₁ h₂ => ⟨ha.left.wf h₁, ha.right.wf h₂⟩) hwh hwl
      · -- what the joins dropped is what `nhosts` went down by
        have htotal : hl.names.length = hl'.names.length + n := by
          rw [Hostlist.names, Hostlist.names, hlen]
          exact hord.names.length_eq.symm
        rw [hnhosts, hw.nhosts, htotal, Int32.ofNat_add, Int32.add_sub_cancel]
    refine ⟨hl', hret, fun name => ?_, hwf, hwf.nhosts_toInt⟩
    rw [Hostlist.names, hmem]
    exact hord.names.mem_iff

/-- Two ranges that overlap and one in front of both, in an array that has to be sorted. -/
theorem hostlist_uniq_names_overlap : ∃ hl',
    hostlistUniq false (List.insertionSort fun a b => cmp a b ≤ 0)
      ⟨[hostrangeCreate "n".toList 3 5 1, hostrangeCreate "n".toList 4 6 1, hostrangeCreate "n".toList 1 1 1],
        3, 7⟩ = .ret hl' ∧ "n6".toList ∈ hl'.names ∧ hl'.Wf := by
  obtain ⟨hl', hret, hnames, hwf, -⟩ := @hostlist_uniq_names
    ⟨[hostrangeCreate "n".toList 3 5 1, hostrangeCreate "n".toList 4 6 1, hostrangeCreate "n".toList 1 1 1], 3, 7⟩
    false (List.insertionSort fun a b => cmp a b ≤ 0)
    ⟨by intro hr hmem; simp only [List.mem_cons, List.not_mem_nil, or_false] at hmem
        rcases hmem with rfl | rfl | rfl <;> exact hostrangeCreate_wf (by decide), rfl, by decide⟩
    (by intro hr hmem; simp only [List.mem_cons, List.not_mem_nil, or_false] at hmem
        rcases hmem with rfl | rfl | rfl <;> decide)
    ⟨⟨_, .refl, by decide⟩, by decide⟩
  exact ⟨hl', hret, (hnames _).mpr (by decide), hwf⟩

/-- `n[0-2147483647],p[0]`, as pushes of smaller ranges make it. -/
def uncountable : Hostlist :=
  ⟨[hostrangeCreate "n".toList 0 2147483647 1, hostrangeCreate "p".toList 0 0 1], 2, Int32.ofNat (2 ^ 31 + 1)⟩

theorem uncountable_length : uncountable.names.length = 2 ^ 31 + 1 := by
  have hlength : (hostrangeCreate "n".toList 0 2147483647 1).names.length = 2 ^ 31 := by
    rw [Hostrange.names_block rfl, length_block]
    exact (by decide : (2147483647 : UInt64).toNat + 1 - (0 : UInt64).toNat = 2 ^ 31)
  rw [Hostlist.names, uncountable]
  simp only [List.flatMap_cons, List.length_append, hlength]
  rfl

/-- All names are different and stay, and `nhosts` is no `int` that counts them. -/
theorem hostlist_uniq_uncounted : uncountable.Wf ∧ uncountable.Below (2 ^ 31) ∧
    (Qsorted uncountable.hr (List.insertionSort (fun a b => cmp a b ≤ 0) uncountable.hr)) ∧
    ∃ hl', hostlistUniq false (List.insertionSort fun a b => cmp a b ≤ 0) uncountable = .ret hl' ∧
      hl'.nhosts.toInt ≠ hl'.names.length := by
  refine ⟨⟨?_, rfl, by rw [uncountable_length]; rfl⟩, ?_, ⟨⟨_, .refl, by decide⟩, by decide⟩,
    uncountable, by decide, ?_⟩
  · intro hr hmem
    simp only [uncountable, List.mem_cons, List.not_mem_nil, or_false] at hmem
    rcases hmem with rfl | rfl <;> exact hostrangeCreate_wf (by decide)
  · intro hr hmem
    simp only [uncountable, List.mem_cons, List.not_mem_nil, or_false] at hmem
    rcases hmem with rfl | rfl <;> decide
  · rw [uncountable_length]
    have hlt := uncountable.nhosts.toInt_lt
    omega

/-! ## When no name is left twice -/

/-- Of the ranges that stand between `a` and `b`, all are compared with `a` by number. -/
def Linked (l : List Hostrange) (a b : Hostrange) : Prop :=
  a.Le b → ∀ p ∈ l, a.Le p → p.Le b → ByNumber a p

/-- `hostlist_uniq` makes one of the names two ranges share: nothing between them keeps them
apart, and they are not too many to be counted. -/
structure Mergeable (l : List Hostrange) (a b : Hostrange) : Prop where
  linked : (∃ name, name ∈ a.names ∧ name ∈ b.names) → Linked l a b ∧ Linked l b a
  countable : ¬ (ByNumber a b ∧ a.Full ∧ b.Full)

theorem ByNumber.symm (h : ByNumber a b) : ByNumber b a :=
  ⟨by rw [hostrangePrefixCmp_swap, h.1]; rfl, h.2.symm⟩

theorem Mergeable.symm (h : Mergeable l a b) : Mergeable l b a where
  linked := fun ⟨name, hb, ha⟩ => (h.linked ⟨name, ha, hb⟩).symm
  countable := fun ⟨hn, hb, ha⟩ => h.countable ⟨hn.symm, ha, hb⟩

/-- Ranges of one place in the order are compared by number. -/
theorem byNumber_of_tie (hab : a.Le b) (hba : b.Le a) : ByNumber a b := by
  have hswap := hostrangePrefixCmp_swap a b
  unfold Hostrange.Le at hab hba
  refine ⟨by omega, combines_iff.mpr (.inl ?_)⟩
  omega

/-- Upwards, ranges that are compared by number with the next one are so with all. -/
theorem ByNumber.trans_le (hab : ByNumber a b) (hbc : ByNumber b c) (hle : a.Le b) (hle' : b.Le c) :
    ByNumber a c := by
  have hlo := hab.lo_le hle
  have hlo' := hbc.lo_le hle'
  obtain ⟨hpa, ha⟩ := hostrangePrefixCmp_eq_zero_iff.mp hab.1
  obtain ⟨hpb, hb⟩ := hostrangePrefixCmp_eq_zero_iff.mp hbc.1
  refine ⟨hostrangePrefixCmp_eq_zero_iff.mpr ⟨hpa.trans hpb, ha.trans hb⟩, ?_⟩
  have hf := (lo_le_iff_of_combines hab.2).mp hlo
  have hf' := (lo_le_iff_of_combines hbc.2).mp hlo'
  have h₁ := combines_iff.mp hab.2
  have h₂ := combines_iff.mp hbc.2
  have hdigits := numDigits_mono hlo'
  have hc : numDigits c.lo.toNat ≤ c.field := Nat.le_max_right ..
  rw [combines_iff]
  omega

theorem ByNumber.right_of_le (hab : ByNumber a b) (hac : ByNumber a c) (hle : a.Le b) (hle' : b.Le c) :
    ByNumber b c := by
  have hlo := hab.lo_le hle
  obtain ⟨hpa, ha⟩ := hostrangePrefixCmp_eq_zero_iff.mp hab.1
  obtain ⟨hpc, hc⟩ := hostrangePrefixCmp_eq_zero_iff.mp hac.1
  have hpfxcmp := hostrangePrefixCmp_eq_zero_iff.mpr ⟨hpa.symm.trans hpc, ha.symm.trans hc⟩
  refine ⟨hpfxcmp, ?_⟩
  have hfield : b.field < c.field ∨ b.field = c.field := by
    unfold Hostrange.Le at hle'
    omega
  have hf := (lo_le_iff_of_combines hab.2).mp hlo
  have h₁ := combines_iff.mp hab.2
  have h₂ := combines_iff.mp hac.2
  rw [combines_iff]
  omega

/-- A range at or below both keeps nothing apart. -/
theorem linked_cons_iff {p : Hostrange} (hp : p.Le a) : Linked (p :: l) a b ↔ Linked l a b := by
  unfold Linked
  simp only [List.forall_mem_cons]
  constructor
  · intro h hab
    exact (h hab).2
  · intro h hab
    exact ⟨fun hap _ => byNumber_of_tie hap hp, h hab⟩

/-- For ranges in order it is enough to look upwards. -/
theorem mergeable_iff_of_le (hab : a.Le b) : Mergeable l a b ↔
    ((∃ name, name ∈ a.names ∧ name ∈ b.names) → ∀ p ∈ l, a.Le p → p.Le b → ByNumber a p) ∧
      ¬ (ByNumber a b ∧ a.Full ∧ b.Full) := by
  constructor
  · rintro ⟨hlinked, hcount⟩
    exact ⟨fun hshare => (hlinked hshare).1 hab, hcount⟩
  · rintro ⟨hlinked, hcount⟩
    refine ⟨fun hshare => ⟨fun _ => hlinked hshare, fun hba p _ hbp hpa => ?_⟩, hcount⟩
    exact byNumber_of_tie hbp (hpa.trans hab)

theorem mergeable_cons_iff {p : Hostrange} (hp : p.Le a) (hab : a.Le b) :
    Mergeable (p :: l) a b ↔ Mergeable l a b := by
  have hlinked : (∀ q ∈ p :: l, a.Le q → q.Le b → ByNumber a q) ↔
      ∀ q ∈ l, a.Le q → q.Le b → ByNumber a q := by
    have := @linked_cons_iff a b l p hp
    unfold Linked at this
    exact ⟨fun h => this.mp (fun _ => h) hab, fun h => this.mpr (fun _ => h) hab⟩
  rw [mergeable_iff_of_le hab, mergeable_iff_of_le hab, hlinked]

/-- What two lists that print alike say of their pairs. -/
theorem pairwise_rewidth {R R' : Hostrange → Hostrange → Prop}
    (hR : ∀ a a' b b', a.Rewidth a' → b.Rewidth b' → (R' a' b' ↔ R a b)) {l l' : List Hostrange}
    (hall : List.Forall₂ Hostrange.Rewidth l l') : l'.Pairwise R' ↔ l.Pairwise R := by
  induction hall with
  | nil => exact ⟨fun _ => .nil, fun _ => .nil⟩
  | cons hr hrest ih =>
      rw [List.pairwise_cons, List.pairwise_cons, ih]
      refine and_congr ?_ Iff.rfl
      clear ih
      induction hrest with
      | nil => exact ⟨fun _ _ h => (List.not_mem_nil h).elim, fun _ _ h => (List.not_mem_nil h).elim⟩
      | cons hr' _ ih => rw [List.forall_mem_cons, List.forall_mem_cons, hR _ _ _ _ hr hr', ih]

theorem mergeable_rewidth {l' : List Hostrange} {b' a' : Hostrange}
    (hall : List.Forall₂ Hostrange.Rewidth l l') (ha : a.Rewidth a') (hb : b.Rewidth b') :
    Mergeable l' a' b' ↔ Mergeable l a b := by
  have hlinked {x x' y y' : Hostrange} (hx : x.Rewidth x') (hy : y.Rewidth y') :
      Linked l' x' y' ↔ Linked l x y := by
    unfold Linked
    rw [hx.le_iff hy]
    refine imp_congr_right fun _ => ?_
    induction hall with
    | nil => exact ⟨fun _ _ h => (List.not_mem_nil h).elim, fun _ _ h => (List.not_mem_nil h).elim⟩
    | cons hr _ ih =>
        rw [List.forall_mem_cons, List.forall_mem_cons, hx.le_iff hr, hr.le_iff hy, hx.byNumber hr, ih]
  have hshare : (∃ name, name ∈ a'.names ∧ name ∈ b'.names) ↔ ∃ name, name ∈ a.names ∧ name ∈ b.names := by
    rw [ha.names, hb.names]
  constructor
  · rintro ⟨hl, hc⟩
    rw [hshare, hlinked ha hb, hlinked hb ha] at hl
    rw [ha.byNumber hb, ha.full, hb.full] at hc
    exact ⟨hl, hc⟩
  · rintro ⟨hl, hc⟩
    rw [← hshare, ← hlinked ha hb, ← hlinked hb ha] at hl
    rw [← ha.byNumber hb, ← ha.full, ← hb.full] at hc
    exact ⟨hl, hc⟩

/-- The pairs of the list that can be merged. -/
abbrev AllMergeable (l : List Hostrange) : Prop := l.Pairwise (Mergeable l)

theorem allMergeable_rewidth {l' : List Hostrange} (hall : List.Forall₂ Hostrange.Rewidth l l') :
    AllMergeable l' ↔ AllMergeable l :=
  pairwise_rewidth (fun _ _ _ _ ha hb => mergeable_rewidth hall ha hb) hall

theorem allMergeable_perm {l' : List Hostrange} (hp : l.Perm l') : AllMergeable l ↔ AllMergeable l' := by
  have hsame (a b : Hostrange) : Mergeable l a b ↔ Mergeable l' a b := by
    have hlinked (a b : Hostrange) : Linked l a b ↔ Linked l' a b := by
      unfold Linked
      simp only [hp.mem_iff]
    exact ⟨fun ⟨hl, hc⟩ => ⟨fun hshare => (hl hshare).imp (hlinked a b).mp (hlinked b a).mp, hc⟩,
      fun ⟨hl, hc⟩ => ⟨fun hshare => (hl hshare).imp (hlinked a b).mpr (hlinked b a).mpr, hc⟩⟩
  have hall : l.Pairwise (Mergeable l) ↔ l.Pairwise (Mergeable l') :=
    ⟨fun h => h.imp fun hm => (hsame _ _).mp hm, fun h => h.imp fun hm => (hsame _ _).mpr hm⟩
  unfold AllMergeable
  rw [hall]
  exact hp.pairwise_iff Mergeable.symm

theorem Hostrange.names_nodup (hr : Hostrange) : hr.names.Nodup := by
  unfold Hostrange.names
  split
  · exact List.nodup_singleton _
  · exact block_nodup

theorem full_names (hn : ByNumber a b) (ha : a.Full) (hb : b.Full) : a.names = b.names := by
  obtain ⟨r, hr⟩ := Option.isSome_iff_exists.mp hn.2
  obtain ⟨w, -, -, hpa, hpb⟩ := hostrangeWidthCombine_some hr
  rw [← Hostrange.names_width hpa, ← Hostrange.names_width hpb,
    @Hostrange.names_block { a with width := w } ha.1, @Hostrange.names_block { b with width := w } hb.1]
  simp only
  rw [ha.2.1, ha.2.2, hb.2.1, hb.2.2, (hostrangePrefixCmp_eq_zero_iff.mp hn.1).1]

/-- A name of two ranges that are compared by number is one number of both. -/
theorem lo_le_of_share (hn : ByNumber a b) (hs : a.singlehost = false) {name : CStr} (ha : name ∈ a.names)
    (hb : name ∈ b.names) : b.lo.toNat ≤ a.hi.toNat := by
  obtain ⟨hpfx, hkind⟩ := hostrangePrefixCmp_eq_zero_iff.mp hn.1
  obtain ⟨i, hi₁, hi₂, rfl⟩ := (Hostrange.mem_names hs).mp ha
  obtain ⟨j, hj₁, hj₂, heq⟩ := (Hostrange.mem_names (hkind ▸ hs)).mp hb
  rw [← hpfx] at heq
  obtain rfl := (pad_eq_pad_iff.mp (List.append_cancel_left heq)).1
  omega

theorem pairwise_congr {R R' : Hostrange → Hostrange → Prop} (hs : Sorted l)
    (hR : ∀ a ∈ l, ∀ b ∈ l, a.Le b → (R a b ↔ R' a b)) : l.Pairwise R ↔ l.Pairwise R' := by
  induction l with
  | nil => exact ⟨fun _ => .nil, fun _ => .nil⟩
  | cons a l ih =>
      obtain ⟨ha, hl⟩ := List.pairwise_cons.mp hs
      rw [List.pairwise_cons, List.pairwise_cons, ih hl fun b hb c hc hle =>
        hR b (List.mem_cons_of_mem _ hb) c (List.mem_cons_of_mem _ hc) hle]
      refine and_congr ?_ Iff.rfl
      exact forall₂_congr fun b hb => hR a List.mem_cons_self b (List.mem_cons_of_mem _ hb) (ha b hb)

/-- One more range joined to the one in hand. -/
theorem allMergeable_joined {dup : Nat} (hs : Sorted (h :: x :: l)) (hj : Joined h x h' dup)
    (hw : h.Wf) (hwx : x.Wf) (hb : h.hi.toNat < 2 ^ 31) (hbx : x.hi.toNat < 2 ^ 31) :
    AllMergeable (h' :: l) ↔ AllMergeable (h :: x :: l) := by
  obtain ⟨hh, hrest⟩ := List.pairwise_cons.mp hs
  obtain ⟨hx, hsl⟩ := List.pairwise_cons.mp hrest
  have hle := hh x List.mem_cons_self
  have hlo := hj.linked.lo_le hle
  have hlo' : h'.lo = h.lo := hj.same.bounds.1
  have hhi := hj.hi
  have hwle := hw.le
  have hwlex := hwx.le
  -- `h'` stands where `h` stood
  have hnum (y : Hostrange) : ByNumber h' y ↔ ByNumber h y := by
    have := hj.same.byNumber (.refl y)
    unfold ByNumber at this ⊢
    simp only [combines_iff_width] at this ⊢
    exact this
  have hfull : h'.Full ↔ h.singlehost = false ∧ h.lo.toNat = 0 ∧ max h.hi.toNat x.hi.toNat = 2 ^ 31 - 1 := by
    unfold Hostrange.Full
    rw [hj.same.pfx.2, hlo', hhi]
  have hkind := (hostrangePrefixCmp_eq_zero_iff.mp hj.linked.1).2
  -- a range behind both, seen from either
  have hdown {y : Hostrange} (hy : y ∈ l) (hn : ByNumber h y) : ByNumber x y :=
    hj.linked.right_of_le hn hle (hx y hy)
  have hup {y : Hostrange} (hy : y ∈ l) (hn : ByNumber x y) : ByNumber h y :=
    hj.linked.trans_le hn hle (hx y hy)
  have htail : l.Pairwise (Mergeable (h' :: l)) ↔ l.Pairwise (Mergeable (h :: x :: l)) := by
    refine pairwise_congr hsl fun a ha b _ hab => ?_
    rw [mergeable_cons_iff ((hj.le_iff a).mpr (hh a (List.mem_cons_of_mem _ ha))) hab,
      mergeable_cons_iff (hh a (List.mem_cons_of_mem _ ha)) hab, mergeable_cons_iff (hx a ha) hab]
  have hfirst : Mergeable (h :: x :: l) h x := by
    refine (mergeable_iff_of_le hle).mpr ⟨fun _ p hp hhp hpx => ?_, fun ⟨_, h₁, h₂⟩ => hj.countable ⟨h₁, h₂⟩⟩
    rcases List.mem_cons.mp hp with rfl | hp
    · exact byNumber_of_tie hhp hhp
    · rcases List.mem_cons.mp hp with rfl | hp
      · exact hj.linked
      · exact hup hp (byNumber_of_tie (hx p hp) hpx)
  have hpairs : (∀ y ∈ l, Mergeable (h' :: l) h' y) ↔
      (∀ y ∈ l, Mergeable (h :: x :: l) h y) ∧ ∀ y ∈ l, Mergeable (h :: x :: l) x y := by
    rw [← forall₂_and]
    refine forall₂_congr fun y hy => ?_
    have hhy := hh y (List.mem_cons_of_mem _ hy)
    have hh'y := (hj.le_iff y).mpr hhy
    rw [mergeable_cons_iff (.refl h') hh'y, mergeable_cons_iff (.refl h) hhy, mergeable_cons_iff hle (hx y hy),
      mergeable_cons_iff (.refl x) (hx y hy), mergeable_iff_of_le hh'y, mergeable_iff_of_le hhy,
      mergeable_iff_of_le (hx y hy)]
    constructor
    · rintro ⟨hlinked, hcount⟩
      refine ⟨⟨fun ⟨name, h₁, h₂⟩ p hp hhp hpy => ?_, fun ⟨hn, h₁, h₂⟩ => ?_⟩,
        fun ⟨name, h₁, h₂⟩ p hp hxp hpy => ?_, fun ⟨hn, h₁, h₂⟩ => ?_⟩
      · rcases List.mem_cons.mp hp with rfl | hp
        · exact hj.linked
        · exact (hnum p).mp (hlinked ⟨name, (hj.names name).mpr (.inl h₁), h₂⟩ p hp
            ((hj.le_iff p).mpr hhp) hpy)
      · obtain ⟨hs₁, hlo₁, hhi₁⟩ := h₁
        exact hcount ⟨(hnum y).mpr hn, hfull.mpr ⟨hs₁, hlo₁, by omega⟩, h₂⟩
      · exact hdown hp ((hnum p).mp (hlinked ⟨name, (hj.names name).mpr (.inr h₁), h₂⟩ p hp
          ((hj.le_iff p).mpr (hle.trans hxp)) hpy))
      · obtain ⟨hs₁, hlo₁, hhi₁⟩ := h₁
        exact hcount ⟨(hnum y).mpr (hup hy hn), hfull.mpr ⟨hkind.trans hs₁, by omega, by omega⟩, h₂⟩
    · rintro ⟨⟨hlinked, hcount⟩, hlinked', hcount'⟩
      refine ⟨fun ⟨name, h₁, h₂⟩ p hp hhp hpy => ?_, fun ⟨hn, h₁, h₂⟩ => ?_⟩
      · rw [hnum]
        rcases (hj.names name).mp h₁ with h₁ | h₁
        · exact hlinked ⟨name, h₁, h₂⟩ p (List.mem_cons_of_mem _ hp) ((hj.le_iff p).mp hhp) hpy
        · exact hup hp (hlinked' ⟨name, h₁, h₂⟩ p hp (hx p hp) hpy)
      · -- one of the two joined ranges is full already
        obtain ⟨hs₁, hlo₁, hmax⟩ := hfull.mp h₁
        have hxy := hdown hy ((hnum y).mp hn)
        have hlo₂ := hxy.lo_le (hx y hy)
        rw [h₂.2.1] at hlo₂
        by_cases hhigh : h.hi.toNat = 2 ^ 31 - 1
        · exact hcount ⟨(hnum y).mp hn, ⟨hs₁, hlo₁, hhigh⟩, h₂⟩
        · exact hcount' ⟨hxy, ⟨hkind.symm.trans hs₁, by omega, by omega⟩, h₂⟩
  unfold AllMergeable
  rw [List.pairwise_cons, List.pairwise_cons, List.pairwise_cons, List.forall_mem_cons, hpairs, htail]
  exact ⟨fun ⟨⟨h₁, h₂⟩, h₃⟩ => ⟨⟨hfirst, h₁⟩, h₂, h₃⟩, fun ⟨⟨_, h₁⟩, h₂, h₃⟩ => ⟨⟨h₁, h₂⟩, h₃⟩⟩

/-- A range put out for good. -/
theorem allMergeable_apart (hs : Sorted (h :: x :: l)) (ha : Apart h x h' x') :
    AllMergeable (h :: x :: l) ↔
      (∀ y ∈ x :: l, ∀ name ∈ h.names, name ∉ y.names) ∧ AllMergeable (x :: l) := by
  obtain ⟨hh, hrest⟩ := List.pairwise_cons.mp hs
  obtain ⟨hx, -⟩ := List.pairwise_cons.mp hrest
  have hxle : ∀ y ∈ x :: l, x.Le y := List.forall_mem_cons.mpr ⟨.refl x, hx⟩
  have htail : (x :: l).Pairwise (Mergeable (h :: x :: l)) ↔ AllMergeable (x :: l) :=
    pairwise_congr hrest fun a ha' b _ hab => mergeable_cons_iff (hh a ha') hab
  have hhead : (∀ y ∈ x :: l, Mergeable (h :: x :: l) h y) ↔ ∀ y ∈ x :: l, ∀ name ∈ h.names, name ∉ y.names := by
    constructor
    · intro hall y hy name hname hname'
      have hlinked := ((mergeable_iff_of_le (hh y hy)).mp (hall y hy)).1 ⟨name, hname, hname'⟩
      have hnx := hlinked x (by simp) (hh x List.mem_cons_self) (hxle y hy)
      have hny := hlinked y (List.mem_cons_of_mem _ hy) (hh y hy) (.refl y)
      rcases ha.why with hno | ⟨hsingle, hgap⟩ | hfull
      · exact hno hnx
      · -- `y` begins no lower than `x` does
        have hlo := (hnx.right_of_le hny (hh x List.mem_cons_self) (hxle y hy)).lo_le (hxle y hy)
        have := lo_le_of_share hny hsingle hname hname'
        omega
      · exact (hall x List.mem_cons_self).countable ⟨hnx, hfull⟩
    · intro hnone y hy
      refine (mergeable_iff_of_le (hh y hy)).mpr ⟨fun ⟨name, h₁, h₂⟩ => absurd h₂ (hnone y hy name h₁), ?_⟩
      rintro ⟨hn, h₁, h₂⟩
      have hmem : h.pfx ++ pad h.width h.lo.toNat ∈ h.names :=
        (Hostrange.mem_names h₁.1).mpr ⟨h.lo.toNat, le_rfl, by rw [h₁.2.1, h₁.2.2]; decide, rfl⟩
      exact hnone y hy _ hmem (full_names hn h₁ h₂ ▸ hmem)
  unfold AllMergeable at htail ⊢
  rw [List.pairwise_cons, hhead, htail]

/-- Merging in order leaves no name twice if and only if all ranges can be merged. -/
theorem merges_nodup_iff {n : Nat} (hm : Merges Joined Apart h l out n) (hs : Sorted (h :: l))
    (hw : ∀ hr ∈ h :: l, hr.Wf) (hb : ∀ hr ∈ h :: l, hr.hi.toNat < 2 ^ 31) :
    (out.flatMap Hostrange.names).Nodup ↔ AllMergeable (h :: l) := by
  induction hm with
  | nil a =>
      rw [List.flatMap_singleton]
      exact ⟨fun _ => List.pairwise_singleton _ _, fun _ => a.names_nodup⟩
  | join hj _ ih =>
      obtain ⟨hwa, hwl⟩ := List.forall_mem_cons.mp hw
      obtain ⟨hwb, hwl⟩ := List.forall_mem_cons.mp hwl
      obtain ⟨hba, hbl⟩ := List.forall_mem_cons.mp hb
      obtain ⟨hbb, hbl⟩ := List.forall_mem_cons.mp hbl
      rw [ih (hs.joined hj) (List.forall_mem_cons.mpr ⟨hj.wf hwa hwb, hwl⟩)
        (List.forall_mem_cons.mpr ⟨by rw [hj.hi]; omega, hbl⟩)]
      exact allMergeable_joined hs hj hwa hwb hba hbb
  | @apart a b a' b' l out n ha hrest ih =>
      obtain ⟨-, hwl⟩ := List.forall_mem_cons.mp hw
      obtain ⟨hwb, hwl⟩ := List.forall_mem_cons.mp hwl
      obtain ⟨-, hbl⟩ := List.forall_mem_cons.mp hb
      obtain ⟨hbb, hbl⟩ := List.forall_mem_cons.mp hbl
      have hih := ih (hs.apart ha) (List.forall_mem_cons.mpr ⟨ha.right.wf hwb, hwl⟩)
        (List.forall_mem_cons.mpr ⟨by rw [ha.right.bounds.2]; exact hbb, hbl⟩)
      have hmem := hrest.mem_iff (fun _ _ _ _ hj => hj.names)
        (fun _ _ _ _ ha => ⟨ha.left.names, ha.right.names⟩)
      have hsame : AllMergeable (b' :: l) ↔ AllMergeable (b :: l) :=
        allMergeable_rewidth (.cons ha.right (List.forall₂_same.mpr fun y _ => .refl y))
      rw [allMergeable_apart hs ha, List.flatMap_cons, List.nodup_append', hih, hsame, ha.left.names]
      -- the names put out later are those of the ranges behind
      have hdisjoint : a.names.Disjoint (out.flatMap Hostrange.names) ↔
          ∀ y ∈ b :: l, ∀ name ∈ a.names, name ∉ y.names := by
        unfold List.Disjoint
        simp only [hmem, List.flatMap_cons, ha.right.names, List.mem_append, List.mem_flatMap,
          List.forall_mem_cons]
        constructor
        · intro hno
          exact ⟨fun name h₁ h₂ => hno h₁ (.inl h₂), fun y hy name h₁ h₂ => hno h₁ (.inr ⟨y, hy, h₂⟩)⟩
        · rintro ⟨h₁, h₂⟩ name hname (hb' | ⟨y, hy, hy'⟩)
          · exact h₁ name hname hb'
          · exact h₂ y hy name hname hy'
      rw [hdisjoint]
      exact ⟨fun ⟨_, h₂, h₃⟩ => ⟨h₃, h₂⟩, fun ⟨h₁, h₂⟩ => ⟨a.names_nodup, h₂, h₁⟩⟩

/-- `hostlist_uniq` leaves no name twice if and only if all ranges that share a name can be
merged. -/
theorem hostlist_uniq_nodup_iff (ndebug : Bool) {qsort : List Hostrange → List Hostrange} (hw : hl.Wf)
    (hb : hl.Below (2 ^ 31)) (hq : Qsorted hl.hr (qsort hl.hr)) :
    ∃ hl', hostlistUniq ndebug qsort hl = .ret hl' ∧ (hl'.names.Nodup ↔ AllMergeable hl.hr) := by
  by_cases hone : hl.nranges ≤ 1
  · unfold hostlistUniq
    rw [if_pos hone]
    refine ⟨hl, rfl, ?_⟩
    rw [hw.nranges] at hone
    unfold Hostlist.names
    cases hhr : hl.hr with
    | nil => exact ⟨fun _ => .nil, fun _ => .nil⟩
    | cons a l =>
        obtain rfl : l = [] := List.length_eq_zero_iff.mp (by rw [hhr] at hone; simpa using hone)
        rw [List.flatMap_singleton]
        exact ⟨fun _ => List.pairwise_singleton _ _, fun _ => a.names_nodup⟩
  · obtain ⟨hl', h, l, n, hret, -, hord, hmerges, -, -⟩ := hostlistUniq_merges ndebug hw hb hq hone
    obtain ⟨l', hall, hperm⟩ := hord.rewidth
    refine ⟨hl', hret, ?_⟩
    rw [Hostlist.names, merges_nodup_iff hmerges hord.sorted hord.wf hord.below, allMergeable_perm hperm,
      allMergeable_rewidth hall]

/-- `n100` is in both ranges; the one that is written with zeros is not compared by number. -/
theorem hostlist_uniq_twice :
    Qsorted [hostrangeCreate "n".toList 99 100 2, hostrangeCreate "n".toList 98 100 3]
        [hostrangeCreate "n".toList 99 100 2, hostrangeCreate "n".toList 98 100 3] ∧
      ∃ hl', hostlistUniq false id
        ⟨[hostrangeCreate "n".toList 99 100 2, hostrangeCreate "n".toList 98 100 3], 2, 5⟩ = .ret hl' ∧
        ¬ hl'.names.Nodup := by
  refine ⟨⟨⟨_, .refl, .refl _⟩, by decide⟩, _, rfl, by decide⟩

/-- The condition sees it. -/
theorem hostlist_uniq_nodup_iff_widths :
    ¬ AllMergeable [hostrangeCreate "n".toList 99 100 2, hostrangeCreate "n".toList 98 100 3] := by
  obtain ⟨hl', hret, hiff⟩ := @hostlist_uniq_nodup_iff
    ⟨[hostrangeCreate "n".toList 99 100 2, hostrangeCreate "n".toList 98 100 3], 2, 5⟩ false id
    ⟨by intro hr hmem; simp only [List.mem_cons, List.not_mem_nil, or_false] at hmem
        rcases hmem with rfl | rfl <;> exact hostrangeCreate_wf (by decide), rfl, by decide⟩
    (by intro hr hmem; simp only [List.mem_cons, List.not_mem_nil, or_false] at hmem
        rcases hmem with rfl | rfl <;> decide)
    ⟨⟨_, .refl, .refl _⟩, by decide⟩
  rw [← hiff]
  cases hret
  decide

end Pdsh
