import Pdsh.Hostlist.Names

/-!
# What the list operations do to the names

One lemma for each function that changes a host list: the invariant is kept,
and the names become what the operation is meant to make of them. Appending
may merge the new range into the last one, removing may shrink, split or drop
a range; the names see none of it.

Numbers are assumed to stay below `ULONG_MAX` here: `hostlist_push_range`
takes a range that ends there to be followed by one that starts at 0.
-/

namespace Pdsh

open Lib Lib.Decimal Lib.Chunks

variable {hl hl' : Hostlist} {hr tail : Hostrange} {B : Nat}

/-! ## The array -/

theorem storeRange_length {l : List Hostrange} {x : Hostrange} :
    storeRange l l.length x = l ++ [x] := by
  simp [storeRange]

theorem storeRange_mid {pre post : List Hostrange} {x y : Hostrange} :
    storeRange (pre ++ x :: post) pre.length y = pre ++ y :: post := by
  simp [storeRange]

theorem Hostlist.Below.of_mem (hb : hl.Below B) (h : hr ∈ hl.hr) : hr.hi.toNat < B := hb hr h

theorem Hostlist.Below.mono {B' : Nat} (hb : hl.Below B) (hB : B ≤ B') : hl.Below B' :=
  fun hr h => Nat.lt_of_lt_of_le (hb hr h) hB

/-! ## Appending -/

/-- The range `hostlist_push_range` looks at is the last one, and the new range
begins where it ends. -/
theorem hostlistTail_some (hn : hl.nranges = hl.hr.length) (h : hostlistTail hl hr = some tail) :
    ∃ pre, hl.hr = pre ++ [tail] ∧ tail.pfx = hr.pfx ∧ tail.singlehost = hr.singlehost ∧
      tail.hi = hr.lo - 1 := by
  unfold hostlistTail at h
  split at h
  case isFalse => cases h
  case isTrue hpos =>
    rw [Option.filter_eq_some_iff] at h
    obtain ⟨hget, hcond⟩ := h
    simp only [Bool.decide_and, Bool.and_eq_true, decide_eq_true_eq] at hcond
    obtain ⟨hcmp, hhi⟩ := hcond
    rw [hn] at hget hpos
    have hlt : hl.hr.length - 1 < hl.hr.length := by omega
    rw [List.getElem?_eq_getElem hlt] at hget
    have hlast : tail = hl.hr.getLast (List.length_pos_iff.mp hpos) := by
      rw [List.getLast_eq_getElem]
      exact (Option.some.inj hget).symm
    obtain ⟨hpfx, hs⟩ := hostrangePrefixCmp_eq_zero_iff.mp hcmp
    exact ⟨hl.hr.dropLast, by rw [hlast, List.dropLast_append_getLast], hpfx, hs, hhi⟩

/-- A range that extends another holds numbers, and its first one is next. -/
theorem next_of_tail (hwr : hr.Wf) (hmax : tail.hi.toNat < ULONG_MAX.toNat)
    (h : tail.hi = hr.lo - 1) : hr.singlehost = false ∧ tail.hi.toNat + 1 = hr.lo.toNat := by
  have hlo : hr.lo ≠ 0 := by
    intro h0
    rw [h, h0] at hmax
    exact absurd hmax (by decide)
  have hne : hr.lo.toNat ≠ 0 := fun h0 => hlo (UInt64.toNat_inj.mp h0)
  have h1 : (1 : UInt64).toNat = 1 := rfl
  refine ⟨?_, ?_⟩
  · rw [Bool.eq_false_iff]
    exact fun hsingle => hlo (hwr.single hsingle).1
  · rw [h, UInt64.toNat_sub_of_le _ _ (UInt64.le_iff_toNat_le.mpr (by omega)), h1]
    omega

/-- The names of two ranges that meet, once they have one width. -/
theorem names_merge (hw : tail.Wf) (hwr : hr.Wf) (hpfx : tail.pfx = hr.pfx)
    (hs : tail.singlehost = false) (hs' : hr.singlehost = false) (hwid : tail.width = hr.width)
    (hnext : tail.hi.toNat + 1 = hr.lo.toNat) :
    ({ tail with hi := hr.hi } : Hostrange).names = tail.names ++ hr.names := by
  have hle := hw.le
  have hle' := hwr.le
  have hlo : hr.lo.toNat = tail.lo.toNat + (tail.hi.toNat + 1 - tail.lo.toNat) := by omega
  have hmerged : ({ tail with hi := hr.hi } : Hostrange).singlehost = false := hs
  rw [Hostrange.names_block hmerged, Hostrange.names_block hs, Hostrange.names_block hs', ← hpfx, ← hwid]
  conv_rhs => rw [hlo, block_append]
  simp only
  congr 1
  omega

/-- What a push leaves: the names of both, in order, and the pushed range with
at most another width that prints it the same. -/
structure Pushed (hl : Hostlist) (hr : Hostrange) (r : Hostlist × Hostrange × Int32) : Prop where
  wf : r.1.Wf
  names : r.1.names = hl.names ++ hr.names
  below : ∀ B, hl.Below B → hr.hi.toNat < B → r.1.Below B
  result : r.2.2 = r.1.nhosts
  range : hr.Rewidth r.2.1

theorem hostlistPushRange_spec (hw : hl.Wf) (hb : hl.Below ULONG_MAX.toNat) (hwr : hr.Wf) :
    Pushed hl hr (hostlistPushRange hl hr) := by
  unfold hostlistPushRange
  split
  case h_1 t r heq =>
    obtain ⟨tail, htail, hcomb⟩ := Option.bind_eq_some_iff.mp heq
    obtain ⟨pre, hhr, hpfx, hs, hhi⟩ := hostlistTail_some hw.nranges htail
    obtain ⟨w, hr', -, hp, hpr⟩ := hostrangeWidthCombine_some hcomb
    obtain ⟨rfl, rfl⟩ := Prod.mk.inj hr'
    have hmem : tail ∈ hl.hr := by simp [hhr]
    have htw := hw.ranges tail hmem
    -- the last range ends below `ULONG_MAX`, so its next number is one more, and both hold numbers
    obtain ⟨hsr, hnext⟩ := next_of_tail hwr (hb.of_mem hmem) hhi
    have hst : tail.singlehost = false := by rw [hs, hsr]
    have htw' : Hostrange.Wf { tail with width := w } := ⟨htw.le, by simp [hst]⟩
    have hwr' : Hostrange.Wf { hr with width := w } := ⟨hwr.le, by simp [hsr]⟩
    have hmerge := names_merge htw' hwr' hpfx hst hsr rfl hnext
    rw [Hostrange.names_width hp, Hostrange.names_width hpr] at hmerge
    have hidx : hl.nranges - 1 = pre.length := by
      rw [hw.nranges, hhr]
      simp
    have hcount : hostrangeCount { hr with width := w } = hostrangeCount hr := rfl
    simp only at hmerge
    have hnames : hl.names = pre.flatMap Hostrange.names ++ tail.names := by
      simp [Hostlist.names, hhr]
    simp only [hidx, hhr, storeRange_mid]
    constructor
    · constructor
      · intro x hx
        rcases List.mem_append.mp hx with hx | hx
        · exact hw.ranges x (by simp [hhr, hx])
        · rw [List.mem_singleton.mp hx]
          exact ⟨by have := htw.le; have := hwr.le; simp only; omega, by simp [hst]⟩
      · simp [hw.nranges, hhr]
      · simp only [Hostlist.names, List.flatMap_append, List.flatMap_singleton, hmerge]
        rw [hcount, intOfUlong_count hwr, hw.nhosts, int32_ofNat_add, hnames]
        simp [Nat.add_assoc]
    · simp only [Hostlist.names, List.flatMap_append, List.flatMap_singleton, hmerge]
      simp [hhr]
    · intro B hB hlt x hx
      rcases List.mem_append.mp hx with hx | hx
      · exact hB x (by simp [hhr, hx])
      · rw [List.mem_singleton.mp hx]
        exact hlt
    · rfl
    · exact ⟨w, rfl, hpr⟩
  case h_2 =>
    -- a copy is appended
    obtain ⟨-, hchi⟩ := hostrangeCopy_bounds hwr
    simp only [hw.nranges, storeRange_length]
    constructor
    · constructor
      · intro x hx
        rcases List.mem_append.mp hx with hx | hx
        · exact hw.ranges x hx
        · rw [List.mem_singleton.mp hx]
          exact hwr.copy
      · simp
      · rw [intOfUlong_count hwr, hw.nhosts, int32_ofNat_add]
        simp [Hostlist.names]
    · simp [Hostlist.names]
    · intro B hB hlt x hx
      rcases List.mem_append.mp hx with hx | hx
      · exact hB x hx
      · rw [List.mem_singleton.mp hx, hchi]
        exact hlt
    · rfl
    · exact ⟨hr.width, rfl, rfl⟩

/-- A list with names appended: the invariant and every bound on the numbers,
if the new numbers keep it. -/
structure Appended (B : Nat) (hl : Hostlist) (names : List CStr) (hl' : Hostlist) : Prop where
  wf : hl'.Wf
  names : hl'.names = hl.names ++ names
  below : hl'.Below B

theorem Appended.refl (hw : hl.Wf) (hb : hl.Below B) : Appended B hl [] hl :=
  ⟨hw, by simp, hb⟩

theorem Appended.trans {hl'' : Hostlist} {a b : List CStr} (h : Appended B hl a hl')
    (h' : Appended B hl' b hl'') : Appended B hl (a ++ b) hl'' :=
  ⟨h'.wf, by rw [h'.names, h.names, List.append_assoc], h'.below⟩

theorem hostlistPushRange_appended (hB : B ≤ ULONG_MAX.toNat) (hw : hl.Wf) (hb : hl.Below B)
    (hwr : hr.Wf) (hlt : hr.hi.toNat < B) :
    Appended B hl hr.names (hostlistPushRange hl hr).1 := by
  have hp := hostlistPushRange_spec hw (hb.mono hB) hwr
  exact ⟨hp.wf, hp.names, hp.below B hb hlt⟩

/-- `hostlist_push_list` appends the names of the second list and changes none
of them. -/
theorem hostlistPushListLoop_spec (hB : B ≤ ULONG_MAX.toNat) {rest : List Hostrange} {n : Int32}
    (hw : hl.Wf) (hb : hl.Below B) (hwr : ∀ x ∈ rest, x.Wf) (hbr : ∀ x ∈ rest, x.hi.toNat < B) :
    Appended B hl (rest.flatMap Hostrange.names) (hostlistPushListLoop rest hl n).1 ∧
      (hostlistPushListLoop rest hl n).2.1.flatMap Hostrange.names =
        rest.flatMap Hostrange.names ∧
      (hostlistPushListLoop rest hl n).2.1.length = rest.length ∧
      (∀ x ∈ (hostlistPushListLoop rest hl n).2.1, x.Wf ∧ x.hi.toNat < B) := by
  induction rest generalizing hl n with
  | nil => exact ⟨Appended.refl hw hb, rfl, rfl, by simp [hostlistPushListLoop]⟩
  | cons x rest ih =>
      have hx := hwr x (by simp)
      have hlt := hbr x (by simp)
      have hp := hostlistPushRange_spec hw (hb.mono hB) hx
      have happ := hostlistPushRange_appended hB hw hb hx hlt
      obtain ⟨happ', hnames, hlen, hall⟩ :=
        ih (n := n + (hostlistPushRange hl x).2.2) happ.wf happ.below
          (fun y hy => hwr y (List.mem_cons_of_mem _ hy))
          (fun y hy => hbr y (List.mem_cons_of_mem _ hy))
      simp only [hostlistPushListLoop, List.flatMap_cons, List.length_cons]
      refine ⟨happ.trans happ', ?_, by rw [hlen], ?_⟩
      · rw [hp.range.names, hnames]
      · intro y hy
        rcases List.mem_cons.mp hy with rfl | hy
        · exact ⟨hp.range.wf hx, by rw [hp.range.bounds.2]; exact hlt⟩
        · exact hall y hy

theorem hostlistPushList_spec {h1 h2 : Hostlist} (hB : B ≤ ULONG_MAX.toNat) (hw1 : h1.Wf)
    (hb1 : h1.Below B) (hw2 : h2.Wf) (hb2 : h2.Below B) :
    Appended B h1 h2.names (hostlistPushList h1 h2).1 ∧
      Appended B hostlistNew h2.names (hostlistPushList h1 h2).2.1 := by
  have htake : h2.hr.take h2.nranges = h2.hr := by rw [hw2.nranges, List.take_length]
  have hdrop : h2.hr.drop h2.nranges = [] := by rw [hw2.nranges, List.drop_length]
  obtain ⟨happ, hnames, hlen, hall⟩ :=
    hostlistPushListLoop_spec (n := 0) hB hw1 hb1 hw2.ranges hb2
  simp only [hostlistPushList, htake, hdrop, List.append_nil]
  refine ⟨happ, ⟨fun x hx => (hall x hx).1, ?_, ?_⟩, ?_, fun x hx => (hall x hx).2⟩
  · simp only [hlen, hw2.nranges]
  · simp only [Hostlist.names, hnames, hw2.nhosts]
  · simp only [Hostlist.names, hnames, hostlistNew, List.flatMap_nil, List.nil_append]

theorem hostlistCopy_spec (hw : hl.Wf) (hb : hl.Below B) :
    Appended B hostlistNew hl.names (hostlistCopy hl) := by
  have htake : hl.hr.take hl.nranges = hl.hr := by rw [hw.nranges, List.take_length]
  have hnames : (hostlistCopy hl).names = hl.names := by
    simp [Hostlist.names, hostlistCopy, htake, List.flatMap_map]
  refine ⟨⟨?_, ?_, ?_⟩, by simpa using hnames, ?_⟩
  · simp only [hostlistCopy, htake, List.mem_map]
    rintro x ⟨y, hy, rfl⟩
    exact (hw.ranges y hy).copy
  · simp [hostlistCopy, hw.nranges]
  · rw [hnames]
    exact hw.nhosts
  · simp only [Hostlist.Below, hostlistCopy, htake, List.mem_map]
    rintro x ⟨y, hy, rfl⟩
    rw [(hostrangeCopy_bounds (hw.ranges y hy)).2]
    exact hb y hy

end Pdsh
