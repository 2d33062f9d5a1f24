import Pdsh.Hostlist.Honest
import Pdsh.Hostlist.Parse

/-!
# The ranged text in a buffer of any size

`hostlist_ranged_string` stays inside its buffer, and says -1 exactly when the text it has to print
does not fit (`ranged_honest`). That text is the canonical one, in which a group has a bracket when
it holds more than one host, unless the count of its hosts has wrapped or the list begins with an
empty name (`ranged_canonical_iff`).
-/

namespace Pdsh

open Lib Lib.Chunks Lib.Decimal Lib.Memory

variable {hl : Hostlist} {hr : Hostrange} {rest more : List Hostrange} {m : Mem} {off n len : Nat}

/-! ## Staying inside -/

theorem hostrangeNumstr_within : Within off (off + n) m (hostrangeNumstr hr m off n).1 := by
  unfold hostrangeNumstr
  split
  · exact .refl _ _ _
  · have hlow : Within off (off + n) m (snprintfAt m off n (pad hr.width hr.lo.toNat)) :=
      snprintfAt_within (.refl _ _ _) (Nat.le_refl _) (Nat.le_refl _)
    simp only
    split
    · rename_i hroom
      exact snprintfAt_within hlow (by omega) (by omega)
    · exact hlow

theorem hostrangeNumstr_le : (hostrangeNumstr hr m off n).2 ≤ (numText hr).length := by
  unfold hostrangeNumstr numText
  split
  · exact Nat.zero_le _
  · rename_i hnumbers
    rw [if_neg fun hs => hnumbers (.inl hs), List.length_append]
    simp only
    split
    · rename_i hroom
      rw [if_pos hroom.2]
    · exact Nat.le_add_right _ _

theorem bracketedLoop_within {b : Bool} (hlen : len ≤ n) :
    Within off (off + n) m (bracketedLoop b off n hr rest m len).1 := by
  have hnum : ∀ (hr : Hostrange) (m : Mem) (len : Nat), len ≤ n →
      Within off (off + n) m (hostrangeNumstr hr m (off + len) (n - len)).1 := by
    intro hr m len hlen i hi
    exact hostrangeNumstr_within i (by omega)
  have hround : ∀ (hr : Hostrange) (m : Mem) (len : Nat), len ≤ n →
      len + (hostrangeNumstr hr m (off + len) (n - len)).2 < n →
      Within off (off + n) m (if b then setByte (hostrangeNumstr hr m (off + len) (n - len)).1
        (off + (len + (hostrangeNumstr hr m (off + len) (n - len)).2)) ','
        else (hostrangeNumstr hr m (off + len) (n - len)).1) := by
    intro hr m len hlen hroom
    split
    · exact (hnum hr m len hlen).setByte (by omega) (by omega)
    · exact hnum hr m len hlen
  induction rest generalizing hr m len with
  | nil =>
      unfold bracketedLoop
      simp only
      split
      · exact hnum hr m len hlen
      · exact hround hr m len hlen (by omega)
  | cons next rest ih =>
      unfold bracketedLoop
      simp only
      split
      · exact hnum hr m len hlen
      · split
        · exact (hround hr m len hlen (by omega)).trans (ih (by split <;> omega))
        · exact hround hr m len hlen (by omega)

theorem getBracketedList_within (hn : 0 < n) : Within off (off + n) m (getBracketedList hr rest m off n).1 := by
  have hpfx : Within off (off + n) m (snprintfAt m off n hr.pfx) :=
    snprintfAt_within (.refl _ _ _) (Nat.le_refl _) (Nat.le_refl _)
  unfold getBracketedList
  simp only
  split
  · exact hpfx
  · rename_i hle
    have hopened : Within off (off + n) m (if isBracketNeeded hr rest.head? = true ∧ hr.pfx.length < n then
        setByte (snprintfAt m off n hr.pfx) (off + hr.pfx.length) '[' else snprintfAt m off n hr.pfx) := by
      split
      · exact hpfx.setByte (by omega) (by omega)
      · exact hpfx
    have hlen : (if isBracketNeeded hr rest.head? = true ∧ hr.pfx.length < n then hr.pfx.length + 1
        else hr.pfx.length) ≤ n := by
      split <;> omega
    generalize (if isBracketNeeded hr rest.head? = true ∧ hr.pfx.length < n then
      setByte (snprintfAt m off n hr.pfx) (off + hr.pfx.length) '[' else snprintfAt m off n hr.pfx) = m₁ at *
    generalize (if isBracketNeeded hr rest.head? = true ∧ hr.pfx.length < n then hr.pfx.length + 1
      else hr.pfx.length) = len₁ at *
    have hloop := hopened.trans (@bracketedLoop_within hr rest m₁ off n len₁ (isBracketNeeded hr rest.head?) hlen)
    split
    · rename_i hclose
      exact (hloop.setByte (by omega) (by omega)).setByte (by omega) (by omega)
    · split
      · exact hloop.setByte (by omega) (by omega)
      · exact hloop.setByte (by omega) (by omega)

/-! ## Being cut short -/

theorem bracketedLoop_cut {b : Bool} (h : n ≤ (bracketedLoop b off n hr rest m len).2.1) :
    n ≤ len + ((hr :: (groupRest hr rest).1).flatMap (loopText b)).length := by
  -- cut in its first range, the text is longer with whatever follows
  have hfirst : ∀ (hr : Hostrange) (m : Mem) (len : Nat) (more : CStr),
      n ≤ len + (hostrangeNumstr hr m (off + len) (n - len)).2 → n ≤ len + (loopText b hr ++ more).length := by
    intro hr m len more hcut
    have hle := @hostrangeNumstr_le hr m (off + len) (n - len)
    rw [loopText, List.length_append, List.length_append]
    omega
  induction rest generalizing hr m len with
  | nil =>
      rw [groupRest, List.flatMap_cons]
      unfold bracketedLoop at h
      simp only at h
      by_cases hbreak : len + (hostrangeNumstr hr m (off + len) (n - len)).2 ≥ n
      · exact hfirst hr m len _ hbreak
      · rw [if_neg hbreak] at h
        simp only at h
        rw [(loopText_prints b (Nat.not_le.mp hbreak)).2] at h
        rw [List.length_append]
        omega
  | cons next rest ih =>
      unfold bracketedLoop at h
      simp only at h
      by_cases hbreak : len + (hostrangeNumstr hr m (off + len) (n - len)).2 ≥ n
      · rw [List.flatMap_cons]
        exact hfirst hr m len _ hbreak
      · rw [if_neg hbreak] at h
        obtain ⟨-, hlen⟩ := loopText_prints b (Nat.not_le.mp hbreak)
        by_cases hin : hostrangeWithinRange next (some hr)
        · rw [if_pos hin] at h
          have hrest := ih h
          rw [hlen] at hrest
          rw [groupRest, if_pos hin]
          simp only [List.flatMap_cons, List.length_append] at hlen hrest ⊢
          omega
        · rw [if_neg hin] at h
          simp only at h
          rw [hlen] at h
          rw [groupRest, if_neg hin]
          simp only [List.flatMap_cons, List.length_append] at h ⊢
          omega

theorem getBracketedList_cut (h : n ≤ (getBracketedList hr rest m off n).2.1) :
    n ≤ (groupText (isBracketNeeded hr rest.head?) hr (groupRest hr rest).1).length := by
  have hpfx : hr.pfx.length ≤ (groupText (isBracketNeeded hr rest.head?) hr (groupRest hr rest).1).length := by
    unfold groupText
    split
    · rw [List.append_assoc, List.length_append]
      exact Nat.le_add_right _ _
    · rw [List.length_append]
      exact Nat.le_add_right _ _
  unfold getBracketedList at h
  simp only at h
  by_cases hfull : hr.pfx.length ≥ n
  · omega
  rw [if_neg (by omega)] at h
  have hroom : hr.pfx.length < n := Nat.not_le.mp hfull
  cases hb : isBracketNeeded hr rest.head? with
  | true =>
      simp only [hb, hroom, and_self, if_true, true_and] at h
      have hcut : n ≤ (bracketedLoop true off n hr rest
          (setByte (snprintfAt m off n hr.pfx) (off + hr.pfx.length) '[') (hr.pfx.length + 1)).2.1 := by
        split at h
        · exact h
        · split at h <;> exact h
      have hmore := bracketedLoop_cut hcut
      rw [flatMap_loopText] at hmore
      simp only [groupText, if_true, List.length_append, List.length_cons, List.length_nil] at hmore ⊢
      omega
  | false =>
      have hgroup := groupRest_of_not_bracket hb
      simp only [hb, Bool.false_eq_true, false_and, if_false] at h
      have hcut : n ≤ (bracketedLoop false off n hr rest (snprintfAt m off n hr.pfx) hr.pfx.length).2.1 := by
        split at h <;> exact h
      have hmore := bracketedLoop_cut hcut
      rw [hgroup] at hmore
      simp only [List.flatMap_cons, List.flatMap_nil, loopText, Bool.false_eq_true, if_false,
        List.append_nil] at hmore
      simp only [groupText, Bool.false_eq_true, if_false, List.length_append]
      exact hmore

/-! ## The whole list -/

theorem rangedStringLoop_within {fuel : Nat} {ranges : List Hostrange} :
    Within 0 n m (rangedStringLoop n fuel ranges m len).1 := by
  induction fuel generalizing ranges m len with
  | zero => exact .refl _ _ _
  | succ fuel ih =>
      cases ranges with
      | nil => exact .refl _ _ _
      | cons hr rest =>
          rw [rangedStringLoop]
          split
          · rename_i hlt
            have hgroup : Within 0 n m (getBracketedList hr rest m len (n - len)).1 := by
              intro i hi
              exact getBracketedList_within (by omega) i (by omega)
            simp only
            refine Within.trans ?_ ih
            split
            · rename_i hcomma
              exact hgroup.setByte (Nat.zero_le _) hcomma.2.1
            · exact hgroup
          · exact .refl _ _ _

theorem rangedStringLoop_cut {fuel : Nat} {ranges : List Hostrange} (hfuel : ranges.length < fuel)
    (h : n ≤ (rangedStringLoop n fuel ranges m len).2) :
    n ≤ len + (rangedText (shownGroups len (groupsLoop fuel ranges))).length := by
  induction fuel generalizing ranges m len with
  | zero => omega
  | succ fuel ih =>
      cases ranges with
      | nil =>
          have hlen : n ≤ len := h
          omega
      | cons hr rest =>
          by_cases hlt : len < n
          · have hless := groupRest_length hr rest
            rw [List.length_cons] at hfuel
            rw [rangedText_round (by omega), List.length_append]
            by_cases hnext : (getBracketedList hr rest m len (n - len)).2.1 < n - len
            · obtain ⟨m', -, heq⟩ := @rangedStringLoop_round hr m n len fuel rest hlt hnext
              rw [heq] at h
              have hrest := ih (by omega) h
              omega
            · have hgroup := getBracketedList_cut (Nat.not_lt.mp hnext)
              have hround : (groupText (isBracketNeeded hr rest.head?) hr (groupRest hr rest).1).length ≤
                  (roundText len hr rest).length := by
                rw [roundText, List.length_append]
                exact Nat.le_add_right _ _
              omega
          · omega

/-- `hostlist_ranged_string` is honest about the text it prints, whatever the size of its buffer. -/
theorem ranged_honest (hrep : hl.nranges = hl.hr.length) (hn : 0 < n) :
    Honest (hostlistRangedString hl n) 0 n hl.printedText := by
  intro m
  have htake : hl.hr.take hl.nranges = hl.hr := by rw [hrep, List.take_length]
  have hwithin : Within 0 n m (rangedStringLoop n (hl.hr.length + 1) hl.hr m 0).1 := rangedStringLoop_within
  by_cases hfull : n ≤ (rangedStringLoop n (hl.hr.length + 1) hl.hr m 0).2
  · have hwhole : hostlistRangedString hl n m =
        (setByte (rangedStringLoop n (hl.hr.length + 1) hl.hr m 0).1 (n - 1) NUL, -1) := by
      unfold hostlistRangedString
      simp only [htake]
      rw [if_pos hfull, if_pos hn]
    have hlong : n ≤ hl.printedText.length := by
      have hcut := rangedStringLoop_cut (Nat.lt_succ_self _) hfull
      rwa [Nat.zero_add] at hcut
    rw [hwhole, if_neg (Nat.not_lt.mpr hlong), Nat.zero_add]
    refine ⟨hwithin.setByte (Nat.zero_le _) (by omega), ⟨n - 1, by omega, ?_⟩, rfl⟩
    rw [Nat.zero_add]
    exact setByte_self
  · have hwhole : hostlistRangedString hl n m =
        (setByte (rangedStringLoop n (hl.hr.length + 1) hl.hr m 0).1
          (rangedStringLoop n (hl.hr.length + 1) hl.hr m 0).2 NUL,
          ((rangedStringLoop n (hl.hr.length + 1) hl.hr m 0).2 : Int)) := by
      unfold hostlistRangedString
      simp only [htake]
      rw [if_neg hfull]
    obtain ⟨hret, htext, hend⟩ := @hostlistRangedString_prints hl n hrep m (by rw [hwhole]; simp)
    have hroom : hl.printedText.length < n := by
      rw [hwhole] at hret
      omega
    rw [if_pos hroom, Nat.zero_add]
    refine ⟨?_, ⟨_, hroom, by rw [Nat.zero_add]; exact hend⟩, hret, htext, by rw [Nat.zero_add]; exact hend⟩
    rw [hwhole]
    exact hwithin.setByte (Nat.zero_le _) (by omega)

/-! ## The canonical text -/

/-- The hosts of a group. -/
def groupHosts (hr : Hostrange) (more : List Hostrange) : List CStr := (hr :: more).flatMap Hostrange.names

/-- A group with a bracket exactly when it holds more than one host. -/
def rebracket (g : Bool × Hostrange × List Hostrange) : Bool × Hostrange × List Hostrange :=
  (decide (1 < (groupHosts g.2.1 g.2.2).length), g.2)

/-- The groups with commas between them, those of more than one host in brackets. -/
def Hostlist.canonicalText (hl : Hostlist) : CStr := rangedText (hl.groups.map rebracket)

/-- The test for a bracket goes wrong: the count of a range has wrapped, or several ranges hold no
two hosts. -/
def Misbracketed (hr : Hostrange) (more : List Hostrange) : Prop :=
  hr.singlehost = false ∧
    if more = [] then hr.lo = 0 ∧ hr.hi = ULONG_MAX ∨ hr.hi.toNat + 1 < hr.lo.toNat
    else (groupHosts hr more).length ≤ 1

/-- The list begins with an empty name and goes on. -/
def Hostlist.StartsEmpty (hl : Hostlist) : Prop :=
  ∃ hr next rest, hl.hr = hr :: next :: rest ∧ hr.singlehost = true ∧ hr.pfx = []

theorem mem_groupsLoop {fuel : Nat} {ranges : List Hostrange} {g : Bool × Hostrange × List Hostrange}
    (h : g ∈ groupsLoop fuel ranges) :
    ∃ hr rest, g = (isBracketNeeded hr rest.head?, hr, (groupRest hr rest).1) := by
  induction fuel generalizing ranges with
  | zero => cases h
  | succ fuel ih =>
      cases ranges with
      | nil => cases h
      | cons hr rest =>
          rcases List.mem_cons.mp h with rfl | h
          · exact ⟨hr, rest, rfl⟩
          · exact ih h

/-- More than one host is counted in a range that is in order and not all numbers, and in one whose
bounds are exchanged by more than one. -/
theorem count_range_iff (hs : hr.singlehost = false) :
    (hostrangeCount hr > 1 ↔ 1 < hr.names.length) ↔
      ¬ (hr.lo = 0 ∧ hr.hi = ULONG_MAX ∨ hr.hi.toNat + 1 < hr.lo.toNat) := by
  have hlo := hr.lo.toNat_lt
  have hhi := hr.hi.toNat_lt
  have hM := ULONG_MAX_toNat
  have hcount : (hostrangeCount hr).toNat = (2 ^ 64 - hr.lo.toNat + hr.hi.toNat + 1) % 2 ^ 64 := by
    simp only [hostrangeCount, hs, Bool.false_eq_true, if_false]
    rw [UInt64.toNat_add, UInt64.toNat_sub]
    show ((2 ^ 64 - hr.lo.toNat + hr.hi.toNat) % 2 ^ 64 + 1) % 2 ^ 64 = _
    omega
  have hfull : (hr.lo = 0 ∧ hr.hi = ULONG_MAX) ↔ hr.lo.toNat = 0 ∧ hr.hi.toNat = 18446744073709551615 := by
    rw [← UInt64.toNat_inj, ← UInt64.toNat_inj, hM]
    rfl
  rw [hfull, gt_iff_lt, UInt64.lt_iff_toNat_lt, hcount, Hostrange.names_block hs, length_block]
  show (1 < _ ↔ _) ↔ _
  omega

/-- A group goes on when the next range goes into the bracket. -/
theorem groupRest_nil_iff (hr : Hostrange) (rest : List Hostrange) :
    (groupRest hr rest).1 = [] ↔ ¬ hostrangeWithinRange hr rest.head? = true := by
  cases rest with
  | nil => exact iff_of_true rfl (by simp [hostrangeWithinRange, hostrangePrefixCmp])
  | cons next rest =>
      have hswap : hostrangeWithinRange next (some hr) = true ↔ hostrangeWithinRange hr (some next) = true := by
        rw [hostrangeWithinRange_iff, hostrangeWithinRange_iff, eq_comm (a := next.pfx)]
        exact and_congr_right fun _ => and_comm
      rw [List.head?_cons, ← hswap, groupRest]
      split
      · rename_i hin
        exact iff_of_false (by simp) (not_not.mpr hin)
      · rename_i hout
        exact iff_of_true rfl hout

/-- Whether the test for a bracket is right. -/
theorem bracket_right_iff (hr : Hostrange) (rest : List Hostrange) :
    isBracketNeeded hr rest.head? = decide (1 < (groupHosts hr (groupRest hr rest).1).length) ↔
      ¬ Misbracketed hr (groupRest hr rest).1 := by
  have hneeded : isBracketNeeded hr rest.head? = true ↔
      hostrangeCount hr > 1 ∨ hostrangeWithinRange hr rest.head? = true := decide_eq_true_iff
  have hnil := groupRest_nil_iff hr rest
  rw [Bool.eq_iff_iff, decide_eq_true_iff, hneeded, Misbracketed]
  by_cases hin : hostrangeWithinRange hr rest.head? = true
  · have hmore : (groupRest hr rest).1 ≠ [] := fun h => hnil.mp h hin
    have hs : hr.singlehost = false := by
      cases rest with
      | nil => simp [hostrangeWithinRange, hostrangePrefixCmp] at hin
      | cons next rest => exact (hostrangeWithinRange_iff.mp hin).2.1
    rw [if_neg hmore]
    simp only [hin, or_true, true_iff, hs, true_and, Nat.not_le]
  · rw [if_pos (hnil.mpr hin), hnil.mpr hin]
    have hhosts : groupHosts hr [] = hr.names := by simp [groupHosts]
    rw [hhosts]
    have hor : (hostrangeCount hr > 1 ∨ hostrangeWithinRange hr rest.head? = true) ↔ hostrangeCount hr > 1 :=
      or_iff_left hin
    rw [hor]
    cases hs : hr.singlehost with
    | true =>
        have hcount : hostrangeCount hr = 1 := by rw [hostrangeCount, hs, if_pos rfl]
        rw [hcount, Hostrange.names_single hs]
        simp
    | false =>
        rw [count_range_iff hs]
        simp only [true_and]

/-! ## The printed text is the canonical one -/

theorem rangedText_cons_cons (g g' : Bool × Hostrange × List Hostrange)
    (groups : List (Bool × Hostrange × List Hostrange)) :
    rangedText (g :: g' :: groups) = groupText g.1 g.2.1 g.2.2 ++ ',' :: rangedText (g' :: groups) := by
  simp [rangedText]

theorem rangedText_snoc {groups : List (Bool × Hostrange × List Hostrange)} (hne : groups ≠ [])
    (g : Bool × Hostrange × List Hostrange) :
    rangedText (groups ++ [g]) = rangedText groups ++ ',' :: groupText g.1 g.2.1 g.2.2 := by
  induction groups with
  | nil => exact absurd rfl hne
  | cons x groups ih =>
      cases groups with
      | nil => simp [rangedText]
      | cons y groups =>
          have hrest := ih (List.cons_ne_nil _ _)
          rw [List.cons_append] at hrest
          rw [List.cons_append, List.cons_append, rangedText_cons_cons, hrest, rangedText_cons_cons,
            List.append_assoc, List.cons_append]

theorem shown_snoc (groups : List (Bool × Hostrange × List Hostrange)) (g : Bool × Hostrange × List Hostrange) :
    rangedText (shownGroups 0 (groups ++ [g])) =
      if ∀ x ∈ groups, groupText x.1 x.2.1 x.2.2 = [] then groupText g.1 g.2.1 g.2.2
      else rangedText (shownGroups 0 groups) ++ ',' :: groupText g.1 g.2.1 g.2.2 := by
  unfold shownGroups
  rw [if_pos rfl, if_pos rfl, List.dropWhile_append]
  by_cases hall : ∀ x ∈ groups, groupText x.1 x.2.1 x.2.2 = []
  · rw [if_pos hall]
    have hnil : groups.dropWhile (fun g => groupText g.1 g.2.1 g.2.2 = []) = [] :=
      List.dropWhile_eq_nil_iff.mpr fun x hx => by simpa using hall x hx
    rw [hnil]
    simp only [List.isEmpty_nil, if_true]
    by_cases hempty : groupText g.1 g.2.1 g.2.2 = []
    · rw [List.dropWhile_cons_of_pos (by simpa using hempty), hempty]
      rfl
    · rw [List.dropWhile_cons_of_neg (by simpa using hempty)]
      simp [rangedText]
  · rw [if_neg hall]
    have hne : groups.dropWhile (fun g => groupText g.1 g.2.1 g.2.2 = []) ≠ [] := by
      intro hnil
      refine hall fun x hx => ?_
      simpa using List.dropWhile_eq_nil_iff.mp hnil x hx
    rw [if_neg (by simpa using hne)]
    exact rangedText_snoc hne g

/-- Where only the brackets differ, so do the last characters. -/
theorem groupText_ne {g : Bool × Hostrange × List Hostrange} (hs : g.2.1.singlehost = false)
    (hwrong : g.1 ≠ (rebracket g).1) {s t : CStr} :
    s ++ groupText g.1 g.2.1 g.2.2 ≠ t ++ groupText (rebracket g).1 g.2.1 g.2.2 := by
  -- with brackets the last character is a bracket, without them it is a digit
  have hclosed : ∀ s : CStr, (s ++ groupText true g.2.1 g.2.2).getLast? = some ']' := by
    intro s
    rw [groupText, if_pos rfl, ← List.append_assoc, List.getLast?_concat]
  have hdigit : ∀ s : CStr, (s ++ groupText false g.2.1 g.2.2).getLast? ≠ some ']' := by
    intro s hlast
    have hnum : ∃ t c, numText g.2.1 = t ++ [c] ∧ c.isDigit = true := by
      unfold numText
      rw [hs]
      simp only [Bool.false_eq_true, if_false]
      have hpad : ∀ w n, ∃ t c, pad w n = t ++ [c] ∧ c.isDigit = true := by
        intro w n
        refine ⟨_, _, (List.dropLast_append_getLast (pad_ne_nil w n)).symm, ?_⟩
        exact isDigit_pad (List.getLast_mem (pad_ne_nil w n))
      split
      · obtain ⟨t, c, heq, hc⟩ := hpad g.2.1.width g.2.1.hi.toNat
        exact ⟨pad g.2.1.width g.2.1.lo.toNat ++ '-' :: t, c, by rw [heq]; simp, hc⟩
      · rw [List.append_nil]
        exact hpad _ _
    obtain ⟨t, c, heq, hc⟩ := hnum
    rw [groupText, if_neg (by decide), heq, ← List.append_assoc, ← List.append_assoc, List.getLast?_concat] at hlast
    cases hlast
    exact absurd hc (by decide)
  intro heq
  have hlast := congrArg List.getLast? heq
  cases hg : g.1 with
  | true =>
      have hr : (rebracket g).1 = false := by
        rw [hg] at hwrong
        simpa using hwrong.symm
      rw [hg, hr, hclosed] at hlast
      exact hdigit _ hlast.symm
  | false =>
      have hr : (rebracket g).1 = true := by
        rw [hg] at hwrong
        simpa using hwrong.symm
      rw [hg, hr, hclosed] at hlast
      exact hdigit _ hlast

/-- The texts are the same when all brackets are right and no empty name at the beginning has lost
its comma. -/
theorem shown_eq_rebracket_iff {groups : List (Bool × Hostrange × List Hostrange)}
    (hsingle : ∀ g ∈ groups, g.1 ≠ (rebracket g).1 → g.2.1.singlehost = false) :
    rangedText (shownGroups 0 groups) = rangedText (groups.map rebracket) ↔
      (∀ g ∈ groups, g.1 = (rebracket g).1) ∧
        (2 ≤ groups.length → ∀ g, groups.head? = some g → groupText g.1 g.2.1 g.2.2 ≠ []) := by
  -- from the end: the last group is right when the last characters agree, and then the rest is the same
  induction groups using List.reverseRecOn with
  | nil => simp [shownGroups]
  | append_singleton groups g ih =>
      have ih := ih fun x hx => hsingle x (List.mem_append_left _ hx)
      have hright : ∀ {s t : CStr}, s ++ groupText g.1 g.2.1 g.2.2 = t ++ groupText (rebracket g).1 g.2.1 g.2.2 →
          g.1 = (rebracket g).1 := by
        intro s t heq
        by_contra hwrong
        exact groupText_ne (hsingle g (by simp) hwrong) hwrong heq
      rw [shown_snoc, List.map_append, List.map_singleton, List.forall_mem_append, List.forall_mem_singleton]
      by_cases hnil : groups = []
      · subst hnil
        have hone : rangedText [rebracket g] = groupText (rebracket g).1 g.2.1 g.2.2 := by
          simp [rangedText, rebracket]
        rw [if_pos (by simp), List.map_nil, List.nil_append, hone]
        constructor
        · intro heq
          exact ⟨⟨by simp, @hright [] [] heq⟩, by simp⟩
        · rintro ⟨⟨-, hg⟩, -⟩
          rw [← hg]
      have hcanonical : rangedText (groups.map rebracket ++ [rebracket g]) =
          rangedText (groups.map rebracket) ++ ',' :: groupText (rebracket g).1 g.2.1 g.2.2 :=
        rangedText_snoc (by simpa using hnil) _
      obtain ⟨x, groups, rfl⟩ := List.exists_cons_of_ne_nil hnil
      rw [hcanonical]
      by_cases hall : ∀ y ∈ x :: groups, groupText y.1 y.2.1 y.2.2 = []
      · -- the commas behind the empty texts are missing
        rw [if_pos hall]
        refine iff_of_false (fun heq => ?_) ?_
        · have hg := @hright [] (rangedText ((x :: groups).map rebracket) ++ [',']) (by simpa using heq)
          have hlen := congrArg List.length heq
          rw [← hg] at hlen
          simp only [List.length_append, List.length_cons] at hlen
          omega
        · rintro ⟨-, hhead⟩
          exact hhead (by simp) x rfl (hall x (by simp))
      · rw [if_neg hall]
        constructor
        · intro heq
          have hg := @hright (rangedText (shownGroups 0 (x :: groups)) ++ [','])
            (rangedText ((x :: groups).map rebracket) ++ [',']) (by simpa using heq)
          rw [← hg] at heq
          obtain ⟨hrest, hhead⟩ := ih.mp (List.append_cancel_right heq)
          refine ⟨⟨hrest, hg⟩, fun _ y hy => ?_⟩
          rw [List.cons_append, List.head?_cons, Option.some.injEq] at hy
          subst hy
          cases groups with
          | nil => simpa using hall
          | cons z groups => exact hhead (by simp) x rfl
        · rintro ⟨⟨hrest, hg⟩, hhead⟩
          rw [← hg, ih.mpr ⟨hrest, fun _ y hy => hhead (by simp) y hy⟩]

theorem groupText_ne_nil (hs : hr.singlehost = false) (b : Bool) : groupText b hr more ≠ [] := by
  unfold groupText
  split
  · simp
  · intro hnil
    have hnum := (List.append_eq_nil_iff.mp hnil).2
    unfold numText at hnum
    rw [hs] at hnum
    simp only [Bool.false_eq_true, if_false, List.append_eq_nil_iff] at hnum
    exact pad_ne_nil _ _ hnum.1

/-- The printed text is the canonical one. -/
theorem printedText_eq_iff (hl : Hostlist) :
    hl.printedText = hl.canonicalText ↔ (∀ g ∈ hl.groups, ¬ Misbracketed g.2.1 g.2.2) ∧ ¬ hl.StartsEmpty := by
  have hgroup : ∀ g ∈ hl.groups, (g.1 = (rebracket g).1 ↔ ¬ Misbracketed g.2.1 g.2.2) := by
    intro g hg
    obtain ⟨hr, rest, rfl⟩ := mem_groupsLoop hg
    exact bracket_right_iff hr rest
  have hsingle : ∀ g ∈ hl.groups, g.1 ≠ (rebracket g).1 → g.2.1.singlehost = false := by
    intro g hg hwrong
    have hmis : Misbracketed g.2.1 g.2.2 := not_not.mp fun h => hwrong ((hgroup g hg).mpr h)
    exact hmis.1
  rw [Hostlist.printedText, Hostlist.canonicalText, shown_eq_rebracket_iff hsingle]
  refine and_congr ⟨fun h g hg => (hgroup g hg).mp (h g hg), fun h g hg => (hgroup g hg).mpr (h g hg)⟩ ?_
  unfold Hostlist.groups Hostlist.StartsEmpty
  rcases hhr : hl.hr with _ | ⟨hr, _ | ⟨next, rest⟩⟩
  · simp [groupsLoop]
  · simp [groupsLoop, groupRest]
  · have hgroups : groupsLoop ((hr :: next :: rest).length + 1) (hr :: next :: rest) =
        (isBracketNeeded hr (some next), hr, (groupRest hr (next :: rest)).1) ::
          groupsLoop (rest.length + 2) (groupRest hr (next :: rest)).2 := rfl
    rw [hgroups]
    cases hs : hr.singlehost with
    | false =>
        -- a range of numbers is never an empty text
        refine iff_of_true ?_ ?_
        · rintro - g hg
          rw [List.head?_cons, Option.some.injEq] at hg
          subst hg
          exact groupText_ne_nil hs _
        · rintro ⟨hr', next', rest', heq, hs', -⟩
          cases heq
          rw [hs] at hs'
          cases hs'
    | true =>
        -- a single host is a group of its own, and its text is its name
        have hout : ¬ hostrangeWithinRange hr (some next) = true := by
          intro hin
          rw [(hostrangeWithinRange_iff.mp hin).2.1] at hs
          cases hs
        have hmore := (groupRest_nil_iff hr (next :: rest)).mpr hout
        have hbracket : isBracketNeeded hr (some next) = false := by
          refine decide_eq_false ?_
          rintro (hcount | hin)
          · rw [hostrangeCount, hs, if_pos rfl] at hcount
            exact absurd hcount (by decide)
          · exact hout hin
        have htext : groupText false hr [] = hr.pfx := by
          rw [groupText, if_neg (by decide), numText, if_pos hs, List.append_nil]
        have hlen : 2 ≤ ((isBracketNeeded hr (some next), hr, (groupRest hr (next :: rest)).1) ::
            groupsLoop (rest.length + 2) (groupRest hr (next :: rest)).2).length := by
          have hrest : (groupRest hr (next :: rest)).2 = next :: rest := by
            have hnot := @groupRest_of_not_bracket hr (next :: rest) hbracket
            rw [hnot]
          rw [hrest, groupsLoop, List.length_cons, List.length_cons]
          omega
        constructor
        · rintro hhead ⟨hr', next', rest', heq, -, hpfx⟩
          cases heq
          refine hhead hlen _ rfl ?_
          rw [hbracket, hmore, htext]
          exact hpfx
        · intro hno _ g hg hempty
          rw [List.head?_cons, Option.some.injEq] at hg
          subst hg
          rw [hbracket, hmore, htext] at hempty
          exact hno ⟨hr, next, rest, rfl, hs, hempty⟩

/-- The largest buffer whose length is an `int` holds neither text. -/
def TooLong (s t : CStr) : Prop := 2 ^ 31 - 1 ≤ s.length ∧ 2 ^ 31 - 1 ≤ t.length

/-- A function that is honest about a text at every size is honest about another one when no size
can tell them apart. -/
theorem honest_iff {print : Nat → Mem → Mem × Int} {s t : CStr}
    (hs : ∀ n, 0 < n → n < 2 ^ 31 → Honest (print n) 0 n s) :
    (∀ n, 0 < n → n < 2 ^ 31 → Honest (print n) 0 n t) ↔ s = t ∨ TooLong s t := by
  constructor
  · intro ht
    obtain ⟨-, -, hs⟩ := hs (2 ^ 31 - 1) (by decide) (by decide) fun _ => NUL
    obtain ⟨-, -, ht⟩ := ht (2 ^ 31 - 1) (by decide) (by decide) fun _ => NUL
    -- the results say which of the texts fit, and the buffer holds both
    by_cases hfits : s.length < 2 ^ 31 - 1
    · by_cases hfits' : t.length < 2 ^ 31 - 1
      · rw [if_pos hfits] at hs
        rw [if_pos hfits'] at ht
        obtain ⟨hlen, htext, -⟩ := hs
        obtain ⟨hlen', htext', -⟩ := ht
        rw [hlen] at hlen'
        rw [Int.ofNat_inj.mp hlen', htext'] at htext
        exact .inl htext.symm
      · rw [if_pos hfits] at hs
        rw [if_neg hfits', hs.1] at ht
        omega
    · by_cases hfits' : t.length < 2 ^ 31 - 1
      · rw [if_neg hfits] at hs
        rw [if_pos hfits', hs] at ht
        have hlen := ht.1
        omega
      · exact .inr ⟨Nat.not_lt.mp hfits, Nat.not_lt.mp hfits'⟩
  · rintro (rfl | ⟨hlong, hlong'⟩) n hn hint
    · exact hs n hn hint
    · intro m
      obtain ⟨hwithin, hend, hresult⟩ := hs n hn hint m
      refine ⟨hwithin, hend, ?_⟩
      rw [if_neg (by omega)] at hresult
      rw [if_neg (by omega)]
      exact hresult

/-- `hostlist_ranged_string` is honest about the canonical text at every size that is an `int`
exactly when no bracket goes wrong and the list does not begin with an empty name, or no such size
shows it. -/
theorem ranged_canonical_iff (hrep : hl.nranges = hl.hr.length) :
    (∀ n, 0 < n → n < 2 ^ 31 → Honest (hostlistRangedString hl n) 0 n hl.canonicalText) ↔
      ((∀ g ∈ hl.groups, ¬ Misbracketed g.2.1 g.2.2) ∧ ¬ hl.StartsEmpty) ∨
        TooLong hl.printedText hl.canonicalText := by
  rw [← printedText_eq_iff]
  exact honest_iff fun n hn _ => ranged_honest hrep hn

/-- A bracket with two ranges and one single host. -/
def twoGroups : Hostlist :=
  ⟨[⟨"n".toList, 1, 2, 1, false⟩, ⟨"n".toList, 7, 7, 1, false⟩, ⟨"x".toList, 0, 0, 0, true⟩], 3, 4⟩

theorem ranged_canonical_three : twoGroups.canonicalText = "n[1-2,7],x".toList ∧
    ∀ n, 0 < n → n < 2 ^ 31 → Honest (hostlistRangedString twoGroups n) 0 n twoGroups.canonicalText := by
  refine ⟨by decide, (@ranged_canonical_iff twoGroups rfl).mpr (.inl ⟨?_, ?_⟩)⟩
  · intro g hg
    have hgroups : twoGroups.groups =
      [(true, ⟨"n".toList, 1, 2, 1, false⟩, [⟨"n".toList, 7, 7, 1, false⟩]),
        (false, ⟨"x".toList, 0, 0, 0, true⟩, [])] := by decide
    rw [hgroups] at hg
    rcases List.mem_pair.mp hg with rfl | rfl
    · rintro ⟨-, hmis⟩
      rw [if_neg (by simp)] at hmis
      exact absurd hmis (by decide)
    · rintro ⟨hs, -⟩
      cases hs
  · rintro ⟨hr, next, rest, heq, hs, -⟩
    cases heq
    cases hs

/-- The range of all numbers, as `hostlist_create` makes it. -/
theorem ranged_wrapped_count : ∃ hl, hostlistCreate [] "n[0-18446744073709551615]".toList = .ret (some hl) ∧
    hl.nranges = hl.hr.length ∧
      ¬ ∀ n, 0 < n → n < 2 ^ 31 → Honest (hostlistRangedString hl n) 0 n hl.canonicalText := by
  refine ⟨⟨[⟨"n".toList, 0, ULONG_MAX, 1, false⟩], 1, 0⟩, by decide, rfl, fun h => ?_⟩
  rcases (honest_iff fun n hn _ => ranged_honest rfl hn).mp h with hsame | ⟨hlong, -⟩
  · have hno := ((printedText_eq_iff _).mp hsame).1 (false, ⟨"n".toList, 0, ULONG_MAX, 1, false⟩, []) (by decide)
    exact hno ⟨rfl, .inl ⟨rfl, rfl⟩⟩
  · exact absurd hlong (by decide)

end Pdsh
