import Pdsh.Hostlist.Names
import Pdsh.Hostlist.Print

/-!
# What is printed

The text `hostlist_ranged_string` prints when it does not truncate: the groups
of the list, separated by commas. A group is a longest run of neighbouring
ranges that go into one bracket (`groupRest`), and `groupText` is how it looks.
The C code fills a buffer piece by piece; that it fills in exactly this text is
one `Prints` step for each piece.
-/

namespace Pdsh

open Lib Lib.Decimal Lib.Memory

variable {hl : Hostlist} {hr : Hostrange} {m : Mem} {off n len : Nat}

/-! ## The text -/

/-- The numbers of a range. -/
def numText (hr : Hostrange) : CStr :=
  if hr.singlehost then []
  else pad hr.width hr.lo.toNat ++
    if hr.lo < hr.hi then '-' :: pad hr.width hr.hi.toNat else []

/-- The ranges behind `hr` that go into one bracket with it, and the others. -/
def groupRest : Hostrange → List Hostrange → List Hostrange × List Hostrange
  | _, [] => ([], [])
  | hr, next :: rest =>
      if hostrangeWithinRange next (some hr) then
        (next :: (groupRest next rest).1, (groupRest next rest).2)
      else ([], next :: rest)

/-- The text of a group: the first range and those that go with it. -/
def groupText (bracketNeeded : Bool) (hr : Hostrange) (more : List Hostrange) : CStr :=
  if bracketNeeded then
    hr.pfx ++ '[' :: List.intercalate [','] ((hr :: more).map numText) ++ [']']
  else hr.pfx ++ numText hr

/-- The groups of a list of ranges: each with whether it has a bracket. -/
def groupsLoop : Nat → List Hostrange → List (Bool × Hostrange × List Hostrange)
  | 0, _ => []
  | _ + 1, [] => []
  | fuel + 1, hr :: rest =>
      (isBracketNeeded hr rest.head?, hr, (groupRest hr rest).1) ::
        groupsLoop fuel (groupRest hr rest).2

/-- The groups of a list. -/
def Hostlist.groups (hl : Hostlist) : List (Bool × Hostrange × List Hostrange) :=
  groupsLoop (hl.hr.length + 1) hl.hr

/-- The text of a list. -/
def rangedText (groups : List (Bool × Hostrange × List Hostrange)) : CStr :=
  List.intercalate [','] (groups.map fun g => groupText g.1 g.2.1 g.2.2)

/-! ## Pieces of the buffer -/

theorem snprintfAt_prints {s : CStr} (h : s.length < n) : Prints m off s (snprintfAt m off n s) := by
  have hs : snprintf n s = s := List.take_of_length_le (by omega)
  rw [snprintfAt, if_neg (by omega), hs]
  exact prints_write.set_after (Nat.le_refl _)

/-- `snprintf` touches nothing in front of its text. -/
theorem snprintfAt_before {s : CStr} {i : Nat} (h : i < off) : snprintfAt m off n s i = m i := by
  unfold snprintfAt
  split
  · rfl
  · rw [setByte, if_neg (by omega), write, if_neg (by omega)]

theorem hostrangeNumstr_prints (h : (hostrangeNumstr hr m off n).2 < n) :
    Prints m off (numText hr) (hostrangeNumstr hr m off n).1 ∧
      (hostrangeNumstr hr m off n).2 = (numText hr).length := by
  unfold hostrangeNumstr numText at *
  cases hs : hr.singlehost with
  | true =>
      simp only [true_or, if_true]
      exact ⟨Prints.refl m off, rfl⟩
  | false =>
      have hn : n ≠ 0 := by omega
      simp only [hs, hn, or_self, Bool.false_eq_true, if_false] at h ⊢
      by_cases hlt : hr.lo < hr.hi
      · by_cases hlen : (pad hr.width hr.lo.toNat).length < n
        · simp only [hlt, hlen, and_self, if_true] at h ⊢
          refine ⟨(snprintfAt_prints hlen).trans (snprintfAt_prints (by omega)), ?_⟩
          exact List.length_append.symm
        · simp only [hlen, false_and, if_false] at h
      · simp only [hlt, and_false, if_false] at h ⊢
        rw [List.append_nil]
        exact ⟨snprintfAt_prints h, rfl⟩

/-- What the `do` loop writes for one range. -/
def loopText (bracketNeeded : Bool) (hr : Hostrange) : CStr :=
  numText hr ++ if bracketNeeded then [','] else []

/-- The buffer and the length after one round that was not cut short. -/
theorem loopText_prints (b : Bool) (h : len + (hostrangeNumstr hr m (off + len) (n - len)).2 < n) :
    Prints m (off + len) (loopText b hr)
        (if b then setByte (hostrangeNumstr hr m (off + len) (n - len)).1
          (off + (len + (hostrangeNumstr hr m (off + len) (n - len)).2)) ','
        else (hostrangeNumstr hr m (off + len) (n - len)).1) ∧
      (if b then len + (hostrangeNumstr hr m (off + len) (n - len)).2 + 1
        else len + (hostrangeNumstr hr m (off + len) (n - len)).2) =
        len + (loopText b hr).length := by
  have hroom : (hostrangeNumstr hr m (off + len) (n - len)).2 < n - len := by omega
  obtain ⟨hprints, hlen⟩ := hostrangeNumstr_prints hroom
  rw [hlen]
  cases b with
  | true =>
      simp only [if_true, loopText, List.length_append, List.length_singleton]
      refine ⟨hprints.trans ?_, by omega⟩
      rw [← Nat.add_assoc]
      exact prints_setByte
  | false =>
      simp only [loopText, Bool.false_eq_true, if_false, List.append_nil]
      exact ⟨hprints, trivial⟩

theorem bracketedLoop_prints {b : Bool} {rest : List Hostrange}
    (h : (bracketedLoop b off n hr rest m len).2.1 < n) :
    Prints m (off + len) ((hr :: (groupRest hr rest).1).flatMap (loopText b))
        (bracketedLoop b off n hr rest m len).1 ∧
      (bracketedLoop b off n hr rest m len).2.1 =
        len + ((hr :: (groupRest hr rest).1).flatMap (loopText b)).length ∧
      (bracketedLoop b off n hr rest m len).2.2 = (groupRest hr rest).2 := by
  induction rest generalizing hr m len with
  | nil =>
      unfold bracketedLoop at h ⊢
      simp only at h ⊢
      by_cases hbreak : len + (hostrangeNumstr hr m (off + len) (n - len)).2 ≥ n
      · rw [if_pos hbreak] at h
        exact absurd h (by simpa using hbreak)
      · obtain ⟨hprints, hlen⟩ := loopText_prints b (Nat.not_le.mp hbreak)
        rw [if_neg hbreak]
        simpa [groupRest] using ⟨hprints, hlen⟩
  | cons next rest ih =>
      unfold bracketedLoop at h ⊢
      simp only at h ⊢
      by_cases hbreak : len + (hostrangeNumstr hr m (off + len) (n - len)).2 ≥ n
      · rw [if_pos hbreak] at h
        exact absurd h (by simpa using hbreak)
      · obtain ⟨hprints, hlen⟩ := loopText_prints b (Nat.not_le.mp hbreak)
        rw [if_neg hbreak] at h ⊢
        rw [hlen] at h ⊢
        by_cases hin : hostrangeWithinRange next (some hr)
        · rw [if_pos hin] at h ⊢
          obtain ⟨hrest, hlen', hleft⟩ := ih h
          simp only [groupRest, hin, if_true]
          rw [List.flatMap_cons]
          refine ⟨hprints.trans (by rw [Nat.add_assoc]; exact hrest), ?_, hleft⟩
          rw [hlen', List.length_append]
          omega
        · rw [if_neg hin] at h ⊢
          simp only [groupRest, hin, Bool.false_eq_true, if_false]
          simpa using hprints

/-- A group without a bracket is one range. -/
theorem groupRest_of_not_bracket {rest : List Hostrange}
    (h : isBracketNeeded hr rest.head? = false) : groupRest hr rest = ([], rest) := by
  cases rest with
  | nil => rfl
  | cons next rest =>
      have hnot := of_decide_eq_false h
      rw [groupRest, if_neg]
      intro hin
      obtain ⟨hpfx, hs, hs'⟩ := hostrangeWithinRange_iff.mp hin
      exact hnot (.inr (hostrangeWithinRange_iff.mpr ⟨hpfx.symm, hs', hs⟩))

/-- The numbers of a group, with a comma behind each, are the numbers with commas
between them and one more comma. -/
theorem flatMap_loopText (hr : Hostrange) (more : List Hostrange) :
    (hr :: more).flatMap (loopText true) =
      List.intercalate [','] ((hr :: more).map numText) ++ [','] := by
  induction more generalizing hr with
  | nil => simp [loopText]
  | cons x more ih =>
      rw [List.flatMap_cons, ih x]
      simp [loopText]

/-- A group that was not cut short is printed as its text. -/
theorem getBracketedList_prints {rest : List Hostrange}
    (h : (getBracketedList hr rest m off n).2.1 < n) :
    Prints m off (groupText (isBracketNeeded hr rest.head?) hr (groupRest hr rest).1)
        (getBracketedList hr rest m off n).1 ∧
      (getBracketedList hr rest m off n).2.1 =
        (groupText (isBracketNeeded hr rest.head?) hr (groupRest hr rest).1).length ∧
      (getBracketedList hr rest m off n).2.2 = (groupRest hr rest).2 := by
  unfold getBracketedList at h ⊢
  simp only at h ⊢
  by_cases hlong : hr.pfx.length > n
  · rw [if_pos hlong] at h
    exact absurd h (Nat.lt_irrefl n)
  rw [if_neg hlong] at h ⊢
  cases hb : isBracketNeeded hr rest.head? with
  | true =>
      simp only [hb, true_and] at h ⊢
      by_cases hlt : hr.pfx.length < n
      · simp only [hlt, if_true] at h ⊢
        have hdone : (bracketedLoop true off n hr rest
            (setByte (snprintfAt m off n hr.pfx) (off + hr.pfx.length) '[')
            (hr.pfx.length + 1)).2.1 < n := by
          split at h
          · exact h
          · split at h
            · exact h
            · exact h
        obtain ⟨hprints, hlen, hleft⟩ := bracketedLoop_prints hdone
        have hpos : 0 < hr.pfx.length + 1 := Nat.succ_pos _
        rw [if_pos ⟨hdone, by omega⟩]
        simp only [flatMap_loopText] at hprints hlen
        have hpfx : Prints m off hr.pfx (snprintfAt m off n hr.pfx) := snprintfAt_prints hlt
        have hall := (hpfx.trans
          (prints_setByte (c := '['))).trans (t := _ ++ [',']) (by
            rw [List.length_append, List.length_singleton]
            exact hprints)
        rw [← List.append_assoc] at hall
        have hclosed := (hall.set_last (c := ']')).set_after (c := NUL)
          (i := off + (bracketedLoop true off n hr rest
            (setByte (snprintfAt m off n hr.pfx) (off + hr.pfx.length) '[')
            (hr.pfx.length + 1)).2.1) (by
              rw [hlen]
              simp only [List.length_append, List.length_singleton]
              omega)
        have hat : off + ((bracketedLoop true off n hr rest
            (setByte (snprintfAt m off n hr.pfx) (off + hr.pfx.length) '[')
            (hr.pfx.length + 1)).2.1 - 1) = off + (hr.pfx ++ ['['] ++
              List.intercalate [','] ((hr :: (groupRest hr rest).1).map numText)).length := by
          rw [hlen]
          simp only [List.length_append, List.length_singleton]
          omega
        rw [hat]
        simp only [groupText, if_true]
        refine ⟨by simpa using hclosed, ?_, hleft⟩
        rw [hlen]
        simp only [List.length_append, List.length_cons, List.length_nil]
        omega
      · have heq : hr.pfx.length = n := by omega
        simp only [hlt, if_false] at h
        have hdone : (bracketedLoop true off n hr rest (snprintfAt m off n hr.pfx)
            hr.pfx.length).2.1 < n := by
          split at h
          · exact h
          · split at h <;> exact h
        have := (bracketedLoop_prints hdone).2.1
        omega
  | false =>
      have hgroup := groupRest_of_not_bracket hb
      simp only [hb, Bool.false_eq_true, false_and, if_false] at h ⊢
      have hdone : (bracketedLoop false off n hr rest (snprintfAt m off n hr.pfx)
          hr.pfx.length).2.1 < n := by
        split at h <;> exact h
      obtain ⟨hprints, hlen, hleft⟩ := bracketedLoop_prints hdone
      rw [hgroup] at hprints hlen hleft ⊢
      have htext : [hr].flatMap (loopText false) = numText hr := by simp [loopText]
      rw [htext] at hprints hlen
      have hpfx : Prints m off hr.pfx (snprintfAt m off n hr.pfx) := snprintfAt_prints (by omega)
      have hall := hpfx.trans hprints
      rw [if_neg (by omega)]
      simp only [groupText, Bool.false_eq_true, if_false]
      refine ⟨hall.set_after ?_, ?_, hleft⟩
      · rw [hlen, List.length_append]
      · rw [hlen, List.length_append]

/-! ## The whole buffer -/

theorem groupRest_length (hr : Hostrange) (rest : List Hostrange) :
    (groupRest hr rest).2.length ≤ rest.length := by
  induction rest generalizing hr with
  | nil => exact Nat.le_refl _
  | cons next rest ih =>
      rw [groupRest]
      split
      · exact Nat.le_succ_of_le (ih next)
      · exact Nat.le_refl _

theorem rangedStringLoop_full {fuel : Nat} {ranges : List Hostrange} (h : n ≤ len) :
    (rangedStringLoop n fuel ranges m len).2 = len := by
  cases fuel with
  | zero => rfl
  | succ fuel =>
      cases ranges with
      | nil => rfl
      | cons hr rest => rw [rangedStringLoop, if_neg (Nat.not_lt.mpr h)]

/-- The groups that show: an empty text at the beginning has no comma behind it. -/
def shownGroups (len : Nat) (groups : List (Bool × Hostrange × List Hostrange)) :
    List (Bool × Hostrange × List Hostrange) :=
  if len = 0 then groups.dropWhile fun g => groupText g.1 g.2.1 g.2.2 = [] else groups

/-- What `hostlist_ranged_string` prints. -/
def Hostlist.printedText (hl : Hostlist) : CStr := rangedText (shownGroups 0 hl.groups)

theorem rangedText_shown_empty {g : Bool × Hostrange × List Hostrange}
    {groups : List (Bool × Hostrange × List Hostrange)} (h : groupText g.1 g.2.1 g.2.2 = []) :
    rangedText (shownGroups 0 (g :: groups)) = rangedText (shownGroups 0 groups) := by
  rw [shownGroups, shownGroups, if_pos rfl, if_pos rfl, List.dropWhile_cons_of_pos (by simpa using h)]

theorem rangedText_shown {g : Bool × Hostrange × List Hostrange}
    {groups : List (Bool × Hostrange × List Hostrange)} (h : len = 0 → groupText g.1 g.2.1 g.2.2 ≠ []) :
    rangedText (shownGroups len (g :: groups)) = groupText g.1 g.2.1 g.2.2 ++
      if groups = [] then [] else ',' :: rangedText groups := by
  have hshown : shownGroups len (g :: groups) = g :: groups := by
    unfold shownGroups
    split
    · rename_i hzero
      exact List.dropWhile_cons_of_neg (by simpa using h hzero)
    · rfl
  rw [hshown]
  cases groups with
  | nil => simp [rangedText]
  | cons g' groups => simp [rangedText]

theorem groupsLoop_eq_nil_iff {fuel : Nat} {ranges : List Hostrange} (h : ranges.length < fuel) :
    groupsLoop fuel ranges = [] ↔ ranges = [] := by
  cases fuel with
  | zero => omega
  | succ fuel => cases ranges <;> simp [groupsLoop]

/-- What one round of the loop prints: a group, and a comma when others follow. -/
def roundText (len : Nat) (hr : Hostrange) (rest : List Hostrange) : CStr :=
  let text := groupText (isBracketNeeded hr rest.head?) hr (groupRest hr rest).1
  text ++ if 0 < len + text.length ∧ (groupRest hr rest).2 ≠ [] then [','] else []

theorem rangedText_round {fuel : Nat} {rest : List Hostrange} (hfuel : (groupRest hr rest).2.length < fuel) :
    rangedText (shownGroups len (groupsLoop (fuel + 1) (hr :: rest))) =
      roundText len hr rest ++ rangedText
        (shownGroups (len + (roundText len hr rest).length) (groupsLoop fuel (groupRest hr rest).2)) := by
  have hgroups : groupsLoop (fuel + 1) (hr :: rest) = (isBracketNeeded hr rest.head?, hr, (groupRest hr rest).1) ::
      groupsLoop fuel (groupRest hr rest).2 := rfl
  rw [hgroups]
  by_cases hempty : len = 0 ∧ groupText (isBracketNeeded hr rest.head?) hr (groupRest hr rest).1 = []
  · obtain ⟨rfl, htext⟩ := hempty
    rw [rangedText_shown_empty htext]
    simp only [roundText, htext, List.length_nil, Nat.add_zero, Nat.lt_irrefl, false_and, if_false,
      List.nil_append]
  · have hshows : len = 0 → groupText (isBracketNeeded hr rest.head?) hr (groupRest hr rest).1 ≠ [] :=
      fun hzero htext => hempty ⟨hzero, htext⟩
    have hpos : 0 < len + (groupText (isBracketNeeded hr rest.head?) hr (groupRest hr rest).1).length := by
      rcases Nat.eq_zero_or_pos len with hzero | hpos
      · exact Nat.add_pos_right _ (List.length_pos_iff.mpr (hshows hzero))
      · exact Nat.add_pos_left hpos _
    rw [rangedText_shown hshows]
    simp only [groupsLoop_eq_nil_iff hfuel]
    by_cases hrest : (groupRest hr rest).2 = []
    · have hnil : groupsLoop fuel [] = [] := by cases fuel <;> rfl
      have hnone : ∀ k, rangedText (shownGroups k []) = [] := by
        intro k
        unfold shownGroups
        split <;> rfl
      simp only [roundText, hrest, if_true, ne_eq, not_true_eq_false, and_false, if_false, List.append_nil,
        hnil, hnone]
    · have hmore : len + (roundText len hr rest).length ≠ 0 := by
        simp only [roundText, List.length_append]
        omega
      rw [if_neg hrest, shownGroups, if_neg hmore]
      simp only [roundText, hpos, hrest, ne_eq, not_false_eq_true, and_self, if_true, List.append_assoc,
        List.singleton_append]

/-- One round of the loop, in which the group was not cut short. -/
theorem rangedStringLoop_round {fuel : Nat} {rest : List Hostrange} (hlt : len < n)
    (hnext : (getBracketedList hr rest m len (n - len)).2.1 < n - len) :
    ∃ m', Prints m len (roundText len hr rest) m' ∧
      rangedStringLoop n (fuel + 1) (hr :: rest) m len =
        rangedStringLoop n fuel (groupRest hr rest).2 m' (len + (roundText len hr rest).length) := by
  obtain ⟨hprints, hlen, hleft⟩ := getBracketedList_prints hnext
  unfold roundText
  rw [rangedStringLoop, if_pos hlt]
  generalize groupText (isBracketNeeded hr rest.head?) hr (groupRest hr rest).1 = text at hprints hlen ⊢
  simp only [hleft, hlen]
  by_cases hcomma : 0 < len + text.length ∧ (groupRest hr rest).2 ≠ []
  · have hwritten : len + text.length > 0 ∧ len + text.length < n ∧ (groupRest hr rest).2 ≠ [] :=
      ⟨hcomma.1, by omega, hcomma.2⟩
    rw [if_pos hwritten, if_pos hwritten, if_pos hcomma]
    refine ⟨_, hprints.trans prints_setByte, ?_⟩
    rw [List.length_append, List.length_singleton]
    rfl
  · have hnone : ¬ (len + text.length > 0 ∧ len + text.length < n ∧ (groupRest hr rest).2 ≠ []) :=
      fun h => hcomma ⟨h.1, h.2.2⟩
    rw [if_neg hnone, if_neg hnone, if_neg hcomma, List.append_nil]
    exact ⟨_, hprints, rfl⟩

theorem rangedStringLoop_prints {fuel : Nat} {ranges : List Hostrange}
    (hfuel : ranges.length < fuel) (h : (rangedStringLoop n fuel ranges m len).2 < n) :
    Prints m len (rangedText (shownGroups len (groupsLoop fuel ranges)))
        (rangedStringLoop n fuel ranges m len).1 ∧
      (rangedStringLoop n fuel ranges m len).2 =
        len + (rangedText (shownGroups len (groupsLoop fuel ranges))).length := by
  induction fuel generalizing ranges m len with
  | zero => omega
  | succ fuel ih =>
      cases ranges with
      | nil =>
          have hnil : rangedText (shownGroups len (groupsLoop (fuel + 1) [])) = [] := by
            unfold shownGroups
            split <;> rfl
          rw [hnil]
          exact ⟨Prints.refl m len, rfl⟩
      | cons hr rest =>
          by_cases hlt : len < n
          · have hnext : (getBracketedList hr rest m len (n - len)).2.1 < n - len := by
              by_contra hge
              rw [rangedStringLoop, if_pos hlt] at h
              simp only at h
              have hfull : ¬ (len + (getBracketedList hr rest m len (n - len)).2.1 < n) := by omega
              simp only [hfull, false_and, and_false, if_false] at h
              rw [rangedStringLoop_full (by omega)] at h
              exact hfull h
            have hless := groupRest_length hr rest
            rw [List.length_cons] at hfuel
            obtain ⟨m', hprints, heq⟩ := @rangedStringLoop_round hr m n len fuel rest hlt hnext
            rw [heq] at h ⊢
            obtain ⟨hprints', hlen'⟩ := ih (by omega) h
            rw [rangedText_round (by omega)]
            refine ⟨hprints.trans hprints', ?_⟩
            rw [hlen', List.length_append, Nat.add_assoc]
          · rw [rangedStringLoop, if_neg hlt] at h
            exact absurd h hlt

/-- What `hostlist_ranged_string` leaves in a buffer that was large enough: the text
of the list, its terminator, and the length of the text as the result. -/
theorem hostlistRangedString_prints (hn : hl.nranges = hl.hr.length) {buf : Mem}
    (h : (hostlistRangedString hl n buf).2 ≠ -1) :
    (hostlistRangedString hl n buf).2 = hl.printedText.length ∧
      text (hostlistRangedString hl n buf).1 0 hl.printedText.length = hl.printedText ∧
      (hostlistRangedString hl n buf).1 hl.printedText.length = NUL := by
  have htake : hl.hr.take hl.nranges = hl.hr := by rw [hn, List.take_length]
  unfold hostlistRangedString at h ⊢
  simp only [htake] at h ⊢
  by_cases hfull : (rangedStringLoop n (hl.hr.length + 1) hl.hr buf 0).2 ≥ n
  · rw [if_pos hfull] at h
    exact absurd rfl h
  · rw [if_neg hfull]
    obtain ⟨hprints, hlen⟩ := rangedStringLoop_prints (Nat.lt_succ_self _) (Nat.not_le.mp hfull)
    rw [Nat.zero_add] at hlen
    have hafter := hprints.set_after (c := NUL) (i := hl.printedText.length)
      (by rw [Nat.zero_add]; rfl)
    have hlen' : (rangedStringLoop n (hl.hr.length + 1) hl.hr buf 0).2 = hl.printedText.length := hlen
    simp only [hlen']
    exact ⟨trivial, hafter.text, setByte_self⟩

/-- Where no text is empty, all groups show. -/
theorem hostlistRangedString_spec (hn : hl.nranges = hl.hr.length)
    (hne : ∀ g ∈ hl.groups, groupText g.1 g.2.1 g.2.2 ≠ []) {buf : Mem}
    (h : (hostlistRangedString hl n buf).2 ≠ -1) :
    (hostlistRangedString hl n buf).2 = (rangedText hl.groups).length ∧
      text (hostlistRangedString hl n buf).1 0 (rangedText hl.groups).length =
        rangedText hl.groups ∧
      (hostlistRangedString hl n buf).1 (rangedText hl.groups).length = NUL := by
  have hshown : hl.printedText = rangedText hl.groups := by
    rw [Hostlist.printedText, shownGroups, if_pos rfl]
    cases hgroups : hl.groups with
    | nil => rfl
    | cons g groups =>
        rw [List.dropWhile_cons_of_neg (by simpa using hne g (by simp [hgroups]))]
  rw [← hshown]
  exact hostlistRangedString_prints hn h

end Pdsh
