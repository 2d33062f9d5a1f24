import Pdsh.Hostlist.Deranged
import Pdsh.Hostlist.Iterator
import Pdsh.Hostlist.Produced
import Pdsh.Lib.Yields

/-!
# Four ways to list the hosts

`hostlist_next`, `hostlist_shift` on a copy, `hostlist_nth` and the pieces of
`hostlist_deranged_string` all go through the hosts in order, but each formats a
name with a buffer of its own: 14 digits in `hostlist_next`, 78 characters in
`hostlist_nth`, the prefix, the width and 15 characters in `hostlist_shift`.
`enumerators_agree_iff` says for which lists they give one and the same list.
-/

namespace Pdsh

open Lib Lib.Chunks Lib.Decimal Lib.Memory

variable {hl : Hostlist} {hr : Hostrange} {n : Nat}

/-! ## Numbers of a range -/

/-- What stands behind the prefix in each name of a range. -/
def Hostrange.digits (hr : Hostrange) : List CStr :=
  if hr.singlehost then [[]]
  else (List.range' hr.lo.toNat (hr.hi.toNat + 1 - hr.lo.toNat)).map (pad hr.width)

theorem Hostrange.names_eq_digits (hr : Hostrange) :
    hr.names = hr.digits.map (hr.pfx ++ ·) := by
  unfold Hostrange.names Hostrange.digits
  split
  · simp
  · simp [block]

theorem Hostrange.length_digits (hr : Hostrange) : hr.digits.length = hr.names.length := by
  rw [Hostrange.names_eq_digits, List.length_map]

/-- The digits of the host at offset `k` of a range. -/
def Hostrange.digitsAt (hr : Hostrange) (k : Nat) : CStr :=
  if hr.singlehost then [] else pad hr.width (hr.lo.toNat + k)

theorem Hostrange.getElem?_digits {k : Nat} (hk : k < hr.names.length) :
    hr.digits[k]? = some (hr.digitsAt k) := by
  unfold Hostrange.digits Hostrange.digitsAt
  cases hs : hr.singlehost with
  | true =>
      rw [Hostrange.names_single hs, List.length_singleton] at hk
      have hzero : k = 0 := by omega
      rw [hzero]
      rfl
  | false =>
      rw [Hostrange.names_block hs, length_block] at hk
      simp [hk]

/-- The number both `hostlist_next` and `hostlist_nth` print for an offset. -/
theorem Hostrange.number_at (hw : hr.Wf) (hs : hr.singlehost = false) {k : Nat} (hk : k < 2 ^ 31)
    (hlt : k < hr.names.length) :
    (hr.lo + ulongOfInt (Int32.ofNat k)).toNat = hr.lo.toNat + k := by
  have hint : (Int32.ofNat k).toInt = k := Int32.toInt_ofNat_of_lt hk
  have hul : (ulongOfInt (Int32.ofNat k)).toNat = k := by
    rw [ulongOfInt_toNat (by rw [hint]; omega), hint]
    rfl
  have hhi := hr.hi.toNat_lt
  have hle := hw.le
  rw [Hostrange.names_block hs, length_block] at hlt
  rw [UInt64.toNat_add, hul, Nat.mod_eq_of_lt (by omega)]

/-! ## `hostlist_next` -/

/-- The names `hostlist_next` gives for a range. -/
def Hostrange.nextTexts (hr : Hostrange) : List CStr :=
  hr.digits.map fun d => hr.pfx ++ d.take 14

theorem iteratorString_eq (hw : hr.Wf) {k : Nat} (hk : k < 2 ^ 31) (hlt : k < hr.names.length) :
    iteratorString hr (Int32.ofNat k) = hr.pfx ++ (hr.digitsAt k).take 14 := by
  unfold iteratorString Hostrange.digitsAt
  cases hs : hr.singlehost with
  | true => rfl
  | false =>
      have hnum := hr.number_at hw hs hk hlt
      simp only [Bool.false_eq_true, if_false]
      rw [hnum]
      rfl

theorem Hostrange.Wf.span (hw : hr.Wf) : (hr.hi - hr.lo).toNat + 1 = hr.names.length := by
  have hle := hw.le
  rw [UInt64.toNat_sub_of_le _ _ (UInt64.le_iff_toNat_le.mpr hle)]
  cases hs : hr.singlehost with
  | true =>
      obtain ⟨hlo, hhi⟩ := hw.single hs
      rw [Hostrange.names_single hs, hlo, hhi]
      rfl
  | false =>
      rw [Hostrange.names_block hs, length_block]
      omega

/-- `++depth > hi - lo` is the end of the range. -/
theorem depth_gt_iff (hw : hr.Wf) {k : Nat} (hk : k < 2 ^ 31) :
    ulongOfInt (Int32.ofNat k) > hr.hi - hr.lo ↔ hr.names.length ≤ k := by
  have hint : (Int32.ofNat k).toInt = k := Int32.toInt_ofNat_of_lt hk
  have hul : (ulongOfInt (Int32.ofNat k)).toNat = k := by
    rw [ulongOfInt_toNat (by rw [hint]; omega), hint]
    rfl
  rw [gt_iff_lt, UInt64.lt_iff_toNat_lt, hul]
  have := hw.span
  omega

section Next

variable {pre post : List Hostrange} {c d : Hostrange} {i : Iterator} {k : Nat}

/-- A call inside a range: the next host of the range. -/
theorem hostlistNext_inside (hn : hl.nranges = hl.hr.length) (hhr : hl.hr = pre ++ c :: post)
    (hw : c.Wf) (hidx : i.idx = pre.length) (hdepth : i.depth + 1 = Int32.ofNat k)
    (hk : k < 2 ^ 31) (hlt : k < c.names.length) :
    hostlistNext hl i = (some (c.pfx ++ (c.digitsAt k).take 14), ⟨pre.length, Int32.ofNat k⟩) := by
  have hlen : ¬ pre.length ≥ hl.nranges := by
    rw [hn, hhr, List.length_append, List.length_cons]
    omega
  have hget : hl.hr[pre.length]? = some c := by rw [hhr]; simp
  have hadv : iteratorAdvance hl i = ⟨pre.length, Int32.ofNat k⟩ := by
    unfold iteratorAdvance
    rw [hidx, if_neg hlen, hget]
    simp only [hdepth]
    rw [if_neg (by rw [depth_gt_iff hw hk]; omega)]
  unfold hostlistNext
  rw [hadv]
  simp only
  rw [if_neg hlen, hget, Option.map_some, iteratorString_eq hw hk hlt]

/-- A call at the end of a range starts the range behind it. -/
theorem hostlistNext_after (hn : hl.nranges = hl.hr.length) (hhr : hl.hr = pre ++ c :: d :: post)
    (hw : c.Wf) (hwd : d.Wf) (hidx : i.idx = pre.length) (hdepth : i.depth + 1 = Int32.ofNat k)
    (hk : k < 2 ^ 31) (hend : c.names.length ≤ k) :
    hostlistNext hl i =
      (some (d.pfx ++ (d.digitsAt 0).take 14), ⟨(pre ++ [c]).length, Int32.ofNat 0⟩) := by
  have hlen : ¬ pre.length ≥ hl.nranges ∧ ¬ pre.length + 1 ≥ hl.nranges := by
    rw [hn, hhr, List.length_append, List.length_cons, List.length_cons]
    omega
  have hget : hl.hr[pre.length]? = some c := by rw [hhr]; simp
  have hget' : hl.hr[pre.length + 1]? = some d := by rw [hhr]; simp
  have hadv : iteratorAdvance hl i = ⟨pre.length + 1, 0⟩ := by
    unfold iteratorAdvance
    rw [hidx, if_neg hlen.1, hget]
    simp only [hdepth]
    rw [if_pos ((depth_gt_iff hw hk).mpr hend)]
  have hfirst := iteratorString_eq hwd (k := 0) (by decide) hwd.length_pos
  unfold hostlistNext
  rw [hadv, List.length_append, List.length_singleton]
  simp only
  rw [if_neg hlen.2, hget', Option.map_some]
  show (some (iteratorString d (Int32.ofNat 0)), _) = _
  rw [hfirst]
  rfl

/-- A call at the end of the last range gives nothing. -/
theorem hostlistNext_last (hn : hl.nranges = hl.hr.length) (hhr : hl.hr = pre ++ [c]) (hw : c.Wf)
    (hidx : i.idx = pre.length) (hdepth : i.depth + 1 = Int32.ofNat k) (hk : k < 2 ^ 31)
    (hend : c.names.length ≤ k) : (hostlistNext hl i).1 = none := by
  have hlen : hl.nranges = pre.length + 1 := by
    rw [hn, hhr, List.length_append, List.length_singleton]
  have hget : hl.hr[pre.length]? = some c := by rw [hhr]; simp
  have hadv : iteratorAdvance hl i = ⟨pre.length + 1, 0⟩ := by
    unfold iteratorAdvance
    rw [hidx, if_neg (by omega), hget]
    simp only [hdepth]
    rw [if_pos ((depth_gt_iff hw hk).mpr hend)]
  unfold hostlistNext
  rw [hadv]
  simp only
  rw [if_pos (by omega)]

theorem drop_nextTexts (hlt : k < c.names.length) :
    c.nextTexts.drop k = (c.pfx ++ (c.digitsAt k).take 14) :: c.nextTexts.drop (k + 1) := by
  have hlen : k < c.nextTexts.length := by
    rw [Hostrange.nextTexts, List.length_map, c.length_digits]
    exact hlt
  have hget : c.nextTexts[k] = c.pfx ++ (c.digitsAt k).take 14 := by
    have hdig := Hostrange.getElem?_digits hlt
    apply Option.some.inj
    rw [← List.getElem?_eq_getElem hlen, Hostrange.nextTexts, List.getElem?_map, hdig]
    rfl
  rw [List.drop_eq_getElem_cons hlen, hget]

/-- What is left of a range comes before what `hostlist_next` gives at its end. -/
theorem next_yields_range {rest : List CStr} (hn : hl.nranges = hl.hr.length)
    (hhr : hl.hr = pre ++ c :: post) (hw : c.Wf) (hlt : c.names.length < 2 ^ 31)
    (hend : ∀ i : Iterator, i.idx = pre.length → i.depth + 1 = Int32.ofNat c.names.length →
      Yields (hostlistNext hl) i rest)
    (hidx : i.idx = pre.length) (hdepth : i.depth + 1 = Int32.ofNat k) (hk : k ≤ c.names.length) :
    Yields (hostlistNext hl) i (c.nextTexts.drop k ++ rest) := by
  -- induction on the number of hosts that are left of the range
  obtain ⟨left, hleft⟩ := Nat.exists_eq_add_of_le hk
  induction left generalizing i k with
  | zero =>
      have hall : c.nextTexts.drop k = [] := by
        apply List.drop_eq_nil_of_le
        rw [Hostrange.nextTexts, List.length_map, c.length_digits]
        omega
      rw [hall, List.nil_append]
      apply hend i hidx
      rw [hdepth, hleft, Nat.add_zero]
  | succ left ih =>
      have hstep := hostlistNext_inside hn hhr hw hidx hdepth (by omega) (by omega)
      rw [drop_nextTexts (by omega)]
      apply Yields.next
      · rw [hstep]
      · rw [hstep]
        apply ih rfl
        · show Int32.ofNat k + Int32.ofNat 1 = Int32.ofNat (k + 1)
          exact int32_ofNat_add k 1
        · omega
        · omega

/-- From offset `k` of a range on, `hostlist_next` gives the rest of that range and
then the ranges behind it. -/
theorem next_yields_from (pre : List Hostrange) (hn : hl.nranges = hl.hr.length)
    (hhr : hl.hr = pre ++ c :: post) (hw : ∀ x ∈ hl.hr, x.Wf) (hlt : ∀ x ∈ hl.hr, x.names.length < 2 ^ 31)
    (hidx : i.idx = pre.length) (hdepth : i.depth + 1 = Int32.ofNat k)
    (hk : k ≤ c.names.length) :
    Yields (hostlistNext hl) i (c.nextTexts.drop k ++ post.flatMap Hostrange.nextTexts) := by
  have hc : c ∈ hl.hr := by simp [hhr]
  induction post generalizing pre c i k with
  | nil =>
      apply next_yields_range hn hhr (hw c hc) (hlt c hc) ?_ hidx hdepth hk
      intro i hidx hdepth
      apply Yields.stop
      exact hostlistNext_last hn hhr (hw c hc) hidx hdepth (hlt c hc) (Nat.le_refl _)
  | cons d post ih =>
      have hd : d ∈ hl.hr := by simp [hhr]
      apply next_yields_range hn hhr (hw c hc) (hlt c hc) ?_ hidx hdepth hk
      intro i hidx hdepth
      have hstep := hostlistNext_after hn hhr (hw c hc) (hw d hd) hidx hdepth (hlt c hc)
        (Nat.le_refl _)
      have hpos := (hw d hd).length_pos
      have hfirst := drop_nextTexts hpos
      rw [List.drop_zero] at hfirst
      rw [List.flatMap_cons, hfirst, List.cons_append]
      apply Yields.next
      · rw [hstep]
      · rw [hstep]
        apply ih (pre ++ [c]) (k := 1)
        · rw [hhr, List.append_assoc]
          rfl
        · rfl
        · rfl
        · omega
        · exact hd

/-- All that `hostlist_next` gives on a fresh iterator. -/
def Hostlist.nextTexts (hl : Hostlist) : List CStr := hl.hr.flatMap Hostrange.nextTexts

theorem next_yields (hn : hl.nranges = hl.hr.length) (hw : ∀ x ∈ hl.hr, x.Wf)
    (hlt : ∀ x ∈ hl.hr, x.names.length < 2 ^ 31) :
    Yields (hostlistNext hl) hostlistIteratorCreate hl.nextTexts := by
  unfold Hostlist.nextTexts
  cases hhr : hl.hr with
  | nil =>
      have hzero : hl.nranges = 0 := by rw [hn, hhr]; rfl
      apply Yields.stop
      unfold hostlistNext iteratorAdvance
      simp [hzero]
  | cons c post =>
      have hall := next_yields_from [] (k := 0) (i := hostlistIteratorCreate) hn hhr hw hlt
        rfl (by decide) (Nat.zero_le _)
      exact hall

end Next

/-! ## `hostlist_nth` -/

theorem hostrangeString_eq (hw : hr.Wf) {k : Nat} (hk : k < 2 ^ 31) (hlt : k < hr.names.length) :
    hostrangeString hr (Int32.ofNat k) = (hr.pfx ++ hr.digitsAt k).take 78 := by
  unfold hostrangeString Hostrange.digitsAt
  cases hs : hr.singlehost with
  | true => simp [snprintf]
  | false =>
      have hnum := hr.number_at hw hs hk hlt
      simp only [Bool.false_eq_true, if_false]
      rw [hnum, List.take_append]
      by_cases hlong : hr.pfx.length ≥ 79
      · rw [if_pos hlong]
        have hnone : 78 - hr.pfx.length = 0 := by omega
        rw [hnone, List.take_zero, List.append_nil]
        rfl
      · rw [if_neg hlong]
        have hroom : 79 - hr.pfx.length - 1 = 78 - hr.pfx.length := by omega
        unfold snprintf
        rw [hroom]

theorem names_getElem? {k : Nat} (hlt : k < hr.names.length) :
    hr.names[k]? = some (hr.pfx ++ hr.digitsAt k) := by
  rw [hr.names_eq_digits, List.getElem?_map, Hostrange.getElem?_digits hlt]
  rfl

/-- `hostlist_nth` gives the host at a position, up to 78 characters of it. -/
theorem hostlistNth_eq (hw : hl.Wf) (hs : hl.Small) (hn : n < hl.names.length) :
    hostlistNth hl (Int32.ofNat n) = (hl.names[n]?).map (·.take 78) := by
  obtain ⟨pre, c, post, k, hhr, rfl, hk⟩ := exists_chunk hn
  have hlen : 0 + ((pre ++ c :: post).flatMap Hostrange.names).length < 2 ^ 31 := by
    rw [Nat.zero_add, ← hhr]
    exact hs
  have hall : ∀ x ∈ pre ++ c :: post, x.Wf := by
    rw [← hhr]
    exact hw.ranges
  have hseek := hostlistSeek_spec pre post 0 0 hall hlen hk
  have htake : hl.hr.take hl.nranges = pre ++ c :: post := by
    rw [hw.nranges, List.take_length, hhr]
  have hsub : Int32.ofNat ((pre.flatMap Hostrange.names).length + k) -
      Int32.ofNat (pre.flatMap Hostrange.names).length = Int32.ofNat k := by
    rw [Nat.add_comm, ← int32_ofNat_add, Int32.add_sub_cancel]
  have hsmall : k < 2 ^ 31 := by
    rw [List.flatMap_append, List.flatMap_cons, List.length_append, List.length_append] at hlen
    omega
  have hzero : Int32.ofNat 0 = 0 := rfl
  rw [Nat.zero_add, Nat.zero_add, hzero] at hseek
  unfold hostlistNth
  rw [htake, hseek, Option.map_some, hsub]
  rw [hostrangeString_eq (hall c (by simp)) hsmall hk]
  show _ = ((hl.hr.flatMap Hostrange.names)[_]?).map _
  rw [hhr, getElem?_chunk hk, names_getElem? hk]
  rfl

/-! ## `hostlist_shift` -/

/-- Shifting all hosts off a list of numbers of at most 14 digits. -/
theorem shift_yields (hw : hl.Wf) (hs : hl.Small) (hb : hl.Below (10 ^ 14)) :
    Yields hostlistShift hl hl.names := by
  apply Yields.of_head (fun hl => hl.Wf ∧ hl.Small ∧ hl.Below (10 ^ 14)) Hostlist.names ?_
    ⟨hw, hs, hb⟩
  rintro hl ⟨hw, hs, hb⟩
  have hfits := (hb.mono (show 10 ^ 14 ≤ 10 ^ 15 by decide)).fits
  have hmax := hb.mono (show 10 ^ 14 ≤ ULONG_MAX.toNat by decide)
  obtain ⟨hhead, hrem⟩ := hostlistShift_fits hw hs hmax hfits
  refine ⟨hhead, ⟨hrem.wf, ?_, hrem.below _ hb⟩, hrem.names⟩
  show (hostlistShift hl).2.names.length < 2 ^ 31
  rw [hrem.names, List.length_tail]
  have hlen : hl.names.length < 2 ^ 31 := hs
  omega

/-- Numbers printed with at most 14 digits are below `10^14`. -/
theorem hi_lt_of_digits (hw : hr.Wf) (h : ∀ d ∈ hr.digits, d.length ≤ 14) :
    hr.hi.toNat < 10 ^ 14 := by
  cases hs : hr.singlehost with
  | true =>
      rw [(hw.single hs).2]
      decide
  | false =>
      have hle := hw.le
      have hmem : pad hr.width hr.hi.toNat ∈ hr.digits := by
        unfold Hostrange.digits
        rw [hs, if_neg Bool.false_ne_true]
        apply List.mem_map_of_mem
        rw [List.mem_range'_1]
        omega
      have hlen := h _ hmem
      rw [length_pad] at hlen
      exact (numDigits_le_iff (by decide)).mp (Nat.le_trans (Nat.le_max_right _ _) hlen)

/-! ## Agreement -/

/-- The pieces of a text between commas; an empty text has none. -/
def commaPieces (text : CStr) : List CStr := if text = [] then [] else text.splitOn ','

/-- The four enumerators give one list, as long as `hostlist_count` says. -/
def EnumeratorsAgree (hl : Hostlist) (deranged : CStr) : Prop :=
  ∃ names, Yields (hostlistNext hl) hostlistIteratorCreate names ∧
    Yields hostlistShift (hostlistCopy hl) names ∧
    (List.range (hostlistCount hl).toInt.toNat).map (fun i => hostlistNth hl (Int32.ofNat i)) =
      names.map some ∧
    commaPieces deranged = names ∧ (names.length : Int) = (hostlistCount hl).toInt

/-- What every operation keeps without a look at the numbers: `nranges` counts the
ranges, and a single host has no bounds. -/
structure Hostlist.Rep (hl : Hostlist) : Prop where
  nranges : hl.nranges = hl.hr.length
  single : ∀ hr ∈ hl.hr, hr.singlehost = true → hr.lo = 0 ∧ hr.hi = 0

/-- Lists whose names fit every buffer and are not confused by commas. -/
structure Listable (hl : Hostlist) : Prop where
  digits : ∀ hr ∈ hl.hr, ∀ d ∈ hr.digits, d.length ≤ 14
  names : ∀ name ∈ hl.names, name.length ≤ 78
  commas : ∀ name ∈ hl.names, ',' ∉ name
  blank : hl.names ≠ [[]]

theorem Hostrange.length_nextTexts (hr : Hostrange) : hr.nextTexts.length = hr.names.length := by
  rw [Hostrange.nextTexts, List.length_map, hr.length_digits]

theorem Hostlist.length_nextTexts (hl : Hostlist) : hl.nextTexts.length = hl.names.length := by
  unfold Hostlist.nextTexts Hostlist.names
  rw [List.length_flatMap, List.length_flatMap]
  congr 1
  apply List.map_congr_left
  intro hr _
  exact hr.length_nextTexts

/-- `hostlist_next` gives the names exactly when no number is cut. -/
theorem nextTexts_eq_names_iff :
    hl.nextTexts = hl.names ↔ ∀ hr ∈ hl.hr, ∀ d ∈ hr.digits, d.length ≤ 14 := by
  have hchunks : hl.nextTexts = hl.names ↔ ∀ hr ∈ hl.hr, hr.nextTexts = hr.names :=
    flatMap_eq_iff fun hr _ => hr.length_nextTexts
  rw [hchunks]
  apply forall_congr'
  intro hr
  apply imp_congr_right
  intro _
  rw [hr.names_eq_digits, Hostrange.nextTexts, List.map_inj_left]
  apply forall_congr'
  intro d
  apply imp_congr_right
  intro _
  rw [List.append_cancel_left_eq, List.take_eq_self_iff]

/-- `hostlist_nth` gives the names exactly when no name is cut. -/
theorem nths_eq_names_iff (hw : hl.Wf) (hs : hl.Small) :
    (List.range (hostlistCount hl).toInt.toNat).map (fun i => hostlistNth hl (Int32.ofNat i)) =
        hl.names.map some ↔ ∀ name ∈ hl.names, name.length ≤ 78 := by
  have hcount : (hostlistCount hl).toInt.toNat = hl.names.length := by
    unfold hostlistCount
    rw [hw.nhosts_toInt hs]
    rfl
  have hnths : (List.range (hostlistCount hl).toInt.toNat).map
      (fun i => hostlistNth hl (Int32.ofNat i)) = (hl.names.map (·.take 78)).map some := by
    rw [hcount]
    apply List.ext_getElem
    · simp
    · intro i hi _
      rw [List.length_map, List.length_range] at hi
      simp [hostlistNth_eq hw hs hi, hi]
  have hself : hl.names.map (·.take 78) = hl.names ↔
      hl.names.map (·.take 78) = hl.names.map id := by rw [List.map_id]
  rw [hnths, List.map_inj_right (fun _ _ h => Option.some.inj h), hself, List.map_inj_left]
  apply forall_congr'
  intro name
  apply imp_congr_right
  intro _
  exact List.take_eq_self_iff name

/-- The text is cut into as many pieces as there are names exactly when no name has
a comma, and one empty name is not all there is. -/
theorem length_commaPieces_iff :
    (commaPieces hl.derangedText).length = hl.names.length ↔
      (∀ name ∈ hl.names, ',' ∉ name) ∧ hl.names ≠ [[]] := by
  unfold commaPieces Hostlist.derangedText
  by_cases hnil : hl.names = []
  · simp [hnil]
  by_cases hblank : hl.names = [[]]
  · simp [hblank]
  have hne := mt (intercalate_eq_nil_iff (c := ',')).mp (not_or.mpr ⟨hnil, hblank⟩)
  rw [if_neg hne, length_splitOn_intercalate_iff hnil]
  simp [hblank]

theorem commaPieces_eq_names (hcomma : ∀ name ∈ hl.names, ',' ∉ name) (hblank : hl.names ≠ [[]]) :
    commaPieces hl.derangedText = hl.names := by
  unfold commaPieces Hostlist.derangedText
  by_cases hnil : hl.names = []
  · rw [hnil]
    rfl
  · have hne := mt (intercalate_eq_nil_iff (c := ',')).mp (not_or.mpr ⟨hnil, hblank⟩)
    rw [if_neg hne]
    exact List.splitOn_intercalate ',' hcomma hnil

/-- A list is not longer than its text and one more. -/
theorem length_names_le (hl : Hostlist) : hl.names.length ≤ hl.derangedText.length + 1 := by
  by_cases hnil : hl.names = []
  · rw [hnil]
    exact Nat.zero_le _
  · have hcount := count_intercalate ',' hnil
    have hle := List.count_le_length (a := ',') (l := List.intercalate [','] hl.names)
    unfold Hostlist.derangedText
    omega

/-- The four enumerators agree on a list, printed into a buffer with room for it,
exactly when the list keeps its invariant, no number is printed with more than 14
digits, no name has more than 78 characters or a comma, and the list is not one
empty name. The operations keep the invariant. -/
theorem enumerators_agree_iff (hrep : hl.Rep) (hn : n < 2 ^ 31) {buf : Mem}
    (hpos : 0 ≤ (hostlistDerangedString hl n buf).2)
    (hlt : (hostlistDerangedString hl n buf).2 < n) :
    (EnumeratorsAgree hl (text (hostlistDerangedString hl n buf).1 0
      (hostlistDerangedString hl n buf).2.toNat) ↔ hl.Wf ∧ Listable hl) ∧
      (Produced ULONG_MAX.toNat hl → hl.Wf) := by
  obtain ⟨hordered, hret, htext⟩ := hostlistDerangedString_spec hrep.nranges hpos hlt
  have hlen := length_names_le hl
  have hsmall : hl.Small := by
    show hl.names.length < 2 ^ 31
    omega
  have hranges : ∀ hr ∈ hl.hr, hr.Wf := by
    intro hr hmem
    refine ⟨?_, hrep.single hr hmem⟩
    cases hs : hr.singlehost with
    | true => rw [(hrep.single hr hmem hs).1, (hrep.single hr hmem hs).2]
    | false => exact (hordered hr hmem hs).1
  have hnext := next_yields hrep.nranges hranges fun hr hmem => hsmall.range_lt hmem
  rw [hret, Int.toNat_natCast, htext]
  refine ⟨?_, fun hp => (hp.wf (Nat.le_refl _) (by decide)).1⟩
  constructor
  · rintro ⟨names, hyields, hshift, hnths, hpieces, hcount⟩
    have hnames := hnext.unique hyields
    have hlength : names.length = hl.names.length := by rw [← hnames, hl.length_nextTexts]
    have hw : hl.Wf := by
      refine ⟨hranges, hrep.nranges, ?_⟩
      rw [← Int32.toInt_inj, Int32.toInt_ofNat_of_lt hsmall, ← hlength]
      exact hcount.symm
    obtain ⟨hcommas, hblank⟩ := length_commaPieces_iff.mp ((congrArg List.length hpieces).trans hlength)
    -- the text is read back right, so the other three are compared with the names
    have hall : names = hl.names := by
      rw [← hpieces]
      exact commaPieces_eq_names hcommas hblank
    rw [hall] at hnames hnths
    exact ⟨hw, nextTexts_eq_names_iff.mp hnames, (nths_eq_names_iff hw hsmall).mp hnths, hcommas,
      hblank⟩
  · rintro ⟨hw, hlist⟩
    refine ⟨hl.names, ?_, ?_, (nths_eq_names_iff hw hsmall).mpr hlist.names,
      commaPieces_eq_names hlist.commas hlist.blank, (hw.nhosts_toInt hsmall).symm⟩
    · rw [← nextTexts_eq_names_iff.mpr hlist.digits]
      exact hnext
    · have hbelow : hl.Below (10 ^ 14) := fun hr hmem =>
        hi_lt_of_digits (hranges hr hmem) (hlist.digits hr hmem)
      have hcopy := hostlistCopy_spec hw hbelow
      have hcnames : (hostlistCopy hl).names = hl.names := by simpa using hcopy.names
      rw [← hcnames]
      apply shift_yields hcopy.wf ?_ hcopy.below
      show (hostlistCopy hl).names.length < 2 ^ 31
      rw [hcnames]
      exact hsmall

/-- `n[000000000000001-000000000000002]`: 15 digits. -/
def wideRange : Hostlist := ⟨[⟨['n'], 1, 2, 15, false⟩], 1, 2⟩

/-- `hostlist_next` cuts the last digit off each host. -/
theorem enumerators_disagree_wide :
    hostlistCreate [] "n[000000000000001-000000000000002]".toList = .ret (some wideRange) ∧
      (hostlistDerangedString wideRange 64 fun _ => NUL).2 = 33 ∧
      ¬ EnumeratorsAgree wideRange (text (hostlistDerangedString wideRange 64 fun _ => NUL).1 0 33) := by
  refine ⟨by decide, by decide, ?_⟩
  rintro ⟨names, hnext, -, -, hpieces, -⟩
  have htext : commaPieces (text (hostlistDerangedString wideRange 64 fun _ => NUL).1 0 33) =
      ["n000000000000001".toList, "n000000000000002".toList] := by decide
  rw [htext] at hpieces
  rw [← hpieces] at hnext
  cases hnext with
  | next hfirst _ =>
      have hcut : (hostlistNext wideRange hostlistIteratorCreate).1 =
          some "n00000000000000".toList := by decide
      rw [hcut] at hfirst
      exact absurd hfirst (by decide)

/-- `n[1-3]`. -/
def threeHosts : Hostlist := ⟨[⟨['n'], 1, 3, 1, false⟩], 1, 3⟩

theorem enumerators_agree_three : EnumeratorsAgree threeHosts
    (text (hostlistDerangedString threeHosts 64 fun _ => NUL).1 0 8) := by
  have hrep : threeHosts.Rep := by
    refine ⟨rfl, ?_⟩
    intro hr hmem hs
    rw [List.mem_singleton.mp hmem] at hs
    cases hs
  have hboth := @enumerators_agree_iff threeHosts 64 hrep (by decide) (fun _ => NUL) (by decide)
    (by decide)
  apply hboth.1.mpr
  refine ⟨hboth.2 ?_, by decide, by decide, by decide, by decide⟩
  exact @Produced.create _ [] "n[1-3]".toList _ (by decide) (by decide)

end Pdsh
