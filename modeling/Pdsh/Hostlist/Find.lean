import Pdsh.Hostlist.Hostname
import Pdsh.Hostlist.Remove

/-!
# Searching a list

`hostlist_find` splits the name once and compares it with each range. While
the prefix of a range is longer than that of the name and ends in digits, one
more digit of the name is given to its prefix. The widths of the two numbers
are compared by `_width_equiv`, which may rewrite the width of the range.

`hostlistFindLoop_spec` says exactly what the search finds: the first position
of the name among the ranges that can be searched for it (`Hostrange.Knows`).
A range of numbers can be searched when the name splits at all, that is when
its number is at most `MAX_HOST_SUFFIX`.
-/

namespace Pdsh

open Lib Lib.Decimal Lib.Chunks

variable {hl : Hostlist} {hr : Hostrange} {h : CStr}

/-- The search compares this range with the name. -/
def Hostrange.Knows (hr : Hostrange) (h : CStr) : Bool :=
  hr.singlehost || (hostnameCreate h).suffix.isSome

/-! ## One range -/

/-- The name split at `idx`, as the search holds it. -/
def splitAt (h : CStr) (idx : Nat) : Hostname :=
  ⟨h, h.take idx, UInt64.ofNat (value (h.drop idx)), some (h.drop idx)⟩

/-- A split the search can hold: digits behind it, and not too large a number. -/
structure Splits (h : CStr) (idx : Nat) : Prop where
  digits : hostPrefixEnd h ≤ idx
  lt : idx < h.length
  small : value (h.drop idx) ≤ MAX_HOST_SUFFIX.toNat

theorem Splits.num_toNat {idx : Nat} (hsp : Splits h idx) :
    (splitAt h idx).num.toNat = value (h.drop idx) := by
  have := hsp.small
  have hM := MAX_HOST_SUFFIX_toNat
  rw [splitAt, UInt64.toNat_ofNat_of_lt' (by simp only [UInt64.size]; omega)]

theorem Splits.drop_ne_nil {idx : Nat} (hsp : Splits h idx) : h.drop idx ≠ [] := by
  have := hsp.lt
  rw [Ne, List.drop_eq_nil_iff]
  omega

/-- The name is its prefix and its number in a field as wide as its suffix. -/
theorem Splits.eq_pad {idx : Nat} (hsp : Splits h idx) :
    h = h.take idx ++ pad (h.drop idx).length (value (h.drop idx)) := by
  rw [pad_value hsp.drop_ne_nil (isDigit_drop hsp.digits), List.take_append_drop]

/-- One more digit in the prefix makes no larger number. -/
theorem Splits.succ {idx : Nat} (hsp : Splits h idx) (hlen : 1 < (h.drop idx).length) :
    Splits h (idx + 1) := by
  rw [List.length_drop] at hlen
  refine ⟨Nat.le_succ_of_le hsp.digits, by omega, Nat.le_trans ?_ hsp.small⟩
  have hcons : h.drop idx = [h[idx]] ++ h.drop (idx + 1) := by
    rw [List.drop_eq_getElem_cons hsp.lt]
    rfl
  rw [hcons, value_append]
  exact Nat.le_add_left _ _

theorem Splits.create {idx : Nat} (hsp : Splits h idx) :
    hostnameCreateWithSuffix h idx = splitAt h idx :=
  hostnameCreateWithSuffix_valid hsp.digits hsp.lt hsp.small

theorem hostnameCreate_cases (h : CStr) :
    (Splits h (hostPrefixEnd h) ∧ hostnameCreate h = splitAt h (hostPrefixEnd h)) ∨
      (hostnameCreate h).suffix = none := by
  rcases hostnameCreateWithSuffix_cases (Nat.le_refl (hostPrefixEnd h)) (hostPrefixEnd_le h) with
    ⟨hlt, hv, heq⟩ | ⟨-, hnone⟩
  · exact .inl ⟨⟨Nat.le_refl _, hlt, hv⟩, heq⟩
  · exact .inr hnone

/-- What a comparison with one range may answer: nothing, or the offset of the
name, and the range printing as before. -/
structure Compared (hr : Hostrange) (h : CStr) (r : Int32 × Hostrange) : Prop where
  range : hr.Rewidth r.2
  answer : r.1 = -1 ∨ ∃ k, r.1 = Int32.ofNat k ∧ k ≤ MAX_HOST_SUFFIX.toNat ∧
    hr.names[k]? = some h

theorem Compared.none (hr : Hostrange) (h : CStr) : Compared hr h (-1, hr) :=
  ⟨Hostrange.Rewidth.refl hr, .inl rfl⟩

/-- A match of prefix, number and width is a host of the range. -/
theorem hostrangeHnMatch_compared (hs : hr.singlehost = false) {idx : Nat} (hsp : Splits h idx) :
    Compared hr h (hostrangeHnMatch hr (splitAt h idx) (h.drop idx).length) := by
  unfold hostrangeHnMatch
  split
  · rename_i hcond
    obtain ⟨-, hpfx, hhi, hlo⟩ := hcond
    split
    · exact Compared.none hr h
    · rename_i w hw
      obtain ⟨heq, -, hplo, hpnum⟩ := widthEquiv_some hw
      have hnum := hsp.num_toNat
      have hpfx' : h.take idx = hr.pfx := strcmp_eq_zero_iff.mp hpfx
      rw [UInt64.le_iff_toNat_le, hnum] at hhi
      have hlo' : hr.lo.toNat ≤ value (h.drop idx) := by
        rw [← hnum]
        exact UInt64.le_iff_toNat_le.mp hlo
      have hsub : ((splitAt h idx).num - hr.lo).toNat = value (h.drop idx) - hr.lo.toNat := by
        rw [UInt64.toNat_sub_of_le _ _ hlo, hnum]
      have hsmall := hsp.small
      refine ⟨⟨w.1, rfl, hplo⟩, .inr ⟨value (h.drop idx) - hr.lo.toNat, ?_, by omega, ?_⟩⟩
      · rw [intOfUlong, hsub]
      · have hsum : hr.lo.toNat + (value (h.drop idx) - hr.lo.toNat) = value (h.drop idx) := by
          omega
        rw [Hostrange.names_block hs, getElem?_block (by omega), hsum, ← hpfx']
        -- both widths print the number as the adjusted one does
        rw [hnum] at hpnum
        conv_rhs => rw [hsp.eq_pad]
        rw [← pad_congr hpnum, pad_congr (padding_eq_mono hlo' hplo)]
  · exact Compared.none hr h

/-- The search gives one more digit to the prefix of the name. -/
def Advances (hr : Hostrange) (h : CStr) (idx : Nat) : Prop :=
  idx < hr.pfx.length ∧ 1 < (h.drop idx).length ∧ hr.pfx.getLast?.any Char.isDigit ∧
    hr.pfx[idx]? = h[idx]?

instance (hr : Hostrange) (h : CStr) (idx : Nat) : Decidable (Advances hr h idx) := by
  unfold Advances
  infer_instance

/-- One round of the search in a range of numbers. -/
theorem hostrangeHnWithinLoop_round (hs : hr.singlehost = false) {idx : Nat} (hsp : Splits h idx)
    (fuel : Nat) :
    hostrangeHnWithinLoop fuel hr (splitAt h idx) =
      if hr.pfx.take idx ≠ h.take idx then (-1, hr)
      else if Advances hr h idx then
        match fuel with
        | 0 => (-1, hr)
        | fuel + 1 => hostrangeHnWithinLoop fuel hr (splitAt h (idx + 1))
      else hostrangeHnMatch hr (splitAt h idx) (h.drop idx).length := by
  have hlen : (h.take idx).length = idx := by
    rw [List.length_take, Nat.min_eq_left (Nat.le_of_lt hsp.lt)]
  have hround : hostrangeHnWithinLoop fuel hr (splitAt h idx) =
      if hr.pfx.take (h.take idx).length ≠ h.take idx then (-1, hr)
      else if (h.take idx).length < hr.pfx.length ∧ 1 < (h.drop idx).length ∧
          hr.pfx.getLast?.any Char.isDigit ∧ hr.pfx[(h.take idx).length]? = (h.drop idx).head? then
        match fuel with
        | 0 => (-1, hr)
        | fuel + 1 =>
            hostrangeHnWithinLoop fuel hr (hostnameCreateWithSuffix h ((h.take idx).length + 1))
      else hostrangeHnMatch hr (splitAt h idx) (h.drop idx).length := by
    cases fuel <;>
    · rw [hostrangeHnWithinLoop, if_neg (by simp [hs])]
      rfl
  rw [hround, hlen, List.head?_drop]
  refine if_congr Iff.rfl rfl (ite_congr rfl (fun hadv => ?_) fun _ => rfl)
  cases fuel with
  | zero => rfl
  | succ fuel => rw [(hsp.succ hadv.2.1).create]

theorem hostrangeHnWithinLoop_compared (hs : hr.singlehost = false) {fuel idx : Nat}
    (hsp : Splits h idx) : Compared hr h (hostrangeHnWithinLoop fuel hr (splitAt h idx)) := by
  induction fuel generalizing idx with
  | zero =>
      rw [hostrangeHnWithinLoop_round hs hsp]
      split
      · exact Compared.none hr h
      · split
        · exact Compared.none hr h
        · exact hostrangeHnMatch_compared hs hsp
  | succ fuel ih =>
      rw [hostrangeHnWithinLoop_round hs hsp]
      split
      · exact Compared.none hr h
      · split
        · rename_i hadv
          exact ih (hsp.succ hadv.2.1)
        · exact hostrangeHnMatch_compared hs hsp

/-- Every answer is right. -/
theorem hostrangeHnWithin_compared (hr : Hostrange) (h : CStr) :
    Compared hr h (hostrangeHnWithin hr (hostnameCreate h)) := by
  unfold hostrangeHnWithin
  cases hs : hr.singlehost with
  | true =>
      unfold hostrangeHnWithinLoop
      simp only [hs, if_true]
      split
      · rename_i heq
        have hname : h = hr.pfx := by
          simpa [hostnameCreate] using strcmp_eq_zero_iff.mp heq
        refine ⟨Hostrange.Rewidth.refl hr, .inr ⟨0, rfl, Nat.zero_le _, ?_⟩⟩
        rw [Hostrange.names_single hs, hname]
        rfl
      · exact Compared.none hr h
  | false =>
      rcases hostnameCreate_cases h with ⟨hsp, heq⟩ | hnone
      · rw [heq]
        exact hostrangeHnWithinLoop_compared hs hsp
      · unfold hostrangeHnWithinLoop
        simp only [hs, Bool.false_eq_true, if_false, hnone]
        exact Compared.none hr h

/-! ## Nothing is missed -/

/-- A name of the range, split where the range splits it, matches. -/
theorem hostrangeHnMatch_found {n : Nat} (hlo : hr.lo.toNat ≤ n)
    (hhi : n ≤ hr.hi.toNat) (hh : h = hr.pfx ++ pad hr.width n) (hsp : Splits h hr.pfx.length) :
    (hostrangeHnMatch hr (splitAt h hr.pfx.length) (h.drop hr.pfx.length).length).1 =
      Int32.ofNat (n - hr.lo.toNat) := by
  have hdrop : h.drop hr.pfx.length = pad hr.width n := by rw [hh, List.drop_left]
  have htake : h.take hr.pfx.length = hr.pfx := by rw [hh, List.take_left]
  have hnum := hsp.num_toNat
  rw [hdrop, value_pad] at hnum
  have hle : (splitAt h hr.pfx.length).num ≤ hr.hi := by
    rw [UInt64.le_iff_toNat_le, hnum]
    exact hhi
  have hge : (splitAt h hr.pfx.length).num ≥ hr.lo := by
    rw [ge_iff_le, UInt64.le_iff_toNat_le, hnum]
    exact hlo
  have hsome : (widthEquiv hr.lo hr.width (splitAt h hr.pfx.length).num
      (h.drop hr.pfx.length).length).isSome := by
    refine widthEquiv_isSome (.inr ?_)
    rw [hnum, hdrop, length_pad]
    unfold padding
    omega
  obtain ⟨w, hweq⟩ := Option.isSome_iff_exists.mp hsome
  have hsub : ((splitAt h hr.pfx.length).num - hr.lo).toNat = n - hr.lo.toNat := by
    rw [UInt64.toNat_sub_of_le _ _ hge, hnum]
  unfold hostrangeHnMatch
  rw [if_pos ⟨by rw [show (splitAt h hr.pfx.length).pfx = hr.pfx from htake],
    strcmp_eq_zero_iff.mpr htake, hle, hge⟩, hweq]
  simp only [intOfUlong, hsub]

/-- The search moves the digits the prefix of the range ends in, one by one. -/
theorem hostrangeHnWithinLoop_found (hs : hr.singlehost = false) {n : Nat}
    (hlo : hr.lo.toNat ≤ n) (hhi : n ≤ hr.hi.toNat) (hh : h = hr.pfx ++ pad hr.width n)
    {fuel idx : Nat} (hidx : idx ≤ hr.pfx.length) (hfuel : hr.pfx.length - idx ≤ fuel)
    (hsp : Splits h idx) :
    (hostrangeHnWithinLoop fuel hr (splitAt h idx)).1 = Int32.ofNat (n - hr.lo.toNat) := by
  have hpad := List.length_pos_iff.mpr (pad_ne_nil hr.width n)
  have htake : hr.pfx.take idx = h.take idx := by
    rw [hh, List.take_append_of_le_length hidx]
  have hlen : h.length = hr.pfx.length + (pad hr.width n).length := by
    rw [hh, List.length_append]
  induction fuel generalizing idx with
  | zero =>
      have heq : idx = hr.pfx.length := by omega
      subst heq
      rw [hostrangeHnWithinLoop_round hs hsp, if_neg (not_not.mpr htake),
        if_neg fun hadv => Nat.lt_irrefl _ hadv.1]
      exact hostrangeHnMatch_found hlo hhi hh hsp
  | succ fuel ih =>
      rw [hostrangeHnWithinLoop_round hs hsp, if_neg (not_not.mpr htake)]
      by_cases heq : idx = hr.pfx.length
      · subst heq
        rw [if_neg fun hadv => Nat.lt_irrefl _ hadv.1]
        exact hostrangeHnMatch_found hlo hhi hh hsp
      · have hlt : idx < hr.pfx.length := by omega
        have hne : hr.pfx ≠ [] := by
          rintro hnil
          rw [hnil] at hlt
          exact absurd hlt (Nat.not_lt_zero _)
        have hadv : Advances hr h idx := by
          refine ⟨hlt, by rw [List.length_drop]; omega, ?_, ?_⟩
          · -- the prefix ends in a digit, as everything of the name from `idx` on does
            rw [List.getLast?_eq_getLast_of_ne_nil hne, Option.any_some]
            refine isDigit_drop hsp.digits _ ?_
            rw [hh, List.drop_append_of_le_length hidx]
            refine List.mem_append_left _ ?_
            have hdne : hr.pfx.drop idx ≠ [] := by
              rw [Ne, List.drop_eq_nil_iff]
              omega
            rw [← List.getLast_drop hdne]
            exact List.getLast_mem hdne
          · rw [hh, List.getElem?_append_left hlt]
        have hnext := hsp.succ hadv.2.1
        rw [if_pos hadv]
        exact ih (by omega) (by omega) hnext (by rw [hh, List.take_append_of_le_length (by omega)])

theorem hostPrefixEnd_le_pfx {n : Nat} (hh : h = hr.pfx ++ pad hr.width n) :
    hostPrefixEnd h ≤ hr.pfx.length := by
  rw [hh, hostPrefixEnd_append_digits fun c hc => isDigit_pad hc]
  exact hostPrefixEnd_le _

/-- A name of a range that knows it is found, at its place. -/
theorem hostrangeHnWithin_found (hw : hr.Wf) (hk : hr.Knows h) (hmem : h ∈ hr.names) :
    (hostrangeHnWithin hr (hostnameCreate h)).1 = Int32.ofNat (hr.names.idxOf h) ∧
      hr.names.idxOf h ≤ MAX_HOST_SUFFIX.toNat ∧ hr.lo.toNat ≤ MAX_HOST_SUFFIX.toNat := by
  cases hs : hr.singlehost with
  | true =>
      rw [Hostrange.names_single hs, List.mem_singleton] at hmem
      subst hmem
      have hlo : hr.lo = 0 := (hw.single hs).1
      have hcmp : strcmp (hostnameCreate hr.pfx).hostname hr.pfx = 0 :=
        strcmp_eq_zero_iff.mpr (hostnameCreateWithSuffix_hostname _ _)
      rw [hostrangeHnWithin, hostrangeHnWithinLoop, if_pos hs, if_pos hcmp,
        Hostrange.names_single hs, hlo]
      simp
  | false =>
      rw [Hostrange.names_block hs, mem_block] at hmem
      obtain ⟨n, hlo, hhi, hh⟩ := hmem
      have hle := hw.le
      rcases hostnameCreate_cases h with ⟨hsp, heq⟩ | hnone
      · have hidx := hostPrefixEnd_le_pfx hh
        have hlen : h.length = hr.pfx.length + (pad hr.width n).length := by
          rw [hh, List.length_append]
        have hsum : hr.lo.toNat + (n - hr.lo.toNat) = n := by omega
        have hat : hr.names.idxOf h = n - hr.lo.toNat := by
          rw [Hostrange.names_block hs, hh]
          conv_lhs => rw [← hsum]
          exact idxOf_block (by omega)
        -- the trailing digits of the name hold the number, and are below the limit
        have hn : n ≤ MAX_HOST_SUFFIX.toNat := by
          refine Nat.le_trans ?_ hsp.small
          have hdrop : h.drop (hostPrefixEnd h) =
              hr.pfx.drop (hostPrefixEnd h) ++ pad hr.width n := by
            conv_lhs => rw [hh, List.drop_append_of_le_length (by rw [← hh]; exact hidx), ← hh]
          rw [hdrop, value_append, value_pad]
          exact Nat.le_add_left _ _
        rw [hostrangeHnWithin, heq, hostrangeHnWithinLoop_found hs hlo (by omega) hh hidx
          (by simp only [splitAt]; omega) hsp, hat]
        exact ⟨rfl, by omega, by omega⟩
      · simp [Hostrange.Knows, hs, hnone] at hk

/-- A range of numbers says nothing about a name that does not split. -/
theorem hostrangeHnWithin_unknown (hk : hr.Knows h = false) :
    hostrangeHnWithin hr (hostnameCreate h) = (-1, hr) := by
  simp only [Hostrange.Knows, Bool.or_eq_false_iff, Option.isSome_eq_false_iff,
    Option.isNone_iff_eq_none] at hk
  unfold hostrangeHnWithin hostrangeHnWithinLoop
  simp [hk.1, hk.2]

/-! ## The list -/

/-- The search for `h` sees this entry. -/
def known (h : CStr) (e : Bool × CStr) : Bool :=
  e.2 = h && (e.1 || (hostnameCreate h).suffix.isSome)

theorem Hostrange.Rewidth.stored {hr' : Hostrange} (hrw : hr.Rewidth hr') :
    hr'.stored = hr.stored := by
  have hnames := hrw.names
  obtain ⟨w, rfl, -⟩ := hrw
  simp only [Hostrange.stored, hnames]

theorem Hostrange.nodup (hr : Hostrange) : hr.names.Nodup := by
  unfold Hostrange.names
  split
  · simp
  · exact block_nodup

/-- In one range, the entry the search sees is the one of the name. -/
theorem findIdx?_stored (hr : Hostrange) (h : CStr) :
    hr.stored.findIdx? (known h) =
      if hr.Knows h ∧ h ∈ hr.names then some (hr.names.idxOf h) else none := by
  have hknown : known h ∘ (hr.singlehost, ·) = fun x => x == h && hr.Knows h := by
    funext x
    simp only [known, Hostrange.Knows, Function.comp_def]
    by_cases hx : x = h <;> simp [hx]
  rw [Hostrange.stored, List.findIdx?_map, hknown]
  cases hk : hr.Knows h with
  | false => simp
  | true =>
      simp only [Bool.and_true, true_and]
      by_cases hmem : h ∈ hr.names
      · rw [if_pos hmem]
        exact List.findIdx?_eq_some_of_exists ⟨h, hmem, by simp⟩
      · rw [if_neg hmem, List.findIdx?_eq_none_iff]
        intro x hx
        simp only [beq_eq_false_iff_ne, ne_eq]
        rintro rfl
        exact hmem hx

/-- The comparison with one range answers as the entries of the range do. -/
theorem hostrangeHnWithin_spec (hw : hr.Wf) (h : CStr) :
    hr.Rewidth (hostrangeHnWithin hr (hostnameCreate h)).2 ∧
      (match hr.stored.findIdx? (known h) with
      | none => (hostrangeHnWithin hr (hostnameCreate h)).1 = -1
      | some k => (hostrangeHnWithin hr (hostnameCreate h)).1 = Int32.ofNat k ∧
          k ≤ MAX_HOST_SUFFIX.toNat) := by
  have hcomp := hostrangeHnWithin_compared hr h
  refine ⟨hcomp.range, ?_⟩
  rw [findIdx?_stored]
  cases hk : hr.Knows h with
  | false => simp [hostrangeHnWithin_unknown hk]
  | true =>
      by_cases hmem : h ∈ hr.names
      · simp only [hmem, and_self, if_true]
        obtain ⟨hans, hidx, -⟩ := hostrangeHnWithin_found hw hk hmem
        exact ⟨hans, hidx⟩
      · simp only [hmem, and_false, if_false]
        refine hcomp.answer.resolve_right ?_
        rintro ⟨k, -, -, hget⟩
        exact hmem (List.mem_of_getElem? hget)

/-- A position or -1, as an `int`. -/
def positionOf : Option Nat → Int32
  | none => -1
  | some k => Int32.ofNat k

/-- The loop of `hostlist_find` returns the first entry it sees. -/
theorem hostlistFindLoop_spec {ranges : List Hostrange} (count : Nat) (hw : ∀ x ∈ ranges, x.Wf) (h : CStr) :
    List.Forall₂ Hostrange.Rewidth ranges
        (hostlistFindLoop (hostnameCreate h) ranges (Int32.ofNat count)).1 ∧
      (hostlistFindLoop (hostnameCreate h) ranges (Int32.ofNat count)).2 =
        positionOf (((ranges.flatMap Hostrange.stored).findIdx? (known h)).map (count + ·)) := by
  -- `count` is the number of hosts in front of the ranges, and is added up as an int
  induction ranges generalizing count with
  | nil => exact ⟨List.Forall₂.nil, rfl⟩
  | cons x rest ih =>
      have hx := hw x (by simp)
      obtain ⟨hrw, hans⟩ := hostrangeHnWithin_spec hx h
      rw [List.flatMap_cons, List.findIdx?_append]
      unfold hostlistFindLoop
      cases hfind : x.stored.findIdx? (known h) with
      | none =>
          simp only [hfind] at hans
          have hneg : ¬ ((-1 : Int32) ≥ 0) := by decide
          have hcount : intOfUlong (hostrangeCount (hostrangeHnWithin x (hostnameCreate h)).2) =
              Int32.ofNat x.names.length := by
            rw [intOfUlong_count (hrw.wf hx), hrw.names]
          obtain ⟨hall, hpos⟩ := ih (count + x.names.length)
            (fun y hy => hw y (List.mem_cons_of_mem _ hy))
          simp only [hans, hneg, if_false, hcount, int32_ofNat_add]
          refine ⟨List.Forall₂.cons hrw hall, ?_⟩
          rw [hpos, Option.none_or, Option.map_map, Hostrange.length_stored]
          congr 2
          funext k
          simp only [Function.comp_apply]
          omega
      | some k =>
          simp only [hfind] at hans
          have hM := MAX_HOST_SUFFIX_toNat
          have hpos : Int32.ofNat k ≥ 0 := by
            rw [ge_iff_le, Int32.le_iff_toInt_le, Int32.toInt_ofNat_of_lt (by omega)]
            exact Int.natCast_nonneg k
          simp only [hans.1, hpos, if_true, int32_ofNat_add]
          have hsame : List.Forall₂ Hostrange.Rewidth rest rest := by
            rw [List.forall₂_same]
            exact fun y _ => Hostrange.Rewidth.refl y
          exact ⟨List.Forall₂.cons hrw hsame, rfl⟩

/-- The same list up to the widths of its ranges. -/
structure Hostlist.Rewidth (hl hl' : Hostlist) : Prop where
  ranges : List.Forall₂ Hostrange.Rewidth hl.hr hl'.hr
  nranges : hl'.nranges = hl.nranges
  nhosts : hl'.nhosts = hl.nhosts

theorem Hostlist.Rewidth.names {hl' : Hostlist} (hr : hl.Rewidth hl') : hl'.names = hl.names :=
  flatMap_of_forall₂ (fun _ _ hxy => hxy.names) hr.ranges

theorem Hostlist.Rewidth.stored {hl' : Hostlist} (hr : hl.Rewidth hl') : hl'.stored = hl.stored :=
  flatMap_of_forall₂ (fun _ _ hxy => hxy.stored) hr.ranges

theorem Hostlist.Rewidth.wf {hl' : Hostlist} (hrw : hl.Rewidth hl') (hw : hl.Wf) : hl'.Wf := by
  refine ⟨fun y hy => ?_, ?_, ?_⟩
  · obtain ⟨x, hx, hxy⟩ := exists_of_forall₂ hrw.ranges hy
    exact hxy.wf (hw.ranges x hx)
  · rw [hrw.nranges, hw.nranges, hrw.ranges.length_eq]
  · rw [hrw.nhosts, hw.nhosts, hrw.names]

theorem Hostlist.Rewidth.below {hl' : Hostlist} (hrw : hl.Rewidth hl') {B : Nat}
    (hb : hl.Below B) : hl'.Below B := by
  intro y hy
  obtain ⟨x, hx, hxy⟩ := exists_of_forall₂ hrw.ranges hy
  rw [hxy.bounds.2]
  exact hb x hx

/-- `hostlist_find` returns the position of the first entry it sees, and prints
as before. -/
theorem hostlistFind_spec (hw : ∀ x ∈ hl.hr, x.Wf) (hn : hl.nranges = hl.hr.length) (h : CStr) :
    hl.Rewidth (hostlistFind hl h).2 ∧
      (hostlistFind hl h).1 = positionOf (hl.stored.findIdx? (known h)) := by
  have htake : hl.hr.take hl.nranges = hl.hr := by rw [hn, List.take_length]
  have hdrop : hl.hr.drop hl.nranges = [] := by rw [hn, List.drop_length]
  obtain ⟨hall, hpos⟩ := hostlistFindLoop_spec 0 hw h
  have h0 : Int32.ofNat 0 = 0 := rfl
  simp only [h0, Nat.zero_add, Option.map_id'] at hall hpos
  simp only [hostlistFind, htake, hdrop, List.append_nil]
  exact ⟨⟨hall, rfl, rfl⟩, hpos⟩

/-- Where the entry the search sees lies. -/
theorem known_chunk {k : Nat} (hfind : hl.stored.findIdx? (known h) = some k) :
    ∃ pre c post j, hl.hr = pre ++ c :: post ∧ k = (pre.flatMap Hostrange.names).length + j ∧
      c.names[j]? = some h ∧ c.Knows h := by
  obtain ⟨hlt, hknown, -⟩ := List.findIdx?_eq_some_iff_getElem.mp hfind
  obtain ⟨pre, c, post, j, hhr, hk, hj⟩ := exists_chunk hlt
  have hlen : (pre.flatMap Hostrange.stored).length = (pre.flatMap Hostrange.names).length := by
    simp [List.length_flatMap]
  have hget : hl.stored[k]? = c.stored[j]? := by
    rw [Hostlist.stored, hhr, hk, getElem?_chunk hj]
  rw [List.getElem?_eq_getElem hlt, List.getElem?_eq_getElem hj, Option.some.injEq] at hget
  rw [hget] at hknown
  simp only [Hostrange.stored, List.getElem_map, known, Bool.and_eq_true, decide_eq_true_eq] at hknown
  refine ⟨pre, c, post, j, hhr, by rw [hk, hlen], ?_, hknown.2⟩
  rw [List.getElem?_eq_getElem (by simpa using hj), hknown.1]

theorem known_getElem? {k : Nat} (hfind : hl.stored.findIdx? (known h) = some k) :
    hl.names[k]? = some h := by
  obtain ⟨pre, c, post, j, hhr, hk, hget, -⟩ := known_chunk hfind
  rw [Hostlist.names, hhr, hk, getElem?_chunk (List.getElem?_eq_some_iff.mp hget).1, hget]

/-- A range the search can stop at does not end at `ULONG_MAX`. -/
theorem known_range (hs : hl.Small) (hw : hl.Wf) {c : Hostrange} (hc : c ∈ hl.hr)
    (hk : c.Knows h) (hmem : h ∈ c.names) : c.hi.toNat < ULONG_MAX.toNat := by
  have hcw := hw.ranges c hc
  have hle := hcw.le
  have hlt := hs.range_lt hc
  have hM := MAX_HOST_SUFFIX_toNat
  have hU := ULONG_MAX_toNat
  obtain ⟨-, -, hlo⟩ := hostrangeHnWithin_found hcw hk hmem
  cases hsing : c.singlehost with
  | true =>
      rw [(hcw.single hsing).2]
      decide
  | false =>
      rw [Hostrange.names_block hsing, length_block] at hlt
      omega

/-- `hostlist_delete_host` takes off the first entry the search sees, and nothing
when it sees none. -/
theorem hostlistDeleteHost_spec (hw : hl.Wf) (hs : hl.Small) (h : CStr) :
    (hl.stored.findIdx? (known h) = none ∧ (hostlistDeleteHost hl h).1 = 0 ∧
        hl.Rewidth (hostlistDeleteHost hl h).2) ∨
      ∃ k, hl.stored.findIdx? (known h) = some k ∧ (hostlistDeleteHost hl h).1 = 1 ∧
        Removed hl (hl.names.eraseIdx k) (hostlistDeleteHost hl h).2 ∧
        (hostlistDeleteHost hl h).2.stored = hl.stored.eraseIdx k := by
  obtain ⟨hrw, hpos⟩ := hostlistFind_spec hw.ranges hw.nranges h
  unfold hostlistDeleteHost
  cases hfind : hl.stored.findIdx? (known h) with
  | none =>
      left
      have hneg : ¬ ((-1 : Int32) ≥ 0) := by decide
      simp only [hpos, hfind, positionOf, hneg, if_false, true_and]
      exact hrw
  | some k =>
      right
      have hlt := (List.getElem?_eq_some_iff.mp (known_getElem? hfind)).1
      have hsmall : hl.names.length < 2 ^ 31 := hs
      have hnonneg : Int32.ofNat k ≥ 0 := by
        rw [ge_iff_le, Int32.le_iff_toInt_le, Int32.toInt_ofNat_of_lt (by omega)]
        exact Int.natCast_nonneg k
      refine ⟨k, rfl, ?_⟩
      simp only [hpos, hfind, positionOf, hnonneg, if_true, true_and]
      -- the search leaves a list with the same names, of which position `k` is erased
      have hw' := hrw.wf hw
      have hs' : (hostlistFind hl h).2.Small := by
        rw [Hostlist.Small, hrw.names]
        exact hs
      have hfind' : (hostlistFind hl h).2.stored.findIdx? (known h) = some k := by
        rw [hrw.stored, hfind]
      obtain ⟨pre, c, post, j, hhr, hk, hget, hknows⟩ := known_chunk hfind'
      have hj := (List.getElem?_eq_some_iff.mp hget).1
      have hmax := known_range hs' hw' (by simp [hhr]) hknows (List.mem_of_getElem? hget)
      have hrem := hostlistDeleteNth_at hw' hs' hhr hj hmax
      have hstored := hostlistDeleteNth_stored hw' hs' hhr hj hmax
      rw [← hk, hrw.names] at hrem
      rw [← hk, hrw.stored] at hstored
      exact ⟨⟨hrem.wf, hrem.names, fun B hB => hrem.below B (hrw.below hB)⟩, hstored⟩

end Pdsh
