import Pdsh.Hostlist.Update

/-!
# Removing hosts

`hostlist_pop`, `hostlist_shift` and `hostlist_delete_nth` take one host off
the list. Each works on one range: it becomes smaller, is split in two, or is
dropped when nothing is left of it. `Removed` is what is common to the three:
the invariant and the bounds stay, and the names are what they were without
the one host.

The two that return the name format it into a buffer of
`hostrangePopSize` bytes, so the text is `Hostrange.cut` of the name.
-/

namespace Pdsh

open Lib Lib.Decimal Lib.Chunks

variable {hl hl' : Hostlist} {hr : Hostrange} {B : Nat}

/-! ## Ranges -/

/-- The text `hostrange_pop` and `hostrange_shift` return for a name. -/
def Hostrange.cut (hr : Hostrange) (name : CStr) : CStr :=
  if hr.singlehost then name else snprintf (hostrangePopSize hr) name

/-- The numbers of the range fit the buffers of `hostrange_pop` and
`hostrange_shift`. -/
def Hostrange.Fits (hr : Hostrange) : Prop := numDigits hr.hi.toNat ≤ hr.width + 15

theorem Hostrange.cut_eq (hf : hr.Fits) {name : CStr} (h : name ∈ hr.names) :
    hr.cut name = name := by
  unfold Hostrange.cut
  split
  · rfl
  · rename_i hs
    rw [Hostrange.names_block (by simpa using hs), mem_block] at h
    obtain ⟨i, hlo, hhi, rfl⟩ := h
    have hdig := numDigits_mono (show i ≤ hr.hi.toNat by omega)
    refine List.take_of_length_le ?_
    rw [List.length_append, length_pad]
    unfold Hostrange.Fits at hf
    unfold hostrangePopSize
    omega

/-- What is left of a range: nothing, or the other names. -/
structure Shrunk (hr : Hostrange) (rest : List CStr) (hr' : Hostrange) : Prop where
  empty : hostrangeEmpty hr' = true ↔ rest = []
  wf : rest ≠ [] → hr'.Wf
  names : rest ≠ [] → hr'.names = rest
  below : rest ≠ [] → hr'.hi.toNat ≤ hr.hi.toNat

theorem hostrangeEmpty_iff :
    hostrangeEmpty hr = true ↔ hr.hi.toNat < hr.lo.toNat ∨ hr.hi = ULONG_MAX := by
  simp [hostrangeEmpty, UInt64.lt_iff_toNat_lt]

theorem toNat_succ {n : UInt64} (h : n.toNat < ULONG_MAX.toNat) : (n + 1).toNat = n.toNat + 1 := by
  have hM := ULONG_MAX_toNat
  have h1 : (1 : UInt64).toNat = 1 := rfl
  rw [UInt64.toNat_add, h1, Nat.mod_eq_of_lt (by omega)]

theorem toNat_pred {n : UInt64} (h : 0 < n.toNat) : (n - 1).toNat = n.toNat - 1 := by
  have h1 : (1 : UInt64).toNat = 1 := rfl
  rw [UInt64.toNat_sub_of_le _ _ (UInt64.le_iff_toNat_le.mpr (by omega)), h1]

theorem ne_ulongMax_of_lt {n : UInt64} (h : n.toNat < ULONG_MAX.toNat) : n ≠ ULONG_MAX := by
  rintro rfl
  exact absurd h (Nat.lt_irrefl _)

/-- Advancing `lo` drops the first name. -/
theorem shrunk_lo (hw : hr.Wf) (hmax : hr.hi.toNat < ULONG_MAX.toNat) :
    Shrunk hr hr.names.tail { hr with lo := hr.lo + 1 } := by
  have hle := hw.le
  have hlo := toNat_succ (Nat.lt_of_le_of_lt hle hmax)
  have hne := ne_ulongMax_of_lt hmax
  cases hs : hr.singlehost with
  | true =>
      obtain ⟨h0, h0'⟩ := hw.single hs
      have htail : hr.names.tail = [] := by rw [Hostrange.names_single hs]; rfl
      rw [htail]
      refine ⟨?_, by simp, by simp, by simp⟩
      rw [hostrangeEmpty_iff]
      simp only [iff_true]
      left
      rw [hlo, h0, h0']
      decide
  | false =>
      have hlen : hr.hi.toNat + 1 - hr.lo.toNat = hr.hi.toNat - hr.lo.toNat + 1 := by omega
      have htail : hr.names.tail =
          block hr.pfx hr.width (hr.lo.toNat + 1) (hr.hi.toNat - hr.lo.toNat) := by
        rw [Hostrange.names_block hs, hlen, block_succ]
        rfl
      have hnil : hr.names.tail = [] ↔ hr.hi.toNat ≤ hr.lo.toNat := by
        rw [htail, ← List.length_eq_zero_iff, length_block]
        omega
      refine ⟨?_, fun h => ⟨?_, by simp⟩, fun h => ?_, fun _ => Nat.le_refl _⟩
      · rw [hostrangeEmpty_iff, hnil, hlo]
        simp only [hne, or_false]
        omega
      · have := mt hnil.mpr h
        simp only [hlo]
        omega
      · rw [Hostrange.names_block rfl, htail]
        simp only [hlo]
        congr 1
        omega

/-- Reducing `hi` drops the last name. -/
theorem shrunk_hi (hw : hr.Wf) (hmax : hr.hi.toNat < ULONG_MAX.toNat) (hs : hr.singlehost = false) :
    Shrunk hr hr.names.dropLast { hr with hi := hr.hi - 1 } := by
  have hle := hw.le
  have hlen : hr.hi.toNat + 1 - hr.lo.toNat = hr.hi.toNat - hr.lo.toNat + 1 := by omega
  have hdrop : hr.names.dropLast =
      block hr.pfx hr.width hr.lo.toNat (hr.hi.toNat - hr.lo.toNat) := by
    rw [Hostrange.names_block hs, hlen, block_snoc, List.dropLast_concat]
  have hnil : hr.names.dropLast = [] ↔ hr.hi.toNat ≤ hr.lo.toNat := by
    rw [hdrop, ← List.length_eq_zero_iff, length_block]
    omega
  by_cases h0 : hr.hi.toNat = 0
  · -- `hi` wraps to `ULONG_MAX`, the other value `hostrange_empty` knows
    have hhi : hr.hi = 0 := UInt64.toNat_inj.mp h0
    have hrest : hr.names.dropLast = [] := hnil.mpr (by omega)
    rw [hrest]
    refine ⟨?_, by simp, by simp, by simp⟩
    rw [hostrangeEmpty_iff]
    simp only [iff_true]
    right
    rw [hhi]
    decide
  · have hhi := toNat_pred (Nat.pos_of_ne_zero h0)
    have hne : hr.hi - 1 ≠ ULONG_MAX := ne_ulongMax_of_lt (by omega)
    refine ⟨?_, fun h => ⟨?_, by simp [hs]⟩, fun h => ?_, fun _ => by simp only [hhi]; omega⟩
    · rw [hostrangeEmpty_iff, hnil, hhi]
      simp only [hne, or_false]
      omega
    · have := mt hnil.mpr h
      simp only [hhi]
      omega
    · rw [Hostrange.names_block (by exact hs), hdrop]
      simp only [hhi]
      congr 1
      omega

theorem Hostrange.names_eq_cons (hw : hr.Wf) :
    hr.names = (hr.pfx ++ if hr.singlehost then [] else pad hr.width hr.lo.toNat) ::
      hr.names.tail := by
  have hle := hw.le
  unfold Hostrange.names
  split
  · simp
  · have hlen : hr.hi.toNat + 1 - hr.lo.toNat = hr.hi.toNat - hr.lo.toNat + 1 := by omega
    rw [hlen, block_succ]
    rfl

theorem Hostrange.names_eq_snoc (hw : hr.Wf) :
    hr.names = hr.names.dropLast ++
      [hr.pfx ++ if hr.singlehost then [] else pad hr.width hr.hi.toNat] := by
  have hle := hw.le
  unfold Hostrange.names
  split
  · simp
  · have hlen : hr.hi.toNat + 1 - hr.lo.toNat = hr.hi.toNat - hr.lo.toNat + 1 := by omega
    have hsum : hr.lo.toNat + (hr.hi.toNat - hr.lo.toNat) = hr.hi.toNat := by omega
    rw [hlen, block_snoc, List.dropLast_concat, hsum]

theorem hostrangeCount_pos (hw : hr.Wf) (hmax : hr.hi.toNat < ULONG_MAX.toNat) :
    hostrangeCount hr > 0 := by
  have hpos := hw.length_pos
  rw [gt_iff_lt, UInt64.lt_iff_toNat_lt, hostrangeCount_toNat hw (hw.length_lt hmax)]
  exact hpos

/-- `hostrange_shift` returns the first name and keeps the others. -/
theorem hostrangeShift_spec (hw : hr.Wf) (hmax : hr.hi.toNat < ULONG_MAX.toNat) :
    ∃ name, hr.names = name :: hr.names.tail ∧ (hostrangeShift hr).1 = some (hr.cut name) ∧
      Shrunk hr hr.names.tail (hostrangeShift hr).2 := by
  refine ⟨_, Hostrange.names_eq_cons hw, ?_⟩
  have hlo := shrunk_lo hw hmax
  have hpos := hostrangeCount_pos hw hmax
  unfold hostrangeShift Hostrange.cut
  split
  · exact ⟨by simp_all, hlo⟩
  · exact ⟨by simp_all, by simpa [hpos] using hlo⟩

/-- `hostrange_pop` returns the last name and keeps the others. -/
theorem hostrangePop_spec (hw : hr.Wf) (hmax : hr.hi.toNat < ULONG_MAX.toNat) :
    ∃ name, hr.names = hr.names.dropLast ++ [name] ∧ (hostrangePop hr).1 = some (hr.cut name) ∧
      Shrunk hr hr.names.dropLast (hostrangePop hr).2 := by
  refine ⟨_, Hostrange.names_eq_snoc hw, ?_⟩
  have hpos := hostrangeCount_pos hw hmax
  unfold hostrangePop Hostrange.cut
  split
  · have hlo := shrunk_lo hw hmax
    rename_i hs
    have hsingle := Hostrange.names_single hs
    rw [hsingle] at hlo ⊢
    exact ⟨by simp_all, hlo⟩
  · have hhi := shrunk_hi hw hmax (by simp_all)
    exact ⟨by simp_all, by simpa [hpos] using hhi⟩

/-! ## Lists -/

/-- A list that lost one host: the invariant, the other names, and no larger
number than before. -/
structure Removed (hl : Hostlist) (names : List CStr) (hl' : Hostlist) : Prop where
  wf : hl'.Wf
  names : hl'.names = names
  below : ∀ B, hl.Below B → hl'.Below B

/-- Replacing one range by ranges that hold all its names but one. -/
theorem removed_replace (pre post : List Hostrange) {mid : List Hostrange} {c : Hostrange} (hw : hl.Wf)
    (hhr : hl.hr = pre ++ c :: post) (hmid : ∀ x ∈ mid, x.Wf ∧ x.hi.toNat ≤ c.hi.toNat)
    (hcount : (mid.flatMap Hostrange.names).length + 1 = c.names.length)
    (hhr' : hl'.hr = pre ++ mid ++ post) (hn : hl'.nranges = (pre ++ mid ++ post).length)
    (hc : hl'.nhosts = hl.nhosts - 1) :
    Removed hl (pre.flatMap Hostrange.names ++ (mid.flatMap Hostrange.names ++
      post.flatMap Hostrange.names)) hl' := by
  have hnames : hl'.names = pre.flatMap Hostrange.names ++ (mid.flatMap Hostrange.names ++
      post.flatMap Hostrange.names) := by
    simp [Hostlist.names, hhr']
  have hlen : hl.names.length = hl'.names.length + 1 := by
    rw [hnames, Hostlist.names, hhr]
    simp only [List.flatMap_append, List.flatMap_cons, List.length_append, ← hcount]
    omega
  refine ⟨⟨?_, by rw [hn, hhr'], ?_⟩, hnames, ?_⟩
  · intro x hx
    rw [hhr', List.mem_append, List.mem_append] at hx
    rcases hx with (hx | hx) | hx
    · exact hw.ranges x (by simp [hhr, hx])
    · exact (hmid x hx).1
    · exact hw.ranges x (by simp [hhr, hx])
  · have hone : Int32.ofNat 1 = 1 := rfl
    rw [hc, hw.nhosts, hlen, ← int32_ofNat_add, hone, Int32.add_sub_cancel]
  · intro B hB x hx
    rw [hhr', List.mem_append, List.mem_append] at hx
    rcases hx with (hx | hx) | hx
    · exact hB x (by simp [hhr, hx])
    · exact Nat.lt_of_le_of_lt (hmid x hx).2 (hB c (by simp [hhr]))
    · exact hB x (by simp [hhr, hx])

theorem nhosts_pos_iff (hw : hl.Wf) (hs : hl.Small) : hl.nhosts > 0 ↔ hl.names ≠ [] := by
  have hn := hw.nhosts_toInt hs
  have h0 : (0 : Int32).toInt = 0 := rfl
  rw [gt_iff_lt, Int32.lt_iff_toInt_lt, hn, h0, ← List.length_pos_iff]
  omega

/-- The ranges that are left of a range that lost a host. -/
def keepRange (hr : Hostrange) : List Hostrange := if hostrangeEmpty hr then [] else [hr]

theorem Shrunk.keep {rest : List CStr} {hr' : Hostrange} (h : Shrunk hr rest hr') :
    (keepRange hr').flatMap Hostrange.names = rest ∧
      ∀ x ∈ keepRange hr', x.Wf ∧ x.hi.toNat ≤ hr.hi.toNat := by
  unfold keepRange
  by_cases hrest : rest = []
  · simp [h.empty.mpr hrest, hrest]
  · rw [if_neg (mt h.empty.mp hrest)]
    simp [h.names hrest, h.wf hrest, h.below hrest]

/-- `hostlist_shift` on a list that is not empty. -/
theorem hostlistShift_cons {c : Hostrange} {post : List Hostrange} (hw : hl.Wf)
    (hpos : hl.nhosts > 0) (hhr : hl.hr = c :: post) :
    hostlistShift hl = ((hostrangeShift c).1,
      ⟨keepRange (hostrangeShift c).2 ++ post, (keepRange (hostrangeShift c).2 ++ post).length,
        hl.nhosts - 1⟩) := by
  have hn : hl.nranges = post.length + 1 := by simp [hw.nranges, hhr]
  simp only [hostlistShift, hpos, if_true, hhr, List.length_cons, Nat.zero_lt_succ,
    List.getElem?_eq_getElem, List.getElem_cons_zero, keepRange]
  split <;> simp [hostlistDeleteRange, storeRange, hn]

/-- `hostlist_pop` on a list that is not empty. -/
theorem hostlistPop_snoc {c : Hostrange} {pre : List Hostrange} (hw : hl.Wf)
    (hpos : hl.nhosts > 0) (hhr : hl.hr = pre ++ [c]) :
    hostlistPop hl = ((hostrangePop c).1,
      ⟨pre ++ keepRange (hostrangePop c).2, (pre ++ keepRange (hostrangePop c).2).length,
        hl.nhosts - 1⟩) := by
  have hn : hl.nranges - 1 = pre.length := by simp [hw.nranges, hhr]
  have hn' : hl.nranges = pre.length + 1 := by simp [hw.nranges, hhr]
  simp only [hostlistPop, hpos, if_true, hhr, hn, List.getElem?_concat_length, keepRange]
  split
  · simp [List.eraseIdx_append_of_length_le]
  · simp [storeRange_mid, hn']

/-- A shift takes the first name of a list while its counter is positive. -/
theorem hostlistShift_pos (hw : hl.Wf) (hpos : hl.nhosts > 0) (hb : hl.Below ULONG_MAX.toNat) :
    ∃ c post name, hl.hr = c :: post ∧ hl.names = name :: hl.names.tail ∧ name ∈ c.names ∧
      (hostlistShift hl).1 = some (c.cut name) ∧
      Removed hl hl.names.tail (hostlistShift hl).2 := by
  have hne : hl.names ≠ [] := by
    intro hnil
    rw [hw.nhosts, hnil] at hpos
    exact absurd hpos (by decide)
  obtain ⟨c, post, hhr⟩ := List.exists_cons_of_ne_nil (mt hw.names_eq_nil_iff.mpr hne)
  have hc : c ∈ hl.hr := by simp [hhr]
  obtain ⟨name, hcons, htext, hshrunk⟩ := hostrangeShift_spec (hw.ranges c hc) (hb c hc)
  obtain ⟨hkeep, hmid⟩ := hshrunk.keep
  have hnames : hl.names = name :: (c.names.tail ++ post.flatMap Hostrange.names) := by
    rw [Hostlist.names, hhr, List.flatMap_cons, hcons]
    rfl
  have hlen := congrArg List.length hcons
  have heq := hostlistShift_cons hw hpos hhr
  refine ⟨c, post, name, hhr, by rw [hnames]; rfl, by rw [hcons]; simp, by rw [heq]; exact htext, ?_⟩
  rw [hnames, List.tail_cons, heq, ← hkeep]
  exact removed_replace [] post hw hhr hmid (by rw [hkeep, hlen]; rfl) rfl rfl rfl

theorem hostlistShift_spec (hw : hl.Wf) (hs : hl.Small) (hb : hl.Below ULONG_MAX.toNat) :
    (hl.names = [] ∧ hostlistShift hl = (none, hl)) ∨
    ∃ c post name, hl.hr = c :: post ∧ hl.names = name :: hl.names.tail ∧ name ∈ c.names ∧
      (hostlistShift hl).1 = some (c.cut name) ∧
      Removed hl hl.names.tail (hostlistShift hl).2 := by
  have hiff := nhosts_pos_iff hw hs
  by_cases hnil : hl.names = []
  · exact .inl ⟨hnil, by simp [hostlistShift, hiff, hnil]⟩
  · exact .inr (hostlistShift_pos hw (hiff.mpr hnil) hb)

theorem hostlistPop_spec (hw : hl.Wf) (hs : hl.Small) (hb : hl.Below ULONG_MAX.toNat) :
    (hl.names = [] ∧ hostlistPop hl = (none, hl)) ∨
    ∃ c pre name, hl.hr = pre ++ [c] ∧ hl.names = hl.names.dropLast ++ [name] ∧ name ∈ c.names ∧
      (hostlistPop hl).1 = some (c.cut name) ∧
      Removed hl hl.names.dropLast (hostlistPop hl).2 := by
  have hiff := nhosts_pos_iff hw hs
  by_cases hnil : hl.names = []
  · exact .inl ⟨hnil, by simp [hostlistPop, hiff, hnil]⟩
  · have hne : hl.hr ≠ [] := mt hw.names_eq_nil_iff.mpr hnil
    obtain ⟨pre, c, hhr⟩ : ∃ pre c, hl.hr = pre ++ [c] :=
      ⟨hl.hr.dropLast, hl.hr.getLast hne, (List.dropLast_append_getLast hne).symm⟩
    have hc : c ∈ hl.hr := by simp [hhr]
    obtain ⟨name, hsnoc, htext, hshrunk⟩ := hostrangePop_spec (hw.ranges c hc) (hb c hc)
    obtain ⟨hkeep, hmid⟩ := hshrunk.keep
    have hnames : hl.names = pre.flatMap Hostrange.names ++ c.names.dropLast ++ [name] := by
      rw [Hostlist.names, hhr, List.flatMap_append, List.flatMap_singleton, hsnoc,
        List.append_assoc, List.dropLast_concat]
    have hlen := congrArg List.length hsnoc
    have heq := hostlistPop_snoc hw (hiff.mpr hnil) hhr
    refine .inr ⟨c, pre, name, hhr, ?_, ?_, by rw [heq]; exact htext, ?_⟩
    · rw [hnames, List.dropLast_concat]
    · rw [hsnoc]
      simp
    · have hrem : Removed hl _ (hostlistPop hl).2 := removed_replace _ [] hw hhr hmid
        (by rw [hkeep, hlen]; simp) (by rw [heq]; simp) (by rw [heq]; simp) (by rw [heq])
      rw [hnames, List.dropLast_concat]
      simpa [hkeep] using hrem

/-! ## `hostlist_delete_nth` -/

/-- The search of `hostlist_delete_nth` finds the range that holds position `n`. -/
theorem hostlistSeek_spec (pre post : List Hostrange) {c : Hostrange} (i count : Nat) {k : Nat}
    (hw : ∀ x ∈ pre ++ c :: post, x.Wf)
    (hs : count + ((pre ++ c :: post).flatMap Hostrange.names).length < 2 ^ 31)
    (hk : k < c.names.length) :
    hostlistSeek (Int32.ofNat (count + (pre.flatMap Hostrange.names).length + k)) (pre ++ c :: post)
      i (Int32.ofNat count) =
      some (i + pre.length, c, Int32.ofNat (count + (pre.flatMap Hostrange.names).length)) := by
  have hone : (1 : Int32).toInt = 1 := rfl
  induction pre generalizing i count with
  | nil =>
      simp only [List.nil_append, List.flatMap_cons, List.length_append, List.flatMap_nil,
        List.length_nil, Nat.add_zero] at hs ⊢
      have hlen := intOfUlong_count (hw c (by simp))
      rw [hostlistSeek]
      simp only [hlen]
      have hsub : (Int32.ofNat c.names.length - 1).toInt = c.names.length - 1 := by
        rw [int_sub_toInt] <;> rw [Int32.toInt_ofNat_of_lt (by omega), hone] <;> omega
      have hadd : (Int32.ofNat c.names.length - 1 + Int32.ofNat count).toInt =
          c.names.length - 1 + count := by
        rw [int_add_toInt] <;> rw [hsub, Int32.toInt_ofNat_of_lt (by omega)] <;> omega
      rw [if_pos]
      rw [Int32.le_iff_toInt_le, hadd, Int32.toInt_ofNat_of_lt (by omega)]
      omega
  | cons x pre ih =>
      have hx := hw x (by simp)
      have hpos := hx.length_pos
      simp only [List.cons_append, List.flatMap_cons, List.length_append] at hs ⊢
      have hlen := intOfUlong_count hx
      rw [hostlistSeek]
      simp only [hlen]
      have hsub : (Int32.ofNat x.names.length - 1).toInt = x.names.length - 1 := by
        rw [int_sub_toInt] <;> rw [Int32.toInt_ofNat_of_lt (by omega), hone] <;> omega
      have hadd : (Int32.ofNat x.names.length - 1 + Int32.ofNat count).toInt =
          x.names.length - 1 + count := by
        rw [int_add_toInt] <;> rw [hsub, Int32.toInt_ofNat_of_lt (by omega)] <;> omega
      -- position `n` is behind this range, whose hosts are counted
      rw [if_neg, int32_ofNat_add]
      · have hrest := ih (i + 1) (count + x.names.length)
          (fun y hy => hw y (List.mem_cons_of_mem _ hy)) (by omega)
        rw [List.length_cons, ← Nat.add_assoc count, hrest, Nat.add_assoc i, Nat.add_comm 1]
      · rw [Int32.le_iff_toInt_le, hadd]
        simp only [List.flatMap_append, List.flatMap_cons, List.length_append] at hs
        rw [Int32.toInt_ofNat_of_lt (by omega)]
        omega

/-- The number `hostlist_delete_nth` computes for offset `k` of a range. -/
theorem seekNum_toNat {lo : UInt64} {count k : Nat} (hs : count + k < 2 ^ 31)
    (hlo : lo.toNat + k < 2 ^ 64) :
    (lo + ulongOfInt (Int32.ofNat (count + k)) - ulongOfInt (Int32.ofNat count)).toNat =
      lo.toNat + k := by
  have hcast : ∀ a : Nat, a < 2 ^ 31 → (ulongOfInt (Int32.ofNat a)).toNat = a := by
    intro a ha
    have hint := Int32.toInt_ofNat_of_lt ha
    rw [ulongOfInt_toNat (by omega), hint, Int.toNat_natCast]
  rw [UInt64.toNat_sub, UInt64.toNat_add, hcast _ hs, hcast _ (by omega)]
  omega

/-- The two ranges that are left of a range without one of its numbers. -/
theorem hostrangeDeleteHost_spec {k : Nat} (hw : hr.Wf) (hmax : hr.hi.toNat < ULONG_MAX.toNat)
    (hs : hr.singlehost = false) (hk : hr.lo.toNat + k ≤ hr.hi.toNat) {n : UInt64}
    (hn : n.toNat = hr.lo.toNat + k) :
    ((hostrangeDeleteHost hr n).2 = none ∧
        Shrunk hr (hr.names.eraseIdx k) (hostrangeDeleteHost hr n).1) ∨
      ∃ new, (hostrangeDeleteHost hr n).2 = some new ∧
        (hostrangeDeleteHost hr n).1.names ++ new.names = hr.names.eraseIdx k ∧
        ∀ x ∈ [(hostrangeDeleteHost hr n).1, new], x.Wf ∧ x.hi.toNat ≤ hr.hi.toNat := by
  have hle := hw.le
  have hlen : hr.names.length = hr.hi.toNat + 1 - hr.lo.toNat := by
    rw [Hostrange.names_block hs, length_block]
  by_cases hlo : n = hr.lo
  · -- the first number
    left
    have hk0 : k = 0 := by
      rw [hlo] at hn
      omega
    simp only [hostrangeDeleteHost, hlo, if_true, true_and]
    rw [hk0, List.eraseIdx_zero]
    exact shrunk_lo hw hmax
  · have hlo' : n.toNat ≠ hr.lo.toNat := fun h => hlo (UInt64.toNat_inj.mp h)
    by_cases hhi : n = hr.hi
    · -- the last one
      left
      have hk1 : k = hr.names.length - 1 := by
        rw [hhi] at hn
        omega
      simp only [hostrangeDeleteHost, hhi, if_true]
      have hlo'' : hr.hi ≠ hr.lo := by rw [← hhi]; exact hlo
      simp only [hlo'', if_false, true_and]
      rw [hk1, List.eraseIdx_length_sub_one]
      exact shrunk_hi hw hmax hs
    · -- one between them cuts the range in two
      have hhi' : n.toNat ≠ hr.hi.toNat := fun h => hhi (UInt64.toNat_inj.mp h)
      right
      have hpred : (n - 1).toNat = n.toNat - 1 := toNat_pred (by omega)
      have hsucc : (n + 1).toNat = n.toNat + 1 := toNat_succ (by omega)
      have hcopy : hostrangeCopy hr = hr := by
        simp only [hostrangeCopy, hs, hostrangeCreate, Bool.false_eq_true, if_false]
        rw [← hs]
      simp only [hostrangeDeleteHost, hlo, hhi, if_false, hcopy, Option.some.injEq,
        exists_eq_left']
      refine ⟨?_, ?_⟩
      · rw [Hostrange.names_block (by exact hs), Hostrange.names_block (by exact hs),
          Hostrange.names_block hs, eraseIdx_block (by omega)]
        simp only [hpred, hsucc, hn]
        congr 2 <;> omega
      · intro x hx
        simp only [List.mem_cons, List.not_mem_nil, or_false] at hx
        rcases hx with rfl | rfl
        · exact ⟨⟨by simp only [hpred]; omega, by simp [hs]⟩, by simp only [hpred]; omega⟩
        · exact ⟨⟨by simp only [hsucc]; omega, by simp [hs]⟩, Nat.le_refl _⟩

/-- The ranges that are left of a range without the host `num`. -/
def deletedRanges (hr : Hostrange) (num : UInt64) : List Hostrange :=
  if hr.singlehost then []
  else
    match (hostrangeDeleteHost hr num).2 with
    | some new => [(hostrangeDeleteHost hr num).1, hostrangeCopy new]
    | none => keepRange (hostrangeDeleteHost hr num).1

theorem deletedRanges_spec {k : Nat} {num : UInt64} (hw : hr.Wf)
    (hmax : hr.hi.toNat < ULONG_MAX.toNat) (hk : k < hr.names.length)
    (hnum : hr.singlehost = false → num.toNat = hr.lo.toNat + k) :
    (deletedRanges hr num).flatMap Hostrange.names = hr.names.eraseIdx k ∧
      ∀ x ∈ deletedRanges hr num, x.Wf ∧ x.hi.toNat ≤ hr.hi.toNat := by
  unfold deletedRanges
  cases hs : hr.singlehost with
  | true =>
      rw [Hostrange.names_single hs] at hk ⊢
      have hk0 : k = 0 := by simpa using hk
      simp [hk0]
  | false =>
      have hlen : hr.names.length = hr.hi.toNat + 1 - hr.lo.toNat := by
        rw [Hostrange.names_block hs, length_block]
      simp only [Bool.false_eq_true, if_false]
      rcases hostrangeDeleteHost_spec hw hmax hs (by omega) (hnum hs) with
        ⟨hnone, hshrunk⟩ | ⟨new, hsome, hcat, hmid⟩
      · simp only [hnone]
        exact hshrunk.keep
      · have hnew := hmid new (by simp)
        simp only [hsome, List.flatMap_cons, List.flatMap_nil, List.append_nil,
          hostrangeCopy_names, hcat, true_and]
        intro x hx
        rcases List.mem_cons.mp hx with rfl | hx
        · exact hmid _ (by simp)
        · rw [List.mem_singleton.mp hx, (hostrangeCopy_bounds hnew.1).2]
          exact ⟨hnew.1.copy, hnew.2⟩

theorem insertIdx_mid {pre post : List Hostrange} {x y : Hostrange} :
    (pre ++ x :: post).insertIdx (pre.length + 1) y = pre ++ x :: y :: post := by
  induction pre with
  | nil => rfl
  | cons z pre ih =>
      rw [List.cons_append, List.length_cons, List.insertIdx_succ_cons, ih]
      rfl

/-- `hostlist_delete_nth` puts what is left of a range in its place. -/
theorem hostlistDeleteNum_eq {pre post : List Hostrange} {c : Hostrange} {num : UInt64} (hw : hl.Wf)
    (hhr : hl.hr = pre ++ c :: post) :
    hostlistDeleteNum hl pre.length c num =
      ⟨pre ++ deletedRanges c num ++ post, (pre ++ deletedRanges c num ++ post).length,
        hl.nhosts⟩ := by
  have hn : hl.nranges = (pre ++ c :: post).length := by rw [hw.nranges, hhr]
  unfold hostlistDeleteNum deletedRanges
  cases hs : c.singlehost with
  | true => simp [hostlistDeleteRange, hhr, hn, List.eraseIdx_append_of_length_le]
  | false =>
      simp only [hhr, storeRange_mid, Bool.false_eq_true, if_false]
      cases hnew : (hostrangeDeleteHost c num).2 with
      | some new =>
          simp [hostlistInsertRange, hn, insertIdx_mid, Nat.add_assoc]
      | none =>
          dsimp only [keepRange]
          split
          · simp [hostlistDeleteRange, hn, List.eraseIdx_append_of_length_le]
          · simp [hn]

/-- `hostlist_delete_nth` at offset `k` of a range. -/
theorem hostlistDeleteNth_eq {pre post : List Hostrange} {c : Hostrange} {k : Nat} (hw : hl.Wf)
    (hs : hl.Small) (hhr : hl.hr = pre ++ c :: post) (hk : k < c.names.length) :
    ∃ num : UInt64, (c.singlehost = false → num.toNat = c.lo.toNat + k) ∧
      hostlistDeleteNth hl (Int32.ofNat ((pre.flatMap Hostrange.names).length + k)) =
        ⟨pre ++ deletedRanges c num ++ post, (pre ++ deletedRanges c num ++ post).length,
          hl.nhosts - 1⟩ := by
  have htotal : ((pre ++ c :: post).flatMap Hostrange.names).length < 2 ^ 31 := by
    rw [← hhr]
    exact hs
  have hseek := hostlistSeek_spec pre post 0 0
    (fun x hx => hw.ranges x (by rw [hhr]; exact hx)) (by omega) hk
  have htake : hl.hr.take hl.nranges = pre ++ c :: post := by
    rw [hw.nranges, List.take_length, hhr]
  have h0 : Int32.ofNat 0 = 0 := rfl
  simp only [Nat.zero_add, h0] at hseek
  simp only [hostlistDeleteNth, htake, hseek, hostlistDeleteNum_eq hw hhr]
  refine ⟨_, fun hsing => ?_, rfl⟩
  have hclen : c.names.length = c.hi.toNat + 1 - c.lo.toNat := by
    rw [Hostrange.names_block hsing, length_block]
  have hlt := c.hi.toNat_lt
  simp only [List.flatMap_append, List.flatMap_cons, List.length_append] at htotal
  exact seekNum_toNat (by omega) (by omega)

/-- `hostlist_delete_nth` erases a position of the names, at any offset of a
range that does not end at `ULONG_MAX`. -/
theorem hostlistDeleteNth_at {pre post : List Hostrange} {c : Hostrange} {k : Nat} (hw : hl.Wf)
    (hs : hl.Small) (hhr : hl.hr = pre ++ c :: post) (hk : k < c.names.length)
    (hmax : c.hi.toNat < ULONG_MAX.toNat) :
    Removed hl (hl.names.eraseIdx ((pre.flatMap Hostrange.names).length + k))
      (hostlistDeleteNth hl (Int32.ofNat ((pre.flatMap Hostrange.names).length + k))) := by
  obtain ⟨num, hnum, heq⟩ := hostlistDeleteNth_eq hw hs hhr hk
  obtain ⟨hmidnames, hmid⟩ := deletedRanges_spec (hw.ranges c (by simp [hhr])) hmax hk hnum
  have herase := List.length_eraseIdx_of_lt hk
  rw [heq, Hostlist.names, hhr, eraseIdx_chunk hk, ← hmidnames]
  exact removed_replace pre post hw hhr hmid (by rw [hmidnames, herase]; omega) rfl rfl rfl

/-- `hostlist_delete_nth` erases position `n` of the names. -/
theorem hostlistDeleteNth_spec {n : Nat} (hw : hl.Wf) (hs : hl.Small)
    (hb : hl.Below ULONG_MAX.toNat) (hn : n < hl.names.length) :
    Removed hl (hl.names.eraseIdx n) (hostlistDeleteNth hl (Int32.ofNat n)) := by
  obtain ⟨pre, c, post, k, hhr, rfl, hk⟩ := exists_chunk hn
  exact hostlistDeleteNth_at hw hs hhr hk (hb c (by simp [hhr]))

/-! ## The way hosts are stored -/

/-- What is left of a range is stored as the range was. -/
theorem deletedRanges_singlehost {num : UInt64} {x : Hostrange} (hx : x ∈ deletedRanges hr num) :
    x.singlehost = hr.singlehost := by
  unfold deletedRanges at hx
  split at hx
  · simp at hx
  · have hfst : (hostrangeDeleteHost hr num).1.singlehost = hr.singlehost := by
      unfold hostrangeDeleteHost
      split
      · rfl
      · split <;> rfl
    split at hx
    · rename_i new hnew
      rcases List.mem_cons.mp hx with rfl | hx
      · exact hfst
      · rw [List.mem_singleton.mp hx, hostrangeCopy_singlehost]
        unfold hostrangeDeleteHost at hnew
        split at hnew
        · cases hnew
        · split at hnew
          · cases hnew
          · cases hnew
            exact hostrangeCopy_singlehost hr
    · unfold keepRange at hx
      split at hx
      · simp at hx
      · rw [List.mem_singleton.mp hx]
        exact hfst

theorem stored_of_singlehost {l : List Hostrange} {b : Bool} (h : ∀ x ∈ l, x.singlehost = b) :
    l.flatMap Hostrange.stored = (l.flatMap Hostrange.names).map (b, ·) := by
  induction l with
  | nil => rfl
  | cons x l ih =>
      rw [List.flatMap_cons, List.flatMap_cons, List.map_append,
        ih fun y hy => h y (List.mem_cons_of_mem _ hy), Hostrange.stored, h x (by simp)]

/-- `hostlist_delete_nth` moves no other host from one way of storing to another. -/
theorem hostlistDeleteNth_stored {pre post : List Hostrange} {c : Hostrange} {k : Nat} (hw : hl.Wf)
    (hs : hl.Small) (hhr : hl.hr = pre ++ c :: post) (hk : k < c.names.length)
    (hmax : c.hi.toNat < ULONG_MAX.toNat) :
    (hostlistDeleteNth hl (Int32.ofNat ((pre.flatMap Hostrange.names).length + k))).stored =
      hl.stored.eraseIdx ((pre.flatMap Hostrange.names).length + k) := by
  obtain ⟨num, hnum, heq⟩ := hostlistDeleteNth_eq hw hs hhr hk
  obtain ⟨hmidnames, -⟩ := deletedRanges_spec (hw.ranges c (by simp [hhr])) hmax hk hnum
  have hpre : (pre.flatMap Hostrange.names).length = (pre.flatMap Hostrange.stored).length := by
    simp [List.length_flatMap]
  rw [heq, Hostlist.stored, Hostlist.stored, hhr, hpre, eraseIdx_chunk (by simpa using hk),
    List.flatMap_append, List.flatMap_append, List.append_assoc,
    stored_of_singlehost fun x hx => deletedRanges_singlehost hx, hmidnames, Hostrange.stored,
    List.eraseIdx_map]

/-! ## Lists of small numbers -/

/-- The invariant of a list whose numbers are below `2^32` and that has fewer than
`2^31` hosts: nothing wraps and every text fits. -/
structure Hostlist.Good (hl : Hostlist) : Prop where
  wf : hl.Wf
  below : hl.Below (2 ^ 32)
  small : hl.Small

theorem pow32_le : 2 ^ 32 ≤ ULONG_MAX.toNat := by
  rw [ULONG_MAX_toNat]
  decide

/-- Numbers of up to 15 digits fit behind any prefix. -/
theorem Hostlist.Below.fits {hl : Hostlist} (h : hl.Below (10 ^ 15)) : ∀ hr ∈ hl.hr, hr.Fits := by
  intro hr hmem
  have hdig : numDigits hr.hi.toNat ≤ 15 := (numDigits_le_iff (by decide)).mpr (h hr hmem)
  exact Nat.le_trans hdig (Nat.le_add_left _ _)

theorem Hostlist.Good.fits {hl : Hostlist} (h : hl.Good) : ∀ hr ∈ hl.hr, hr.Fits :=
  (h.below.mono (by decide)).fits

theorem Appended.good {hl hl' : Hostlist} {names : List CStr} (h : Appended (2 ^ 32) hl names hl')
    (hs : (hl.names ++ names).length < 2 ^ 31) : hl'.Good :=
  ⟨h.wf, h.below, by rw [Hostlist.Small, h.names]; exact hs⟩

theorem Removed.good {hl hl' : Hostlist} {names : List CStr} (hg : hl.Good)
    (h : Removed hl names hl') (hs : names.length < 2 ^ 31) : hl'.Good :=
  ⟨h.wf, h.below _ hg.below, by rw [Hostlist.Small, h.names]; exact hs⟩

/-- The name popped off such a list is its last one. -/
theorem Hostlist.Good.pop (hg : hl.Good) :
    (hostlistPop hl).1 = hl.names.getLast? ∧
      Removed hl hl.names.dropLast (hostlistPop hl).2 := by
  rcases hostlistPop_spec hg.wf hg.small (hg.below.mono pow32_le) with
    ⟨hnil, heq⟩ | ⟨c, pre, name, hhr, hsnoc, hmem, htext, hrem⟩
  · rw [heq, hnil]
    exact ⟨rfl, hg.wf, hnil, fun _ hB => hB⟩
  · refine ⟨?_, hrem⟩
    rw [htext, c.cut_eq (hg.fits c (by simp [hhr])) hmem, hsnoc, List.getLast?_concat]

/-- The name shifted off a list is its first one when the numbers fit the buffer. -/
theorem hostlistShift_fits (hw : hl.Wf) (hs : hl.Small) (hb : hl.Below ULONG_MAX.toNat)
    (hf : ∀ hr ∈ hl.hr, hr.Fits) :
    (hostlistShift hl).1 = hl.names.head? ∧ Removed hl hl.names.tail (hostlistShift hl).2 := by
  rcases hostlistShift_spec hw hs hb with
    ⟨hnil, heq⟩ | ⟨c, post, name, hhr, hcons, hmem, htext, hrem⟩
  · rw [heq, hnil]
    exact ⟨rfl, hw, hnil, fun _ hB => hB⟩
  · refine ⟨?_, hrem⟩
    rw [htext, c.cut_eq (hf c (by simp [hhr])) hmem, hcons, List.head?_cons]

theorem Hostlist.Good.shift (hg : hl.Good) :
    (hostlistShift hl).1 = hl.names.head? ∧ Removed hl hl.names.tail (hostlistShift hl).2 :=
  hostlistShift_fits hg.wf hg.small (hg.below.mono pow32_le) hg.fits

end Pdsh
