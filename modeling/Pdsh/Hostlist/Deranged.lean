import Pdsh.Hostlist.Printed
import Pdsh.Hostlist.Remove

/-!
# Every host by itself

The text `hostlist_deranged_string` prints when it does not truncate: all names,
with commas between them. Each range puts its own names into the buffer, and the
loop over the ranges overwrites the terminator of the last one with a comma.

A result below the size of the buffer also says something about the list: every
range of numbers it went through has `lo <= hi < ULONG_MAX`, since the loop over
one range writes nothing for the first kind of exception and never stops before
the buffer is full for the second.
-/

namespace Pdsh

open Lib Lib.Chunks Lib.Decimal Lib.Memory

variable {hl : Hostlist} {hr : Hostrange} {m m' : Mem} {off base n len len' : Nat}

/-- What `hostlist_deranged_string` prints. -/
def Hostlist.derangedText (hl : Hostlist) : CStr := List.intercalate [','] hl.names

/-- A range of numbers has some, and not the last `unsigned long`. -/
def Hostrange.Ordered (hr : Hostrange) : Prop :=
  hr.singlehost = false → hr.lo.toNat ≤ hr.hi.toNat ∧ hr.hi.toNat < ULONG_MAX.toNat

/-- Names with a comma behind each. -/
def listed (names : List CStr) : CStr := names.flatMap fun name => name ++ [',']

theorem listed_cons (name : CStr) (names : List CStr) :
    listed (name :: names) = (name ++ [',']) ++ listed names := by
  simp [listed]

theorem listed_append (a b : List CStr) : listed (a ++ b) = listed a ++ listed b := by
  simp [listed]

/-! ## One range -/

/-- The loop over the numbers of a range, when it was not cut short. -/
theorem toStringLoop_prints {fuel : Nat} {i : UInt64} (hfuel : n < len + fuel) (hlen : len ≤ n)
    (h : toStringLoop hr off n fuel i m len = (m', some len')) :
    hr.hi.toNat < ULONG_MAX.toNat ∧ len' ≤ n ∧
      Prints m (off + len)
        (listed (block hr.pfx hr.width i.toNat (hr.hi.toNat + 1 - i.toNat))) m' ∧
      len' = len + (listed (block hr.pfx hr.width i.toNat (hr.hi.toNat + 1 - i.toNat))).length := by
  induction fuel generalizing i m len with
  | zero => omega
  | succ fuel ih =>
      rw [toStringLoop] at h
      by_cases hle : i ≤ hr.hi
      · rw [if_pos hle] at h
        simp only at h
        by_cases hcut : (hr.pfx ++ pad hr.width i.toNat).length ≥ n - len
        · rw [if_pos hcut] at h
          cases h
        · rw [if_neg hcut] at h
          obtain ⟨hmax, hlen', hprints, heq⟩ := ih (by omega) (by omega) h
          have hi : (i + 1).toNat = i.toNat + 1 :=
            toNat_succ (Nat.lt_of_le_of_lt (UInt64.le_iff_toNat_le.mp hle) hmax)
          have hnum : hr.hi.toNat + 1 - i.toNat = hr.hi.toNat + 1 - (i + 1).toNat + 1 := by
            have hile := UInt64.le_iff_toNat_le.mp hle
            omega
          rw [hnum, block_succ, ← hi, listed_cons]
          generalize hr.pfx ++ pad hr.width i.toNat = name at hcut hprints heq ⊢
          have hname : Prints m (off + len) name (snprintfAt m (off + len) (n - len) name) :=
            snprintfAt_prints (Nat.not_le.mp hcut)
          have hone := hname.trans (prints_setByte (c := ','))
          rw [Nat.add_assoc] at hone
          refine ⟨hmax, hlen', ?_, ?_⟩
          · apply hone.trans
            rw [List.length_append, List.length_singleton, Nat.add_assoc, ← Nat.add_assoc len]
            exact hprints
          · simp only [List.length_append, List.length_singleton]
            omega
      · rw [if_neg hle] at h
        cases h
        have hgt : hr.hi.toNat < i.toNat := by
          rw [UInt64.le_iff_toNat_le] at hle
          omega
        have hlt := i.toNat_lt
        have hM := ULONG_MAX_toNat
        have hnum : hr.hi.toNat + 1 - i.toNat = 0 := by omega
        rw [hnum]
        exact ⟨by omega, hlen, Prints.refl _ _, rfl⟩

/-- What `hostrange_to_string` leaves when its result is below the size of the
buffer. -/
theorem hostrangeToString_prints (hpos : 0 ≤ (hostrangeToString hr m off n).2)
    (hlt : (hostrangeToString hr m off n).2 < n) :
    hr.Ordered ∧
      Prints m off (List.intercalate [','] hr.names) (hostrangeToString hr m off n).1 ∧
      (hostrangeToString hr m off n).2 = (List.intercalate [','] hr.names).length := by
  unfold hostrangeToString at hpos hlt ⊢
  by_cases hn : n = 0
  · rw [if_pos hn] at hlt
    exact absurd hlt (by simp [hn])
  rw [if_neg hn] at hpos hlt ⊢
  cases hs : hr.singlehost with
  | true =>
      simp only [hs, if_true] at hlt ⊢
      rw [Hostrange.names_single hs, List.intercalate_singleton]
      refine ⟨?_, snprintfAt_prints (by omega), rfl⟩
      intro hfalse
      rw [hs] at hfalse
      cases hfalse
  | false =>
      simp only [hs, Bool.false_eq_true, if_false] at hpos hlt ⊢
      rw [Hostrange.names_block hs]
      rcases hloop : toStringLoop hr off n (n + 1) hr.lo m 0 with ⟨m', _ | len⟩
      · rw [hloop] at hpos
        exact absurd hpos (by simp)
      · rw [hloop] at hpos hlt
        simp only at hpos hlt ⊢
        obtain ⟨hmax, -, hprints, hlen⟩ := toStringLoop_prints (by omega) (Nat.zero_le n) hloop
        rw [Nat.zero_add] at hlen
        have hle : hr.lo.toNat ≤ hr.hi.toNat := by
          by_contra hgt
          have hnone : hr.hi.toNat + 1 - hr.lo.toNat = 0 := by omega
          rw [hnone] at hlen
          have hzero : len = 0 := hlen
          omega
        have hne : block hr.pfx hr.width hr.lo.toNat (hr.hi.toNat + 1 - hr.lo.toNat) ≠ [] := by
          intro hnil
          have hcount := congrArg List.length hnil
          rw [length_block, List.length_nil] at hcount
          omega
        rw [listed, flatMap_separated ',' hne] at hprints hlen
        rw [List.length_append, List.length_singleton] at hlen
        rw [if_neg (by omega)]
        refine ⟨fun _ => ⟨hle, hmax⟩, ?_, by omega⟩
        -- the separator behind the last name becomes the terminator
        have hlast := hprints.left.set_after (c := NUL) (i := off + len - 1) (by omega)
        exact hlast

theorem Hostrange.Ordered.names_ne_nil (h : hr.Ordered) : hr.names ≠ [] := by
  cases hs : hr.singlehost with
  | true =>
      rw [Hostrange.names_single hs]
      exact List.cons_ne_nil _ _
  | false =>
      have hle := (h hs).1
      intro hnil
      have hlen := congrArg List.length hnil
      rw [Hostrange.names_block hs, length_block, List.length_nil] at hlen
      omega

/-! ## The whole buffer -/

theorem derangedStringLoop_prints {ranges : List Hostrange}
    (h : (derangedStringLoop base n ranges m len).2.2 = false)
    (hle : (derangedStringLoop base n ranges m len).2.1 ≤ n) :
    (∀ hr ∈ ranges, hr.Ordered) ∧
      Prints m (base + len) (listed (ranges.flatMap Hostrange.names))
        (derangedStringLoop base n ranges m len).1 ∧
      (derangedStringLoop base n ranges m len).2.1 =
        len + (listed (ranges.flatMap Hostrange.names)).length := by
  induction ranges generalizing m len with
  | nil => exact ⟨by simp, Prints.refl m _, rfl⟩
  | cons hr rest ih =>
      rw [derangedStringLoop] at h hle ⊢
      simp only at h hle ⊢
      by_cases hcut : (hostrangeToString hr m (base + len) (n - len)).2 < 0 ∨
          (hostrangeToString hr m (base + len) (n - len)).2 > (n - len : Nat)
      · rw [if_pos hcut] at h
        cases h
      · rw [if_neg hcut] at h hle ⊢
        obtain ⟨hordered, hprints, hlen⟩ := ih h hle
        -- the rest of the list fits, so this range did not fill the buffer
        have hroom : (hostrangeToString hr m (base + len) (n - len)).2 < (n - len : Nat) := by
          rw [hlen] at hle
          omega
        obtain ⟨hfirst, hprints', hlen'⟩ := hostrangeToString_prints (by omega) hroom
        rw [hlen', Int.toNat_natCast] at hprints hlen ⊢
        have hsep := flatMap_separated ',' hfirst.names_ne_nil
        rw [List.flatMap_cons, listed_append, listed, hsep]
        refine ⟨?_, ?_, ?_⟩
        · intro x hx
          rcases List.mem_cons.mp hx with rfl | hx
          · exact hfirst
          · exact hordered x hx
        · have hcomma := hprints'.trans (prints_setByte (c := ','))
          rw [Nat.add_assoc base] at hcomma
          apply hcomma.trans
          rw [List.length_append, List.length_singleton, Nat.add_assoc base, ← Nat.add_assoc len]
          exact hprints
        · rw [hlen, List.length_append, List.length_append, List.length_singleton]
          omega

/-- What `hostlist_deranged_string` leaves when its result is below the size of the
buffer: the text of the list and its terminator, and the length as the result. -/
theorem derangedStringAt_prints (hn : hl.nranges = hl.hr.length)
    (hpos : 0 ≤ (hostlistDerangedStringAt base hl n m).2)
    (hlt : (hostlistDerangedStringAt base hl n m).2 < n) :
    (∀ hr ∈ hl.hr, hr.Ordered) ∧
      (hostlistDerangedStringAt base hl n m).2 = hl.derangedText.length ∧
      Prints m base hl.derangedText (hostlistDerangedStringAt base hl n m).1 ∧
      (hostlistDerangedStringAt base hl n m).1 (base + hl.derangedText.length) = NUL := by
  have htake : hl.hr.take hl.nranges = hl.hr := by rw [hn, List.take_length]
  unfold hostlistDerangedStringAt at hpos hlt ⊢
  simp only [htake] at hpos hlt ⊢
  rcases hdone : derangedStringLoop base n hl.hr m 0 with ⟨m', len, cut⟩
  rw [hdone] at hpos hlt
  simp only at hpos hlt ⊢
  by_cases htrunc : cut = true ∨ (if len > 0 then len - 1 else 0) = n
  · rw [if_pos htrunc] at hpos
    exact absurd hpos (by decide)
  rw [if_neg htrunc] at hlt ⊢
  rw [not_or, Bool.not_eq_true] at htrunc
  have hfits : len ≤ n := by
    split at hlt <;> omega
  obtain ⟨hordered, hprints, hlen⟩ := @derangedStringLoop_prints m base n 0 hl.hr
    (by rw [hdone]; exact htrunc.1) (by rw [hdone]; exact hfits)
  rw [hdone] at hprints hlen
  simp only [Nat.zero_add, Nat.add_zero] at hprints hlen
  refine ⟨hordered, ?_⟩
  unfold Hostlist.derangedText
  by_cases hnil : hl.names = []
  · have hzero : len = 0 := by
      rw [hlen]
      show (listed hl.names).length = 0
      rw [hnil]
      rfl
    have hnone : hl.hr.flatMap Hostrange.names = [] := hnil
    rw [hnil, hzero]
    rw [hnone] at hprints
    exact ⟨rfl, hprints.set_after (Nat.le_refl _), if_pos rfl⟩
  · have hsep := flatMap_separated ',' hnil
    have htext : listed (hl.hr.flatMap Hostrange.names) = List.intercalate [','] hl.names ++ [','] :=
      hsep
    rw [htext] at hprints hlen
    rw [List.length_append, List.length_singleton] at hlen
    have hlast : len - 1 = (List.intercalate [','] hl.names).length := by omega
    rw [if_pos (by omega), hlast]
    exact ⟨rfl, hprints.left.set_after (Nat.le_refl _), if_pos rfl⟩

theorem hostlistDerangedString_spec (hn : hl.nranges = hl.hr.length) {buf : Mem}
    (hpos : 0 ≤ (hostlistDerangedString hl n buf).2)
    (hlt : (hostlistDerangedString hl n buf).2 < n) :
    (∀ hr ∈ hl.hr, hr.Ordered) ∧
      (hostlistDerangedString hl n buf).2 = hl.derangedText.length ∧
      text (hostlistDerangedString hl n buf).1 0 hl.derangedText.length = hl.derangedText := by
  obtain ⟨hordered, hret, hprints, -⟩ := derangedStringAt_prints hn hpos hlt
  exact ⟨hordered, hret, hprints.text⟩

end Pdsh
