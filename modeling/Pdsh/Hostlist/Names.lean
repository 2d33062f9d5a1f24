import Pdsh.Hostlist.Ops
import Pdsh.Lib.Chunks

/-!
# The names a host list stands for

What the host list is for, and what each of its records means:

* a block is a run of consecutive numbers behind one name (`block`);
* a range denotes one name or one block (`Hostrange.names`);
* a list denotes the names of its ranges in order (`Hostlist.names`).

`Hostrange.Wf` and `Hostlist.Wf` are the invariants of the two records, and
the lemmas below say what each `hostrange_*` function does to the names.
-/

namespace Pdsh

open Lib Lib.Decimal

/-! ## Blocks -/

/-- The names of `len` numbers from `start` on. -/
def block (pfx : CStr) (width start len : Nat) : List CStr :=
  (List.range' start len).map fun n => pfx ++ pad width n

variable {pfx : CStr} {w w' s n m k : Nat}

@[simp] theorem length_block : (block pfx w s n).length = n := by simp [block]

@[simp] theorem block_zero : block pfx w s 0 = [] := rfl

theorem block_succ : block pfx w s (n + 1) = (pfx ++ pad w s) :: block pfx w (s + 1) n := by
  simp [block, List.range'_succ]

theorem block_append : block pfx w s n ++ block pfx w (s + n) m = block pfx w s (n + m) := by
  simp only [block, ← List.map_append]
  rw [List.range'_append_1]

theorem block_snoc : block pfx w s (n + 1) = block pfx w s n ++ [pfx ++ pad w (s + n)] := by
  rw [← block_append]
  rfl

theorem mem_block {x : CStr} :
    x ∈ block pfx w s n ↔ ∃ i, s ≤ i ∧ i < s + n ∧ x = pfx ++ pad w i := by
  simp only [block, List.mem_map, List.mem_range'_1]
  constructor
  · rintro ⟨i, ⟨hlo, hhi⟩, rfl⟩
    exact ⟨i, hlo, hhi, rfl⟩
  · rintro ⟨i, hlo, hhi, rfl⟩
    exact ⟨i, ⟨hlo, hhi⟩, rfl⟩

/-- Two widths that print the first number alike print the whole block alike. -/
theorem block_congr (h : padding w s = padding w' s) : block pfx w s n = block pfx w' s n := by
  refine List.map_congr_left fun i hi => ?_
  have hle : s ≤ i := (List.mem_range'_1.mp hi).1
  rw [pad_congr (padding_eq_mono hle h)]

theorem getElem?_block (h : k < n) : (block pfx w s n)[k]? = some (pfx ++ pad w (s + k)) := by
  simp [block, h]

theorem eraseIdx_block (h : k < n) :
    (block pfx w s n).eraseIdx k =
      block pfx w s k ++ block pfx w (s + k + 1) (n - k - 1) := by
  have hn : n = k + (n - k - 1 + 1) := by omega
  conv_lhs => rw [hn, ← block_append, block_succ]
  rw [List.eraseIdx_append_of_length_le (by simp)]
  simp

theorem block_nodup : (block pfx w s n).Nodup := by
  refine List.Nodup.map ?_ List.nodup_range'
  intro i j hij
  exact (pad_eq_pad_iff.mp (List.append_cancel_left hij)).1

theorem idxOf_block (h : k < n) : (block pfx w s n).idxOf (pfx ++ pad w (s + k)) = k := by
  have hlen : k < (block pfx w s n).length := by simpa using h
  have hget : (block pfx w s n)[k] = pfx ++ pad w (s + k) := by
    have hsome : (block pfx w s n)[k]? = some (pfx ++ pad w (s + k)) := getElem?_block h
    rw [List.getElem?_eq_getElem hlen] at hsome
    exact Option.some.inj hsome
  rw [← hget]
  exact block_nodup.idxOf_getElem k hlen

/-! ## Ranges -/

/-- The names of a range. -/
def Hostrange.names (hr : Hostrange) : List CStr :=
  if hr.singlehost then [hr.pfx]
  else block hr.pfx hr.width hr.lo.toNat (hr.hi.toNat + 1 - hr.lo.toNat)

/-- A range that holds at least one number; a single host holds none and keeps
both bounds at 0. -/
structure Hostrange.Wf (hr : Hostrange) : Prop where
  le : hr.lo.toNat ≤ hr.hi.toNat
  single : hr.singlehost = true → hr.lo = 0 ∧ hr.hi = 0

theorem Hostrange.names_single {hr : Hostrange} (h : hr.singlehost = true) :
    hr.names = [hr.pfx] := by
  simp [Hostrange.names, h]

theorem Hostrange.names_block {hr : Hostrange} (h : hr.singlehost = false) :
    hr.names = block hr.pfx hr.width hr.lo.toNat (hr.hi.toNat + 1 - hr.lo.toNat) := by
  simp [Hostrange.names, h]

theorem Hostrange.Wf.length_pos {hr : Hostrange} (h : hr.Wf) : 0 < hr.names.length := by
  have := h.le
  unfold Hostrange.names
  split
  · simp
  · rw [length_block]
    omega

/-- Only the text of the numbers depends on the width. -/
theorem Hostrange.names_width {hr : Hostrange} {w : Nat}
    (h : padding w hr.lo.toNat = padding hr.width hr.lo.toNat) :
    ({ hr with width := w } : Hostrange).names = hr.names := by
  unfold Hostrange.names
  split
  · rfl
  · exact block_congr h

theorem hostrangeCreateSingle_wf (pfx : CStr) : (hostrangeCreateSingle pfx).Wf :=
  ⟨Nat.le_refl _, fun _ => ⟨rfl, rfl⟩⟩

@[simp] theorem hostrangeCreateSingle_names (pfx : CStr) :
    (hostrangeCreateSingle pfx).names = [pfx] := rfl

theorem hostrangeCreate_wf {pfx : CStr} {lo hi : UInt64} {width : Nat} (h : lo.toNat ≤ hi.toNat) :
    (hostrangeCreate pfx lo hi width).Wf :=
  ⟨h, fun hs => by simp [hostrangeCreate] at hs⟩

@[simp] theorem hostrangeCreate_names (pfx : CStr) (lo hi : UInt64) (width : Nat) :
    (hostrangeCreate pfx lo hi width).names =
      block pfx width lo.toNat (hi.toNat + 1 - lo.toNat) := rfl

@[simp] theorem hostrangeCopy_names (hr : Hostrange) : (hostrangeCopy hr).names = hr.names := by
  unfold hostrangeCopy
  split
  · simp_all [Hostrange.names, hostrangeCreateSingle]
  · simp_all [Hostrange.names, hostrangeCreate]

@[simp] theorem hostrangeCopy_pfx (hr : Hostrange) : (hostrangeCopy hr).pfx = hr.pfx := by
  unfold hostrangeCopy
  split <;> rfl

@[simp] theorem hostrangeCopy_singlehost (hr : Hostrange) :
    (hostrangeCopy hr).singlehost = hr.singlehost := by
  unfold hostrangeCopy
  split <;> simp_all [hostrangeCreateSingle, hostrangeCreate]

/-- A copy of a range drops at most the width of a single host. -/
theorem hostrangeCopy_bounds {hr : Hostrange} (h : hr.Wf) :
    (hostrangeCopy hr).lo = hr.lo ∧ (hostrangeCopy hr).hi = hr.hi := by
  unfold hostrangeCopy
  split
  · obtain ⟨hlo, hhi⟩ := h.single ‹_›
    simp [hostrangeCreateSingle, hlo, hhi]
  · exact ⟨rfl, rfl⟩

theorem Hostrange.Wf.copy {hr : Hostrange} (h : hr.Wf) : (hostrangeCopy hr).Wf := by
  obtain ⟨hlo, hhi⟩ := hostrangeCopy_bounds h
  refine ⟨by rw [hlo, hhi]; exact h.le, fun hs => ?_⟩
  rw [hlo, hhi]
  exact h.single (by simpa using hs)

/-- `hostrange_count` is right unless the range is all of `unsigned long`. -/
theorem hostrangeCount_toNat {hr : Hostrange} (h : hr.Wf) (hlen : hr.names.length < 2 ^ 64) :
    (hostrangeCount hr).toNat = hr.names.length := by
  have hle := h.le
  have hlt := hr.hi.toNat_lt
  cases hs : hr.singlehost with
  | true => simp [hostrangeCount, hs, Hostrange.names_single hs]
  | false =>
    rw [Hostrange.names_block hs, length_block] at hlen ⊢
    rw [hostrangeCount, hs]
    simp only [Bool.false_eq_true, if_false]
    have h1 : (1 : UInt64).toNat = 1 := rfl
    rw [UInt64.toNat_add, UInt64.toNat_sub_of_le _ _ (UInt64.le_iff_toNat_le.mpr hle), h1,
      Nat.mod_eq_of_lt (by omega)]
    omega

theorem Hostrange.length_names_le {hr : Hostrange} (h : hr.Wf) :
    hr.names.length ≤ hr.hi.toNat + 1 := by
  have hle := h.le
  unfold Hostrange.names
  split
  · simp
  · rw [length_block]
    omega

theorem hostrangePrefixCmp_eq_zero_iff {h1 h2 : Hostrange} :
    hostrangePrefixCmp (some h1) (some h2) = 0 ↔
      h1.pfx = h2.pfx ∧ h1.singlehost = h2.singlehost := by
  simp only [hostrangePrefixCmp]
  split
  · rename_i heq
    rw [strcmp_eq_zero_iff.mp heq]
    cases h1.singlehost <;> cases h2.singlehost <;> simp
  · rename_i hne
    have hpfx : h1.pfx ≠ h2.pfx := fun heq => hne (strcmp_eq_zero_iff.mpr heq)
    simp [hne, hpfx]

theorem hostrangeWithinRange_iff {h1 h2 : Hostrange} :
    hostrangeWithinRange h1 (some h2) = true ↔
      h1.pfx = h2.pfx ∧ h1.singlehost = false ∧ h2.singlehost = false := by
  unfold hostrangeWithinRange
  split
  · rename_i heq
    obtain ⟨hpfx, hs⟩ := hostrangePrefixCmp_eq_zero_iff.mp heq
    simp [hpfx, hs]
  · rename_i hne
    have := mt hostrangePrefixCmp_eq_zero_iff.mpr hne
    simp only [Bool.false_eq_true, false_iff]
    rintro ⟨hpfx, hs, hs'⟩
    exact this ⟨hpfx, by rw [hs, hs']⟩

/-- `hr'` prints as `hr` does: only the width may be another. -/
def Hostrange.Rewidth (hr hr' : Hostrange) : Prop :=
  ∃ w, hr' = { hr with width := w } ∧ padding w hr.lo.toNat = padding hr.width hr.lo.toNat

theorem Hostrange.Rewidth.refl (hr : Hostrange) : hr.Rewidth hr := ⟨hr.width, rfl, rfl⟩

theorem Hostrange.Rewidth.names {hr hr' : Hostrange} (h : hr.Rewidth hr') :
    hr'.names = hr.names := by
  obtain ⟨w, rfl, hpad⟩ := h
  exact Hostrange.names_width hpad

theorem Hostrange.Rewidth.bounds {hr hr' : Hostrange} (h : hr.Rewidth hr') :
    hr'.lo = hr.lo ∧ hr'.hi = hr.hi := by
  obtain ⟨w, rfl, -⟩ := h
  exact ⟨rfl, rfl⟩

theorem Hostrange.Rewidth.wf {hr hr' : Hostrange} (h : hr.Rewidth hr') (hw : hr.Wf) : hr'.Wf := by
  obtain ⟨w, rfl, -⟩ := h
  exact ⟨hw.le, hw.single⟩

/-! ## Widths -/

theorem zeroPaddedLoop_eq {fuel num : Nat} (n : Nat) (h : num < 10 ^ (fuel + 1)) :
    zeroPaddedLoop fuel num n + 1 = n + numDigits num := by
  induction fuel generalizing num n with
  | zero => rw [zeroPaddedLoop, numDigits_of_lt (by simpa using h)]
  | succ fuel ih =>
      rw [zeroPaddedLoop]
      split
      · rw [numDigits_of_lt (by omega)]
      · rw [ih (n + 1) (by rw [Nat.pow_succ] at h; omega), numDigits_of_ge (n := num) (by omega)]
        omega

/-- `_zero_padded` counts the zeros `%0*lu` writes. -/
@[simp] theorem zeroPadded_eq (num : UInt64) (width : Nat) :
    zeroPadded num width = padding width num.toNat := by
  have hlt := num.toNat_lt
  have hloop : zeroPaddedLoop 20 num.toNat 1 + 1 = 1 + numDigits num.toNat :=
    zeroPaddedLoop_eq 1 (by omega)
  unfold zeroPadded padding
  simp only
  split <;> omega

/-- Widths that go together become one width, the one of the two numbers, and
neither number is printed differently. -/
theorem widthEquiv_some {n m : UInt64} {wn wm : Nat} {w : Nat × Nat}
    (h : widthEquiv n wn m wm = some w) :
    w.1 = w.2 ∧ (w.1 = wn ∨ w.1 = wm) ∧ padding w.1 n.toNat = padding wn n.toNat ∧
      padding w.1 m.toNat = padding wm m.toNat := by
  simp only [widthEquiv, zeroPadded_eq] at h
  split at h
  · cases h
  · split at h
    · split at h
      · cases h
        exact ⟨rfl, .inl rfl, rfl, by simp_all⟩
      · cases h
    · split at h
      · cases h
        exact ⟨rfl, .inr rfl, by simp_all, rfl⟩
      · cases h

theorem widthEquiv_isSome {n m : UInt64} {wn wm : Nat}
    (h : padding wn n.toNat = padding wm n.toNat ∨ padding wm m.toNat = padding wn m.toNat) :
    (widthEquiv n wn m wm).isSome := by
  simp only [widthEquiv, zeroPadded_eq]
  split
  · rcases h with h | h <;> simp_all
  · split
    · split <;> simp_all
    · simp_all

/-- `hostrange_width_combine` changes widths only, and no name. -/
theorem hostrangeWidthCombine_some {h0 h1 : Hostrange} {r : Hostrange × Hostrange}
    (h : hostrangeWidthCombine h0 h1 = some r) :
    ∃ w, r = ({ h0 with width := w }, { h1 with width := w }) ∧
      (w = h0.width ∨ w = h1.width) ∧
      padding w h0.lo.toNat = padding h0.width h0.lo.toNat ∧
      padding w h1.lo.toNat = padding h1.width h1.lo.toNat := by
  simp only [hostrangeWidthCombine, Option.map_eq_some_iff] at h
  obtain ⟨⟨w, w'⟩, hw, rfl⟩ := h
  obtain ⟨heq, hor, h0', h1'⟩ := widthEquiv_some hw
  simp only at heq
  subst heq
  exact ⟨w, rfl, hor, h0', h1'⟩

/-- One width prints two numbers as their own widths do only where the width of one of them
prints the other as well. -/
theorem padding_common {wn wm : Nat} (h : ∃ w,
    padding w n = padding wn n ∧ padding w m = padding wm m) :
    padding wn n = padding wm n ∨ padding wm m = padding wn m := by
  obtain ⟨w, hn, hm⟩ := h
  unfold padding at *
  omega

theorem widthEquiv_isSome_iff {n m : UInt64} {wn wm : Nat} :
    (widthEquiv n wn m wm).isSome ↔
      ∃ w, pad w n.toNat = pad wn n.toNat ∧ pad w m.toNat = pad wm m.toNat := by
  constructor
  · intro h
    obtain ⟨w, hw⟩ := Option.isSome_iff_exists.mp h
    obtain ⟨-, -, hn, hm⟩ := widthEquiv_some hw
    exact ⟨w.1, pad_congr hn, pad_congr hm⟩
  · rintro ⟨w, hn, hm⟩
    exact widthEquiv_isSome
      (padding_common ⟨w, (pad_eq_pad_iff.mp hn).2, (pad_eq_pad_iff.mp hm).2⟩)

/-- The ranges behind a call of `hostrange_width_combine`, whatever it returns. -/
def widthCombined (h0 h1 : Hostrange) : Hostrange × Hostrange :=
  (hostrangeWidthCombine h0 h1).getD (h0, h1)

theorem widthCombined_names (h0 h1 : Hostrange) :
    (widthCombined h0 h1).1.names = h0.names ∧ (widthCombined h0 h1).2.names = h1.names := by
  unfold widthCombined
  cases h : hostrangeWidthCombine h0 h1 with
  | none => exact ⟨rfl, rfl⟩
  | some r =>
      obtain ⟨w, rfl, -, hlo0, hlo1⟩ := hostrangeWidthCombine_some h
      exact ⟨Hostrange.names_width hlo0, Hostrange.names_width hlo1⟩

/-- `_width_equiv` succeeds exactly when one width prints both numbers as they were and then
leaves such a width for both; no name of two ranges changes with `hostrange_width_combine`. -/
theorem width_equiv_exact :
    (∀ (n m : UInt64) (wn wm : Nat),
      ((widthEquiv n wn m wm).isSome ↔
        ∃ w, pad w n.toNat = pad wn n.toNat ∧ pad w m.toNat = pad wm m.toNat) ∧
      ∀ w, widthEquiv n wn m wm = some w →
        w.1 = w.2 ∧ pad w.1 n.toNat = pad wn n.toNat ∧ pad w.1 m.toNat = pad wm m.toNat) ∧
    ∀ h0 h1 : Hostrange,
      (widthCombined h0 h1).1.names = h0.names ∧ (widthCombined h0 h1).2.names = h1.names := by
  refine ⟨fun n m wn wm => ⟨widthEquiv_isSome_iff, fun w hw => ?_⟩, widthCombined_names⟩
  obtain ⟨heq, -, hn, hm⟩ := widthEquiv_some hw
  exact ⟨heq, pad_congr hn, pad_congr hm⟩

/-! ## Lists -/

/-- The names of a list. -/
def Hostlist.names (hl : Hostlist) : List CStr := hl.hr.flatMap Hostrange.names

/-- The invariant of a list: its ranges are not empty and its counters count.
`nhosts` is an `int`, so it counts modulo `2^32`. -/
structure Hostlist.Wf (hl : Hostlist) : Prop where
  ranges : ∀ hr ∈ hl.hr, hr.Wf
  nranges : hl.nranges = hl.hr.length
  nhosts : hl.nhosts = Int32.ofNat hl.names.length

/-- Every number stored in the list is below `B`. -/
def Hostlist.Below (B : Nat) (hl : Hostlist) : Prop := ∀ hr ∈ hl.hr, hr.hi.toNat < B

/-- The list is small enough for `nhosts` to be the number of its hosts. -/
def Hostlist.Small (hl : Hostlist) : Prop := hl.names.length < 2 ^ 31

instance (hl : Hostlist) : Decidable hl.Small := inferInstanceAs (Decidable (_ < _))

theorem Hostlist.Wf.nhosts_toInt {hl : Hostlist} (h : hl.Wf) (hs : hl.Small) :
    hl.nhosts.toInt = hl.names.length := by
  rw [h.nhosts, Int32.toInt_ofNat_of_lt hs]

theorem Hostlist.Small.range_lt {hl : Hostlist} (hs : hl.Small) {c : Hostrange} (hc : c ∈ hl.hr) :
    c.names.length < 2 ^ 31 := by
  obtain ⟨pre, post, hhr⟩ := List.append_of_mem hc
  unfold Hostlist.Small at hs
  rw [Hostlist.names, hhr] at hs
  simp only [List.flatMap_append, List.flatMap_cons, List.length_append] at hs
  omega

theorem hostlistNew_wf : hostlistNew.Wf := ⟨by simp [hostlistNew], rfl, rfl⟩

@[simp] theorem hostlistNew_names : hostlistNew.names = [] := rfl

theorem Hostlist.Wf.names_eq_nil_iff {hl : Hostlist} (h : hl.Wf) : hl.names = [] ↔ hl.hr = [] := by
  constructor
  · intro hn
    rw [Hostlist.names, List.flatMap_eq_nil_iff] at hn
    refine List.eq_nil_iff_forall_not_mem.mpr fun hr hmem => ?_
    have := (h.ranges hr hmem).length_pos
    rw [hn hr hmem] at this
    simp at this
  · intro hn
    simp [Hostlist.names, hn]

/-- Wrapping counters add as the lengths they count do. -/
theorem int32_ofNat_add (a b : Nat) : Int32.ofNat a + Int32.ofNat b = Int32.ofNat (a + b) := by
  exact (Int32.ofNat_add a b).symm

/-- The count of a range, as an `int`, wraps as `nhosts` does. -/
theorem intOfUlong_count {hr : Hostrange} (h : hr.Wf) :
    intOfUlong (hostrangeCount hr) = Int32.ofNat hr.names.length := by
  have hmod : (hostrangeCount hr).toNat = hr.names.length % 2 ^ 64 := by
    have hle := h.le
    cases hs : hr.singlehost with
    | true => simp [hostrangeCount, hs, Hostrange.names_single hs]
    | false =>
        rw [hostrangeCount, hs, if_neg Bool.false_ne_true, Hostrange.names_block hs, length_block, UInt64.toNat_add,
          UInt64.toNat_sub_of_le _ _ (UInt64.le_iff_toNat_le.mpr hle)]
        show (hr.hi.toNat - hr.lo.toNat + 1) % 2 ^ 64 = _
        congr 1
        omega
  rw [intOfUlong, hmod]
  refine Int32.toBitVec.inj (BitVec.eq_of_toNat_eq ?_)
  rw [Int32.toBitVec_ofNat', Int32.toBitVec_ofNat', BitVec.toNat_ofNat, BitVec.toNat_ofNat]
  omega

theorem Hostrange.Wf.length_lt {hr : Hostrange} (h : hr.Wf) (hhi : hr.hi.toNat < ULONG_MAX.toNat) :
    hr.names.length < 2 ^ 64 := by
  have := hr.length_names_le h
  have hM := ULONG_MAX_toNat
  omega

/-! ## How a name is stored -/

/-- The names of a range, each with the way it is stored. -/
def Hostrange.stored (hr : Hostrange) : List (Bool × CStr) := hr.names.map (hr.singlehost, ·)

/-- The names of a list, each with the way it is stored: as a single host or as
one number of a range. -/
def Hostlist.stored (hl : Hostlist) : List (Bool × CStr) := hl.hr.flatMap Hostrange.stored

theorem Hostlist.stored_map_snd (hl : Hostlist) : hl.stored.map Prod.snd = hl.names := by
  simp [Hostlist.stored, Hostrange.stored, Hostlist.names, List.map_flatMap, Function.comp_def]

@[simp] theorem Hostrange.length_stored (hr : Hostrange) :
    hr.stored.length = hr.names.length := by
  simp [Hostrange.stored]

end Pdsh
