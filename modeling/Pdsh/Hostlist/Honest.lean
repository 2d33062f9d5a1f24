import Pdsh.Hostlist.Deranged

/-!
# The end of the buffer

A function that prints into `n` bytes is honest when it stays inside them, ends them with a
terminator and gives the length of the text, or -1 when the text does not fit.
`hostlist_deranged_string` is not: a single host whose text ends exactly at the end of the buffer
is taken for printed, and the comma behind it goes to the byte behind the buffer. A range without
numbers, or with the last of all numbers, misleads it too (`deranged_honest_iff`).
-/

namespace Pdsh

open Lib Lib.Chunks Lib.Decimal Lib.Memory

variable {hl : Hostlist} {hr : Hostrange} {ranges : List Hostrange} {m m' : Mem} {off base n len a b : Nat}

/-- Printing a text into the `n` bytes at `base`. -/
def Honest (print : Mem → Mem × Int) (base n : Nat) (t : CStr) : Prop :=
  ∀ m, Within base (base + n) m (print m).1 ∧ (∃ k < n, (print m).1 (base + k) = NUL) ∧
    if t.length < n then
      (print m).2 = t.length ∧ text (print m).1 base t.length = t ∧ (print m).1 (base + t.length) = NUL
    else (print m).2 = -1

theorem snprintfAt_within {s : CStr} (h : Within a b m m') (ha : a ≤ off) (hb : off + n ≤ b) :
    Within a b m (snprintfAt m' off n s) := by
  have hlen : (snprintf n s).length ≤ n - 1 := List.length_take_le _ _
  unfold snprintfAt
  split
  · exact h
  · exact (h.write ha (by omega)).setByte (by omega) (by omega)

/-! ## One range -/

/-- What is printed of a range, with a comma behind each name. -/
abbrev Hostrange.listed (hr : Hostrange) : CStr := Pdsh.listed hr.names

theorem toStringLoop_within {fuel : Nat} {i : UInt64} (hlen : len ≤ n) :
    Within off (off + n) m (toStringLoop hr off n fuel i m len).1 := by
  induction fuel generalizing i m len with
  | zero => exact .refl _ _ _
  | succ fuel ih =>
      rw [toStringLoop]
      split
      · have hname : Within off (off + n) m (snprintfAt m (off + len) (n - len)
            (hr.pfx ++ pad hr.width i.toNat)) := snprintfAt_within (.refl _ _ _) (by omega) (by omega)
        simp only
        split
        · exact hname
        · exact (hname.setByte (by omega) (by omega)).trans (ih (by omega))
      · exact .refl _ _ _

/-- A loop that is cut short has more to print than fits, or never ends. -/
theorem toStringLoop_cut {fuel : Nat} {i : UInt64} (hmax : hr.hi.toNat < ULONG_MAX.toNat) (hlen : len ≤ n)
    (h : (toStringLoop hr off n fuel i m len).2 = none) :
    n < len + (listed (block hr.pfx hr.width i.toNat (hr.hi.toNat + 1 - i.toNat))).length := by
  induction fuel generalizing i m len with
  | zero => cases h
  | succ fuel ih =>
      rw [toStringLoop] at h
      by_cases hle : i ≤ hr.hi
      · have hile := UInt64.le_iff_toNat_le.mp hle
        have hnum : hr.hi.toNat + 1 - i.toNat = hr.hi.toNat + 1 - (i + 1).toNat + 1 := by
          rw [toNat_succ (by omega)]
          omega
        rw [if_pos hle] at h
        simp only at h
        rw [hnum, block_succ, listed_cons, ← toNat_succ (show i.toNat < ULONG_MAX.toNat by omega),
          List.length_append, List.length_append, List.length_singleton]
        by_cases hcut : (hr.pfx ++ pad hr.width i.toNat).length ≥ n - len
        · omega
        · rw [if_neg hcut] at h
          have hrest := ih (by omega) h
          omega
      · rw [if_neg hle] at h
        cases h

theorem length_listed_names (h : hr.names ≠ []) :
    hr.listed.length = (List.intercalate [','] hr.names).length + 1 := by
  rw [Hostrange.listed, listed, flatMap_separated ',' h, List.length_append, List.length_singleton]

/-- What `hostrange_to_string` does in a buffer of `n` bytes. -/
inductive ToString (hr : Hostrange) (m : Mem) (off n : Nat) (m' : Mem) (ret : Int) : Prop where
  /-- All names fit. -/
  | fits (hordered : hr.Ordered) (hlen : hr.listed.length ≤ n) (hret : ret = hr.listed.length - 1)
      (hm : Within off (off + n) m m')
  /-- A single host of `n` bytes is cut, and taken for printed. -/
  | exact (hsingle : hr.singlehost = true) (hlen : hr.pfx.length = n) (hret : ret = n)
      (hm : Within off (off + n) m m')
  /-- The names do not fit, or they would never end. -/
  | cut (hlen : hr.Ordered → n + 1 < hr.listed.length ∨ hr.singlehost = false ∧ n < hr.listed.length)
      (hle : hr.Ordered ∨ hr.lo.toNat ≤ hr.hi.toNat) (hret : ret < 0 ∨ ret > n)
      (hm : Within off (off + n) m m')
  /-- There are none. -/
  | empty (hnumbers : hr.singlehost = false) (hlt : hr.hi.toNat < hr.lo.toNat) (hret : ret = -1)
      (hm : m' = setByte m (off - 1) NUL)

theorem hostrangeToString_cases (hn : 0 < n) (hoff : 0 < off) :
    ToString hr m off n (hostrangeToString hr m off n).1 (hostrangeToString hr m off n).2 := by
  unfold hostrangeToString
  rw [if_neg hn.ne']
  cases hs : hr.singlehost with
  | true =>
      have hnames := Hostrange.names_single hs
      have hlisted : hr.listed.length = hr.pfx.length + 1 := by
        rw [length_listed_names (by rw [hnames]; simp), hnames, List.intercalate_singleton]
      have hordered : hr.Ordered := by
        intro hfalse
        rw [hs] at hfalse
        cases hfalse
      have hm : Within off (off + n) m (snprintfAt m off n hr.pfx) :=
        snprintfAt_within (.refl _ _ _) (Nat.le_refl _) (Nat.le_refl _)
      simp only [if_true]
      rcases Nat.lt_trichotomy hr.pfx.length n with hlt | heq | hgt
      · exact .fits hordered (by omega) (by omega) hm
      · exact .exact hs heq (by omega) hm
      · exact .cut (fun _ => .inl (by omega)) (.inl hordered) (.inr (by omega)) hm
  | false =>
      simp only [Bool.false_eq_true, if_false]
      have hnames := Hostrange.names_block hs
      have hwithin := @toStringLoop_within hr m off n 0 (n + 1) hr.lo (Nat.zero_le n)
      rcases hloop : toStringLoop hr off n (n + 1) hr.lo m 0 with ⟨m', _ | len⟩
      · -- cut short
        rw [hloop] at hwithin
        simp only
        refine .cut (fun hordered => .inr ⟨hs, ?_⟩) (.inr ?_) (.inl (by decide))
          (hwithin.setByte (by omega) (by omega))
        · have hmore := toStringLoop_cut (hordered hs).2 (Nat.zero_le n) (by rw [hloop])
          rwa [Nat.zero_add, ← hnames] at hmore
        · by_contra hgt
          have hstop : ¬ hr.lo ≤ hr.hi := fun hle => hgt (UInt64.le_iff_toNat_le.mp hle)
          rw [toStringLoop, if_neg hstop] at hloop
          cases hloop
      · rw [hloop] at hwithin
        simp only
        obtain ⟨hmax, hlen, -, heq⟩ := toStringLoop_prints (by omega) (Nat.zero_le n) hloop
        rw [Nat.zero_add, ← hnames] at heq
        by_cases hle : hr.lo.toNat ≤ hr.hi.toNat
        · have hpos : 0 < len := by
            have hordered : hr.Ordered := fun _ => ⟨hle, hmax⟩
            have hcount := length_listed_names hordered.names_ne_nil
            rw [Hostrange.listed] at hcount
            omega
          rw [if_neg (by omega)]
          refine .fits (fun _ => ⟨hle, hmax⟩) (by rw [Hostrange.listed]; omega)
            (by rw [Hostrange.listed]; omega) (hwithin.setByte (by omega) (by omega))
        · have hstop : ¬ hr.lo ≤ hr.hi := fun h => hle (UInt64.le_iff_toNat_le.mp h)
          rw [toStringLoop, if_neg hstop] at hloop
          cases hloop
          rw [if_neg (by omega)]
          exact .empty hs (Nat.lt_of_not_le hle) rfl rfl

/-! ## The loop over the ranges -/

/-- What is printed of some ranges, with a comma behind each name. -/
def listedAll (ranges : List Hostrange) : CStr := ranges.flatMap Hostrange.listed

theorem listedAll_eq (ranges : List Hostrange) : listedAll ranges = listed (ranges.flatMap Hostrange.names) := by
  induction ranges with
  | nil => rfl
  | cons hr rest ih =>
      rw [listedAll, List.flatMap_cons, List.flatMap_cons, listed_append, ← ih]
      rfl

/-- Behind `used` bytes a range is printed wrongly: there is no byte left, or it is a single host
that ends where the buffer ends, or it is not in order and all names would fit, or it is an empty
range at the beginning. -/
def Misprinted (n : Nat) (fits : Prop) (used : Nat) (hr : Hostrange) : Prop :=
  used = n ∨ hr.singlehost = true ∧ used + hr.pfx.length = n ∨
    ¬ hr.Ordered ∧ (fits ∨ used = 0 ∧ hr.hi.toNat < hr.lo.toNat)

/-- A range of the list is reached and printed wrongly. -/
def Misprints (n : Nat) (fits : Prop) (len : Nat) (ranges : List Hostrange) : Prop :=
  ∃ before hr after, ranges = before ++ hr :: after ∧ (∀ x ∈ before, x.Ordered) ∧
    len + (listedAll before).length ≤ n ∧ Misprinted n fits (len + (listedAll before).length) hr

theorem Misprints.cons {fits : Prop} (hr : Hostrange) (hordered : hr.Ordered)
    (h : Misprints n fits (len + hr.listed.length) ranges) : Misprints n fits len (hr :: ranges) := by
  obtain ⟨before, x, after, rfl, hbefore, hlen, hwrong⟩ := h
  have hsum : len + (listedAll (hr :: before)).length = len + hr.listed.length + (listedAll before).length := by
    rw [listedAll, List.flatMap_cons, List.length_append, ← Nat.add_assoc]
    rfl
  refine ⟨hr :: before, x, after, rfl, List.forall_mem_cons.mpr ⟨hordered, hbefore⟩, ?_, ?_⟩
  · omega
  · rw [hsum]
    exact hwrong

theorem length_listed_pos (hordered : hr.Ordered) : 0 < hr.listed.length := by
  rw [length_listed_names hordered.names_ne_nil]
  omega

/-- A range that fits. -/
theorem derangedStringLoop_fits {hr : Hostrange} (hordered : hr.Ordered)
    (hret : (hostrangeToString hr m (base + len) (n - len)).2 = hr.listed.length - 1)
    (hlen : hr.listed.length ≤ n - len) :
    derangedStringLoop base n (hr :: ranges) m len = derangedStringLoop base n ranges
      (setByte (hostrangeToString hr m (base + len) (n - len)).1 (base + (len + (hr.listed.length - 1))) ',')
      (len + hr.listed.length) := by
  have hpos := length_listed_pos hordered
  have htoNat : ((hr.listed.length : Int) - 1).toNat = hr.listed.length - 1 := by omega
  have hnext : len + (hr.listed.length - 1) + 1 = len + hr.listed.length := by omega
  rw [derangedStringLoop]
  simp only [hret, htoNat, hnext]
  rw [if_neg (by omega)]

/-- Where nothing is printed wrongly, the loop stays inside the buffer, and is cut short when the
names do not fit. -/
theorem derangedStringLoop_honest (hbase : 0 < base) (hlen : len ≤ n)
    (h : ¬ Misprints n (len + (listedAll ranges).length ≤ n) len ranges) :
    Within base (base + n) m (derangedStringLoop base n ranges m len).1 ∧
      if len + (listedAll ranges).length ≤ n then
        (derangedStringLoop base n ranges m len).2 = (len + (listedAll ranges).length, false)
      else (derangedStringLoop base n ranges m len).2 = (n, true) := by
  induction ranges generalizing m len with
  | nil =>
      rw [if_pos (by simpa [listedAll] using hlen)]
      exact ⟨.refl _ _ _, by simp [listedAll, derangedStringLoop]⟩
  | cons hr rest ih =>
      have htotal : (listedAll (hr :: rest)).length = hr.listed.length + (listedAll rest).length := by
        rw [listedAll, List.flatMap_cons, List.length_append]
        rfl
      have hfirst : ¬ Misprinted n (len + (listedAll (hr :: rest)).length ≤ n) len hr := fun hwrong =>
        h ⟨[], hr, rest, rfl, by simp, hlen, hwrong⟩
      have hroom : len < n := lt_of_le_of_ne hlen fun heq => hfirst (.inl heq)
      cases @hostrangeToString_cases hr m (base + len) (n - len) (by omega) (by omega) with
      | fits hordered hfits hret hm =>
          rw [derangedStringLoop_fits hordered hret hfits]
          have hpos := length_listed_pos hordered
          have hrest : ¬ Misprints n (len + hr.listed.length + (listedAll rest).length ≤ n)
              (len + hr.listed.length) rest := by
            intro hwrong
            refine h (Misprints.cons hr hordered ?_)
            rwa [htotal, ← Nat.add_assoc]
          obtain ⟨hwithin, hresult⟩ := ih (m := setByte (hostrangeToString hr m (base + len) (n - len)).1
            (base + (len + (hr.listed.length - 1))) ',') (by omega) hrest
          rw [htotal, ← Nat.add_assoc len hr.listed.length]
          refine ⟨Within.trans ?_ hwithin, hresult⟩
          exact (hm.mono (by omega) (by omega)).setByte (by omega) (by omega)
      | exact hsingle hexact _ _ => exact absurd (.inr (.inl ⟨hsingle, by omega⟩)) hfirst
      | cut hmore hle hret hm =>
          -- the range does not fit, or is not in order and the names do not fit
          have hover : ¬ len + (listedAll (hr :: rest)).length ≤ n := by
            intro hfits
            by_cases hordered : hr.Ordered
            · rcases hmore hordered with hlong | ⟨-, hlong⟩ <;> omega
            · exact hfirst (.inr (.inr ⟨hordered, .inl hfits⟩))
          rw [if_neg hover, derangedStringLoop]
          simp only
          rw [if_pos (by omega)]
          exact ⟨hm.mono (by omega) (by omega), rfl⟩
      | empty hnumbers hlt hret hm =>
          -- the terminator goes to the place of the last comma, as there is one
          have hdisordered : ¬ hr.Ordered := fun hordered => by
            have := (hordered hnumbers).1
            omega
          have hover : ¬ len + (listedAll (hr :: rest)).length ≤ n := fun hfits =>
            hfirst (.inr (.inr ⟨hdisordered, .inl hfits⟩))
          have hpos : len ≠ 0 := fun h0 => hfirst (.inr (.inr ⟨hdisordered, .inr ⟨h0, hlt⟩⟩))
          rw [if_neg hover, derangedStringLoop]
          simp only
          rw [if_pos (by omega), hm]
          exact ⟨(Within.refl _ _ _).setByte (by omega) (by omega), rfl⟩

/-- Behind the end of the buffer nothing is noticed any more. -/
theorem derangedStringLoop_past (h : n < len) :
    (derangedStringLoop base n ranges m len).1 (base + n) = m (base + n) ∧
      (derangedStringLoop base n ranges m len).2 = (len + ranges.length, false) := by
  induction ranges generalizing m len with
  | nil => exact ⟨rfl, rfl⟩
  | cons hr rest ih =>
      have hnone : n - len = 0 := by omega
      have hstep : hostrangeToString hr m (base + len) (n - len) = (m, 0) := by
        rw [hnone, hostrangeToString, if_pos rfl]
      rw [derangedStringLoop]
      simp only [hstep]
      rw [if_neg (by simp)]
      obtain ⟨hbyte, hresult⟩ := @ih (setByte m (base + (len + Int.toNat 0)) ',')
        (len + Int.toNat 0 + 1) (by omega)
      refine ⟨?_, ?_⟩
      · rw [hbyte, setByte, if_neg (by omega)]
      · rw [hresult, List.length_cons]
        simp only [Prod.mk.injEq, and_true]
        omega

/-- The loop comes to a range behind others that fit. -/
theorem derangedStringLoop_reaches {before : List Hostrange} (hordered : ∀ x ∈ before, x.Ordered)
    (hbase : 0 < base) (hlen : len + (listedAll before).length ≤ n) :
    ∃ m', Within base (base + n) m m' ∧ derangedStringLoop base n (before ++ ranges) m len =
      derangedStringLoop base n ranges m' (len + (listedAll before).length) := by
  induction before generalizing m len with
  | nil => exact ⟨m, .refl _ _ _, rfl⟩
  | cons hr before ih =>
      obtain ⟨hfirst, hrest⟩ := List.forall_mem_cons.mp hordered
      have htotal : (listedAll (hr :: before)).length = hr.listed.length + (listedAll before).length := by
        rw [listedAll, List.flatMap_cons, List.length_append]
        rfl
      have hpos := length_listed_pos hfirst
      rw [htotal, ← Nat.add_assoc] at hlen ⊢
      cases @hostrangeToString_cases hr m (base + len) (n - len) (by omega) (by omega) with
      | fits _ hfits hret hm =>
          obtain ⟨m', hwithin, heq⟩ := ih (m := setByte (hostrangeToString hr m (base + len) (n - len)).1
            (base + (len + (hr.listed.length - 1))) ',') hrest hlen
          refine ⟨m', Within.trans ((hm.mono (by omega) (by omega)).setByte (by omega) (by omega)) hwithin, ?_⟩
          rw [List.cons_append, derangedStringLoop_fits hfirst hret hfits, heq]
      | exact hsingle hexact _ _ =>
          have hcount := length_listed_names hfirst.names_ne_nil
          rw [Hostrange.names_single hsingle, List.intercalate_singleton] at hcount
          omega
      | cut hmore hle _ _ => rcases hmore hfirst with hlong | ⟨-, hlong⟩ <;> omega
      | empty hnumbers hlt _ _ =>
          have := (hfirst hnumbers).1
          omega

/-! ## The whole list -/

theorem fits_iff (hn : 0 < n) : hl.derangedText.length < n ↔ (listedAll hl.hr).length ≤ n := by
  rw [listedAll_eq, Hostlist.derangedText]
  show _ ↔ (listed hl.names).length ≤ n
  by_cases hnil : hl.names = []
  · rw [hnil]
    exact iff_of_true hn (Nat.zero_le n)
  · rw [listed, flatMap_separated ',' hnil, List.length_append, List.length_singleton]
    omega

/-- What follows the loop: the terminator in the place of the last comma, and the result. -/
theorem derangedStringAt_of_loop {cut : Bool} (hrep : hl.nranges = hl.hr.length)
    (h : derangedStringLoop base n hl.hr m 0 = (m', len, cut)) :
    hostlistDerangedStringAt base hl n m =
      (setByte m' (base + (len - 1)) NUL, if cut = true ∨ len - 1 = n then -1 else ((len - 1 : Nat) : Int)) := by
  have htake : hl.hr.take hl.nranges = hl.hr := by rw [hrep, List.take_length]
  have hlast : (if len > 0 then len - 1 else 0) = len - 1 := by
    split <;> omega
  unfold hostlistDerangedStringAt
  simp only [htake, h, hlast]

/-- A byte behind the buffer is written. -/
theorem derangedStringAt_past {before after : List Hostrange} {used : Nat} (hrep : hl.nranges = hl.hr.length)
    (hsplit : hl.hr = before ++ hr :: after)
    (hreach : ∃ m', Within base (base + n) m m' ∧ derangedStringLoop base n (before ++ hr :: after) m 0 =
      derangedStringLoop base n (hr :: after) m' used)
    (hret : ∀ m', (hostrangeToString hr m' (base + used) (n - used)).2 = (n - used : Nat)) (hused : used ≤ n) :
    (hostlistDerangedStringAt base hl n m).1 (base + n) = ',' ∨
      (hostlistDerangedStringAt base hl n m).1 (base + n) = NUL := by
  obtain ⟨m', -, heq⟩ := hreach
  obtain ⟨m'', len, cut, hloop⟩ : ∃ m'' len cut, derangedStringLoop base n hl.hr m 0 = (m'', len, cut) :=
    ⟨_, _, _, rfl⟩
  have hrest := hloop
  rw [hsplit, heq, derangedStringLoop] at hrest
  simp only [hret, Int.toNat_natCast] at hrest
  rw [if_neg (by omega), Nat.add_sub_cancel' hused] at hrest
  obtain ⟨hbyte, hresult⟩ := @derangedStringLoop_past after
    (setByte (hostrangeToString hr m' (base + used) (n - used)).1 (base + n) ',') base n (n + 1) (by omega)
  rw [hrest, setByte, if_pos rfl] at hbyte
  rw [derangedStringAt_of_loop hrep hloop]
  show setByte m'' (base + (len - 1)) NUL (base + n) = _ ∨ setByte m'' (base + (len - 1)) NUL (base + n) = _
  rw [setByte]
  split
  · exact .inr rfl
  · exact .inl hbyte

/-- `hostlist_deranged_string` stays inside its buffer and gives the length of the text, or -1 when
it does not fit, exactly when no range of the list is printed wrongly. The lengths up to `n` are
`int`s. -/
theorem deranged_honest_iff (hrep : hl.nranges = hl.hr.length) (hn : 0 < n) (_hint : n < 2 ^ 31) (hbase : 0 < base) :
    Honest (hostlistDerangedStringAt base hl n) base n hl.derangedText ↔
      ¬ Misprints n (hl.derangedText.length < n) 0 hl.hr := by
  constructor
  · rintro honest ⟨before, hr, after, hsplit, hordered, hlen, hwrong⟩
    have hreach := fun m => @derangedStringLoop_reaches (hr :: after) m base n 0 before hordered hbase hlen
    rw [Nat.zero_add] at hlen hwrong hreach
    -- a byte that is neither a comma nor a terminator shows what is written
    have hmark : ∀ i, ¬ (base ≤ i ∧ i < base + n) →
        (hostlistDerangedStringAt base hl n fun _ => 'x').1 i = 'x' := by
      intro i hi
      exact (honest fun _ => 'x').1 i (by omega)
    have hpast : ¬ ∀ m', (hostrangeToString hr m' (base + (listedAll before).length)
        (n - (listedAll before).length)).2 = (n - (listedAll before).length : Nat) := by
      intro hret
      rcases derangedStringAt_past (m := fun _ => 'x') hrep hsplit (hreach _) hret hlen with h | h
      · rw [hmark _ (by omega)] at h
        exact absurd h (by decide)
      · rw [hmark _ (by omega)] at h
        exact absurd h (by decide)
    by_cases hfull : (listedAll before).length = n
    · refine hpast fun m' => ?_
      rw [hfull, Nat.sub_self, hostrangeToString, if_pos rfl]
      rfl
    have hroom : (listedAll before).length < n := lt_of_le_of_ne hlen hfull
    rcases hwrong with heq | ⟨hsingle, hexact⟩ | ⟨hdisordered, hbad⟩
    · exact hfull heq
    · refine hpast fun m' => ?_
      rw [hostrangeToString, if_neg (by omega), if_pos hsingle]
      show (hr.pfx.length : Int) = _
      omega
    · obtain ⟨m', hm', heq⟩ := hreach fun _ => 'x'
      rw [← hsplit] at heq
      have hcut : ∀ ret : Int, (hostrangeToString hr m' (base + (listedAll before).length)
          (n - (listedAll before).length)).2 = ret → (ret < 0 ∨ ret > (n - (listedAll before).length : Nat)) →
          hostlistDerangedStringAt base hl n (fun _ => 'x') =
            (setByte (hostrangeToString hr m' (base + (listedAll before).length)
              (n - (listedAll before).length)).1 (base + (n - 1)) NUL, -1) := by
        rintro ret rfl hret
        rw [derangedStringLoop] at heq
        simp only at heq
        rw [if_pos hret] at heq
        rw [derangedStringAt_of_loop hrep heq, if_pos (.inl rfl)]
      obtain ⟨hinside, -, hresult⟩ := honest fun _ => 'x'
      have hnotfit : (hostlistDerangedStringAt base hl n fun _ => 'x').2 = -1 → ¬ hl.derangedText.length < n := by
        intro hneg hfits
        rw [if_pos hfits, hneg] at hresult
        omega
      cases @hostrangeToString_cases hr m' (base + (listedAll before).length)
          (n - (listedAll before).length) (by omega) (by omega) with
      | fits hordered' _ _ _ => exact hdisordered hordered'
      | exact hsingle _ _ _ =>
          refine hdisordered fun hfalse => ?_
          rw [hsingle] at hfalse
          cases hfalse
      | cut hmore hle hret hm =>
          have hresult := congrArg Prod.snd (hcut _ rfl hret)
          rcases hbad with hfits | ⟨-, hlt⟩
          · exact hnotfit hresult hfits
          · rcases hle with hordered' | hle
            · exact hdisordered hordered'
            · omega
      | empty hnumbers hlt hret hm =>
          have hwhole := hcut _ hret (.inl (by decide))
          rcases hbad with hfits | ⟨hzero, -⟩
          · exact hnotfit (congrArg Prod.snd hwhole) hfits
          · have hfront := hinside (base - 1) (.inl (by omega))
            rw [hwhole, hm, hzero, Nat.add_zero] at hfront
            have hnul : setByte (setByte m' (base - 1) NUL) (base + (n - 1)) NUL (base - 1) = NUL :=
              (setByte_ne (by omega)).trans setByte_self
            exact absurd (hnul.symm.trans hfront) (show ¬ NUL = 'x' by decide)
  · intro hright m
    have hfits := @fits_iff hl n hn
    rw [propext hfits] at hright
    obtain ⟨hwithin, hresult⟩ := @derangedStringLoop_honest hl.hr m base n 0 hbase (Nat.zero_le n)
      (by rwa [Nat.zero_add])
    rw [Nat.zero_add] at hresult
    by_cases hlen : (listedAll hl.hr).length ≤ n
    · rw [if_pos hlen] at hresult
      have hwhole := derangedStringAt_of_loop hrep (Prod.mk.eta.symm.trans (congrArg (Prod.mk _) hresult))
      rw [if_neg (by simp; omega)] at hwhole
      have hret : (hostlistDerangedStringAt base hl n m).2 = ((listedAll hl.hr).length - 1 : Nat) :=
        congrArg Prod.snd hwhole
      obtain ⟨-, hlength, hprints, hend⟩ := @derangedStringAt_prints hl m base n hrep
        (by omega) (by omega)
      have hroom := hfits.mpr hlen
      refine ⟨?_, ⟨_, hroom, hend⟩, ?_⟩
      · rw [hwhole]
        exact hwithin.setByte (by omega) (by omega)
      · rw [if_pos hroom]
        exact ⟨hlength, hprints.text, hend⟩
    · rw [if_neg hlen] at hresult
      have hwhole := derangedStringAt_of_loop hrep (Prod.mk.eta.symm.trans (congrArg (Prod.mk _) hresult))
      rw [if_pos (.inl rfl)] at hwhole
      rw [hwhole, if_neg fun h => hlen (hfits.mp h)]
      refine ⟨hwithin.setByte (by omega) (by omega), ⟨n - 1, by omega, ?_⟩, rfl⟩
      exact setByte_self

/-- Two hosts in nine bytes. -/
theorem deranged_honest_two : Honest
    (hostlistDerangedStringAt 1 ⟨[⟨"abc".toList, 0, 0, 0, true⟩, ⟨"n".toList, 7, 7, 1, false⟩], 2, 2⟩ 9) 1 9
    "abc,n7".toList := by
  refine (@deranged_honest_iff ⟨[⟨"abc".toList, 0, 0, 0, true⟩, ⟨"n".toList, 7, 7, 1, false⟩], 2, 2⟩ 1 9
    rfl (by decide) (by decide) (by decide)).mpr ?_
  rintro ⟨before, hr, after, hsplit, -, -, hwrong⟩
  have hhr : (listedAll before).length = 0 ∧ hr = ⟨"abc".toList, 0, 0, 0, true⟩ ∨
      (listedAll before).length = 4 ∧ hr = ⟨"n".toList, 7, 7, 1, false⟩ := by
    rcases before with _ | ⟨x, _ | ⟨y, before⟩⟩
    · cases hsplit
      exact .inl ⟨rfl, rfl⟩
    · cases hsplit
      exact .inr ⟨rfl, rfl⟩
    · simp at hsplit
  rcases hhr with ⟨hlen, rfl⟩ | ⟨hlen, rfl⟩
  · rw [hlen] at hwrong
    rcases hwrong with hfull | ⟨-, hexact⟩ | ⟨hdisordered, -⟩
    · cases hfull
    · cases hexact
    · exact hdisordered nofun
  · rw [hlen] at hwrong
    rcases hwrong with hfull | ⟨hsingle, -⟩ | ⟨hdisordered, -⟩
    · cases hfull
    · cases hsingle
    · exact hdisordered fun _ => ⟨Nat.le_refl 7, by decide⟩

/-- A name of three characters in three bytes. -/
theorem deranged_past_end : ¬ Honest
    (hostlistDerangedStringAt 1 ⟨[⟨"abc".toList, 0, 0, 0, true⟩], 1, 1⟩ 3) 1 3 "abc".toList := by
  intro h
  have hbyte := (h fun _ => 'x').1 4 (.inr (by decide))
  exact absurd hbyte (by decide)

end Pdsh
