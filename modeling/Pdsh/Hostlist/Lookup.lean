import Pdsh.Hostlist.Find
import Pdsh.Hostlist.Pushes
import Pdsh.Lib.Erase

/-!
# Lookup and deletion

What `hostlist_find`, `hostlist_delete_host` and `hostlist_delete` do to the
names of a list. Nothing but the searched name is ever found or removed. The
first occurrence of a name is found when it is known to the search, that is
when the digits the name ends in are a number of at most `MAX_HOST_SUFFIX`, or
when it is stored as a single host.
-/

namespace Pdsh

open Lib Lib.Decimal

variable {hl : Hostlist} {h : CStr} {B : Nat}

/-! ## `hostlist_delete` -/

/-- The names `hostlist_pop` gives, one after the other. -/
def popAll : Nat → Hostlist → List CStr
  | 0, _ => []
  | fuel + 1, hl =>
      match hostlistPop hl with
      | (none, _) => []
      | (some name, hl') => name :: popAll fuel hl'

/-- The hosts `hostlist_delete` deletes, in its order. -/
def hostsToDelete (slack hosts : CStr) : List CStr :=
  match hostlistCreate slack hosts with
  | .ret (some hltmp) => popAll hltmp.nhosts.toInt.toNat hltmp
  | _ => []

/-- A list after some deleting: the invariant and the bounds, and of the stored
names those that are left. -/
structure Deleted (hl : Hostlist) (left : List (Bool × CStr)) (hl' : Hostlist) : Prop where
  wf : hl'.Wf
  below : ∀ B, hl.Below B → hl'.Below B
  stored : hl'.stored = left

/-- Deleting one host erases the first entry the search sees. -/
theorem hostlistDeleteHost_deleted (hw : hl.Wf) (hs : hl.Small) (h : CStr) :
    Deleted hl (hl.stored.eraseP (known h)) (hostlistDeleteHost hl h).2 := by
  rw [List.eraseP_eq_eraseIdx]
  rcases hostlistDeleteHost_spec hw hs h with ⟨hnone, -, hrw⟩ | ⟨k, hsome, -, hrem, hstored⟩
  · rw [hnone]
    exact ⟨hrw.wf hw, fun B hB => hrw.below hB, hrw.stored⟩
  · rw [hsome]
    exact ⟨hrem.wf, hrem.below, hstored⟩

theorem Hostlist.length_stored (hl : Hostlist) : hl.stored.length = hl.names.length := by
  rw [← hl.stored_map_snd, List.length_map]

theorem Deleted.small {left : List (Bool × CStr)} {hl' : Hostlist} (hd : Deleted hl left hl')
    (hlen : left.length ≤ hl.stored.length) (hs : hl.Small) : hl'.Small := by
  have hsmall : hl.names.length < 2 ^ 31 := hs
  rw [Hostlist.Small, ← Hostlist.length_stored, hd.stored]
  rw [Hostlist.length_stored] at hlen
  omega

/-- Deleting hosts one by one erases one entry for each. -/
theorem hostlistDeleteLoop_deleted {fuel : Nat} (hltmp : Hostlist) {n : Int32} (hw : hl.Wf)
    (hs : hl.Small) :
    Deleted hl ((popAll fuel hltmp).foldl (fun l h => l.eraseP (known h)) hl.stored)
      (hostlistDeleteLoop fuel hltmp hl n).2 := by
  induction fuel generalizing hltmp hl n with
  | zero => exact ⟨hw, fun _ hB => hB, rfl⟩
  | succ fuel ih =>
      unfold hostlistDeleteLoop popAll
      rcases hostlistPop hltmp with ⟨_ | name, hltmp'⟩
      · exact ⟨hw, fun _ hB => hB, rfl⟩
      · have hone := hostlistDeleteHost_deleted hw hs name
        have hrest := ih hltmp' (n := n + (hostlistDeleteHost hl name).1) hone.wf
          (hone.small List.eraseP_sublist.length_le hs)
        refine ⟨hrest.wf, fun B hB => hrest.below B (hone.below B hB), ?_⟩
        simp only [List.foldl_cons]
        rw [hrest.stored, hone.stored]

theorem hostlistDelete_deleted (hw : hl.Wf) (hs : hl.Small) {slack hosts : CStr}
    {r : Int32 × Hostlist} (hret : hostlistDelete slack hl hosts = .ret r) :
    Deleted hl ((hostsToDelete slack hosts).foldl (fun l h => l.eraseP (known h)) hl.stored) r.2 := by
  obtain ⟨hltmp, hcreate, hr⟩ := Run.bind_eq_ret_iff.mp hret
  rw [hostsToDelete, hcreate]
  cases hltmp with
  | none =>
      cases hr
      exact ⟨hw, fun _ hB => hB, rfl⟩
  | some hltmp =>
      cases hr
      exact hostlistDeleteLoop_deleted _ hw hs

theorem known_iff {e : Bool × CStr} :
    known h e = true ↔ e.2 = h ∧ (e.1 || (hostnameCreate h).suffix.isSome) = true := by
  simp only [known, Bool.and_eq_true, decide_eq_true_eq]

/-- Erasing entries of some names leaves the entries of all others. -/
theorem eraseP_known_sublist (hosts : List CStr) (l : List (Bool × CStr)) :
    (hosts.foldl (fun l h => l.eraseP (known h)) l).Sublist l ∧
      ∀ x, x ∉ hosts → ((hosts.foldl (fun l h => l.eraseP (known h)) l).map Prod.snd).count x =
        (l.map Prod.snd).count x := by
  refine ⟨eraseAll_sublist hosts l, fun x hx => ?_⟩
  have hcount : ((eraseAll known hosts l).flatMap fun e => [e.2]).count x =
      (l.flatMap fun e => [e.2]).count x := by
    apply count_flatMap_eraseAll
    intro e _ h hmem hk hxe
    rw [List.mem_singleton, (known_iff.mp hk).1] at hxe
    exact hx (hxe ▸ hmem)
  rw [← List.map_eq_flatMap, ← List.map_eq_flatMap] at hcount
  exact hcount

theorem pow15_le : 10 ^ 15 ≤ ULONG_MAX.toNat := by
  rw [ULONG_MAX_toNat]
  decide

/-- Popping gives the names back when the numbers fit the buffer. -/
theorem popAll_eq {fuel : Nat} (hw : hl.Wf) (hs : hl.Small) (hb : hl.Below (10 ^ 15))
    (hfuel : hl.names.length ≤ fuel) : popAll fuel hl = hl.names.reverse := by
  induction fuel generalizing hl with
  | zero =>
      have hnil : hl.names = [] := List.length_eq_zero_iff.mp (Nat.le_zero.mp hfuel)
      rw [hnil]
      rfl
  | succ fuel ih =>
      unfold popAll
      rcases hostlistPop_spec hw hs (hb.mono pow15_le) with
        ⟨hnil, heq⟩ | ⟨c, pre, name, hhr, hsnoc, hmem, htext, hrem⟩
      · rw [heq, hnil]
        rfl
      · rw [c.cut_eq (hb.fits c (by simp [hhr])) hmem] at htext
        have hpop : hostlistPop hl = (some name, (hostlistPop hl).2) := Prod.ext htext rfl
        have hsmall : hl.names.length < 2 ^ 31 := hs
        have hlen : (hostlistPop hl).2.names.length = hl.names.length - 1 := by
          rw [hrem.names, List.length_dropLast]
        have hless : (hostlistPop hl).2.Small := by
          rw [Hostlist.Small, hlen]
          omega
        rw [hpop]
        show name :: popAll fuel (hostlistPop hl).2 = _
        rw [ih hrem.wf hless (hrem.below _ hb) (by omega), hrem.names]
        conv_rhs => rw [hsnoc]
        rw [List.reverse_append, List.reverse_singleton]
        rfl

theorem NumbersBelow.mono {B' : Nat} {str : CStr} (h : NumbersBelow B str) (hle : B ≤ B') : NumbersBelow B' str :=
  fun tok htok r hr => Nat.lt_of_lt_of_le (h tok htok r hr) hle

/-- With small numbers, the hosts to delete are the names read, from the last to
the first. -/
theorem hostsToDelete_eq {slack hosts : CStr} {names : List CStr}
    (hnum : NumbersBelow (10 ^ 15) hosts) (hexp : expand slack hosts = .ret (some names))
    (hlen : names.length < 2 ^ 31) : hostsToDelete slack hosts = names.reverse := by
  have hrel := hostlistCreate_rel slack pow15_le
    (by rw [MAX_HOST_SUFFIX_toNat]; decide) hnum
  rw [hexp] at hrel
  obtain ⟨hltmp, hcreate, hrel⟩ := hrel.ret_left
  cases hrel with
  | @some _ hltmp happ =>
      have hnames : hltmp.names = names := by simpa using happ.names
      have hsmall : hltmp.Small := by
        rw [Hostlist.Small, hnames]
        exact hlen
      rw [hostsToDelete, hcreate]
      simp only
      rw [popAll_eq happ.wf hsmall happ.below, hnames]
      rw [happ.wf.nhosts_toInt hsmall, Int.toNat_natCast]

/-! ## Soundness -/

/-- Whatever `hostlist_find` finds is the name searched for, and it changes no
name; `hostlist_delete_host` takes off one host of that name or nothing;
`hostlist_delete` takes off hosts of names it was given only, which are names
that were popped off the parsed list and, for small numbers, the names the
string stands for. -/
theorem hostlistFind_sound (hw : hl.Wf) (hs : hl.Small) (h : CStr) :
    (0 ≤ (hostlistFind hl h).1.toInt →
        hl.names[(hostlistFind hl h).1.toInt.toNat]? = some h) ∧
      (hostlistFind hl h).2.names = hl.names ∧
      ((hostlistDeleteHost hl h).2.names = hl.names ∨
        ∃ k : Nat, hl.names[k]? = some h ∧
          (hostlistDeleteHost hl h).2.names = hl.names.eraseIdx k) ∧
      ∀ slack hosts r, hostlistDelete slack hl hosts = .ret r →
        r.2.names.Sublist hl.names ∧
        (∀ x, x ∉ hostsToDelete slack hosts → r.2.names.count x = hl.names.count x) ∧
        ∀ names, NumbersBelow (2 ^ 32) hosts → expand slack hosts = .ret (some names) →
          names.length < 2 ^ 31 → ∀ x, x ∉ names → r.2.names.count x = hl.names.count x := by
  obtain ⟨hrw, hpos⟩ := hostlistFind_spec hw.ranges hw.nranges h
  refine ⟨fun hnonneg => ?_, hrw.names, ?_, fun slack hosts r hret => ?_⟩
  · -- the answer is the position of an entry with the name, which an int can hold
    rw [hpos] at hnonneg ⊢
    cases hfind : hl.stored.findIdx? (known h) with
    | none =>
        rw [hfind] at hnonneg
        exact absurd hnonneg (by decide)
    | some k =>
        have hget := known_getElem? hfind
        have hlt := (List.getElem?_eq_some_iff.mp hget).1
        have hsmall : hl.names.length < 2 ^ 31 := hs
        simp only [positionOf]
        rw [Int32.toInt_ofNat_of_lt (by omega), Int.toNat_natCast, hget]
  · rcases hostlistDeleteHost_spec hw hs h with ⟨-, -, hrw'⟩ | ⟨k, hsome, -, hrem, -⟩
    · exact .inl hrw'.names
    · exact .inr ⟨k, known_getElem? hsome, hrem.names⟩
  · -- each name that is popped takes off one entry with that name
    have hdel := hostlistDelete_deleted hw hs hret
    obtain ⟨hsub, hcount⟩ := eraseP_known_sublist (hostsToDelete slack hosts) hl.stored
    have hnames : r.2.names = ((hostsToDelete slack hosts).foldl
        (fun l h => l.eraseP (known h)) hl.stored).map Prod.snd := by
      rw [← hdel.stored, Hostlist.stored_map_snd]
    have hothers : ∀ x, x ∉ hostsToDelete slack hosts →
        r.2.names.count x = hl.names.count x := by
      intro x hx
      rw [hnames, hcount x hx, Hostlist.stored_map_snd]
    refine ⟨?_, hothers, fun names hnum hexp hlen x hx => hothers x ?_⟩
    · rw [hnames, ← hl.stored_map_snd]
      exact hsub.map _
    · rw [hostsToDelete_eq (hnum.mono (by decide)) hexp hlen, List.mem_reverse]
      exact hx

/-- The second host of a padded range, found and deleted by its name. -/
theorem hostlistFind_sound_padded :
    (⟨[⟨"n".toList, 8, 10, 2, false⟩], 1, 3⟩ : Hostlist).names[1]? = some "n09".toList ∧
      (hostlistFind ⟨[⟨"n".toList, 8, 10, 2, false⟩], 1, 3⟩ "n09".toList).2.names =
        ["n08".toList, "n09".toList, "n10".toList] := by
  have hw : (⟨[⟨"n".toList, 8, 10, 2, false⟩], 1, 3⟩ : Hostlist).Wf :=
    ⟨by simpa using ⟨by decide, by decide⟩, rfl, rfl⟩
  obtain ⟨hget, hnames, -⟩ := hostlistFind_sound hw (by decide) "n09".toList
  exact ⟨hget (by decide), hnames⟩

/-- `a` to `d`, each with the numbers below `2^30`, and one host behind them. -/
def manyBefore : Hostlist :=
  ⟨[⟨['a'], 0, 1073741823, 1, false⟩, ⟨['b'], 0, 1073741823, 1, false⟩, ⟨['c'], 0, 1073741823, 1, false⟩,
    ⟨['d'], 0, 1073741823, 1, false⟩, ⟨['n'], 2, 2, 1, false⟩], 5, 1⟩

theorem manyBefore_wf : manyBefore.Wf := by
  have hlength (c : Char) : (Hostrange.names ⟨[c], 0, 1073741823, 1, false⟩).length = 2 ^ 30 := by
    rw [Hostrange.names_block rfl, length_block]
    exact (by decide : (1073741823 : UInt64).toNat + 1 - (0 : UInt64).toNat = 2 ^ 30)
  refine ⟨fun hr hmem => ?_, rfl, ?_⟩
  · simp only [manyBefore, List.mem_cons, List.not_mem_nil, or_false] at hmem
    rcases hmem with rfl | rfl | rfl | rfl | rfl <;> exact ⟨by decide, fun hs => by cases hs⟩
  · rw [Hostlist.names, manyBefore]
    simp only [List.flatMap_cons, List.length_append, hlength]
    rfl

/-- An `int` counts the `2^32` hosts in front of `n2` as none: it is found where `a0` is, and
`a0` is deleted. -/
theorem hostlistFind_wraps : manyBefore.Wf ∧ (hostlistFind manyBefore "n2".toList).1 = 0 ∧
    manyBefore.names[0]? = some "a0".toList ∧
    (hostlistDeleteHost manyBefore "n2".toList).2.hr =
      ⟨['a'], 1, 1073741823, 1, false⟩ :: manyBefore.hr.tail := by
  refine ⟨manyBefore_wf, by decide, ?_, by decide⟩
  have hfirst := Hostrange.names_eq_cons (manyBefore_wf.ranges _ List.mem_cons_self)
  rw [Hostlist.names, manyBefore, List.flatMap_cons, hfirst]
  rfl

/-! ## Completeness -/

/-- The first entry of a name. -/
theorem stored_find?_eq (hmem : h ∈ hl.names) :
    ∃ e, hl.stored.find? (·.2 = h) = some e ∧ e.2 = h ∧ hl.stored[hl.names.idxOf h]? = some e ∧
      ∀ j e', j < hl.names.idxOf h → hl.stored[j]? = some e' → e'.2 ≠ h := by
  have hidx : hl.names.idxOf h = hl.stored.findIdx (·.2 = h) := by
    rw [← hl.stored_map_snd, List.idxOf, List.findIdx_map]
    congr 1
    funext e
    exact Bool.beq_eq_decide_eq _ _
  have hlt : hl.stored.findIdx (·.2 = h) < hl.stored.length := by
    rw [← hidx, Hostlist.length_stored]
    exact List.idxOf_lt_length_of_mem hmem
  have hget := List.getElem?_eq_getElem hlt
  have hname := List.findIdx_getElem (w := hlt)
  refine ⟨hl.stored[hl.stored.findIdx (·.2 = h)], ?_, by simpa using hname, by rw [hidx, hget], ?_⟩
  · rw [List.find?_eq_some_iff_getElem]
    exact ⟨hname, _, hlt, rfl, fun j hj => by simpa using List.not_of_lt_findIdx hj⟩
  · intro j e' hj hget' hname'
    rw [hidx] at hj
    have hnot := List.not_of_lt_findIdx hj
    rw [List.getElem?_eq_getElem (Nat.lt_trans hj hlt), Option.some.injEq] at hget'
    rw [hget'] at hnot
    simp [hname'] at hnot

/-- The first occurrence of a name is one the search knows, at a position that is an `int`: the name
splits, or it is stored as a single host there. -/
def FirstKnown (hl : Hostlist) (h : CStr) : Prop :=
  (hl.stored.find? (·.2 = h)).any (fun e => e.1 || (hostnameCreate h).suffix.isSome) = true ∧
    hl.names.idxOf h < 2 ^ 31

instance (hl : Hostlist) (h : CStr) : Decidable (FirstKnown hl h) := inferInstanceAs (Decidable (_ ∧ _))

/-- The search returns the first occurrence of a name of the list when it can know that occurrence,
and only then, as long as two positions are not one `int`. The ranges are to be in order: a push
behind `ULONG_MAX` can make one that is not. -/
theorem hostlistFind_first_iff (hb : Built (2 ^ 64) hl) (hord : ∀ hr ∈ hl.hr, hr.lo.toNat ≤ hr.hi.toNat)
    (hmem : h ∈ hl.names) :
    (FirstKnown hl h → (hostlistFind hl h).1.toInt = hl.names.idxOf h) ∧
      (hl.names.length ≤ 2 ^ 32 → (hostlistFind hl h).1.toInt = hl.names.idxOf h → FirstKnown hl h) := by
  obtain ⟨hn, hsingle⟩ := hb.ranges
  obtain ⟨-, hpos⟩ := hostlistFind_spec (fun hr hx => ⟨hord hr hx, hsingle hr hx⟩) hn h
  obtain ⟨e, hfind, hname, hget, hbefore⟩ := stored_find?_eq hmem
  have hknown : known h e = (e.1 || (hostnameCreate h).suffix.isSome) := by
    simp [known, hname]
  unfold FirstKnown
  rw [hfind, Option.any_some, ← hknown, hpos]
  obtain ⟨hlt, hat⟩ := List.getElem?_eq_some_iff.mp hget
  constructor
  · rintro ⟨hk, h31⟩
    have hidx : hl.stored.findIdx? (known h) = some (hl.names.idxOf h) := by
      rw [List.findIdx?_eq_some_iff_getElem]
      refine ⟨hlt, by rw [hat]; exact hk, fun j hj hkj => ?_⟩
      simp only [known, Bool.and_eq_true, decide_eq_true_eq] at hkj
      exact hbefore j _ hj (List.getElem?_eq_getElem _) hkj.1
    rw [hidx, positionOf, Int32.toInt_ofNat_of_lt h31]
  · intro hlen hint
    cases hk : hl.stored.findIdx? (known h) with
    | none =>
        rw [hk] at hint
        have : (positionOf none).toInt = -1 := rfl
        omega
    | some k =>
        obtain ⟨hklt, hkk, -⟩ := List.findIdx?_eq_some_iff_getElem.mp hk
        rw [Hostlist.length_stored] at hklt
        have hkname : (hl.stored[k]).2 = h := by
          simp only [known, Bool.and_eq_true, decide_eq_true_eq] at hkk
          exact hkk.1
        have hge : hl.names.idxOf h ≤ k := by
          by_contra hlt'
          exact hbefore k _ (by omega) (List.getElem?_eq_getElem _) hkname
        -- below `2^32` a position and its `int` differ only by going negative
        have hsize : Int32.size = 4294967296 := rfl
        rw [hk, positionOf, Int32.toInt_ofNat', Int.bmod_def, hsize] at hint
        have heq : k = hl.names.idxOf h ∧ k < 2 ^ 31 := by
          split at hint <;> omega
        obtain ⟨rfl, hk31⟩ := heq
        rw [hat] at hkk
        exact ⟨hkk, hk31⟩

/-- A host of a range of large numbers is in the list and not found. -/
theorem hostlistFind_misses_large : ∃ hl, Built (2 ^ 64) hl ∧
    "n33554433".toList ∈ hl.names ∧ hl.names.idxOf "n33554433".toList = 0 ∧
    (hostlistFind hl "n33554433".toList).1 = -1 := by
  refine ⟨⟨[⟨"n".toList, 33554433, 33554434, 8, false⟩], 1, 2⟩, ?_, by decide, by decide,
    by decide⟩
  exact @Built.create _ [] "n[33554433-33554434]".toList _ (by decide) (by decide)

/-- The same name is found where it is stored as a single host. -/
theorem hostlistFind_first_single :
    (hostlistFind ⟨[⟨"n33554433".toList, 0, 0, 0, true⟩], 1, 1⟩ "n33554433".toList).1.toInt =
      (⟨[⟨"n33554433".toList, 0, 0, 0, true⟩], 1, 1⟩ : Hostlist).names.idxOf
        "n33554433".toList := by
  have hb : Built (2 ^ 64) ⟨[⟨"n33554433".toList, 0, 0, 0, true⟩], 1, 1⟩ :=
    @Built.create _ [] "n33554433".toList _ (by decide) (by decide)
  exact (hostlistFind_first_iff hb (by decide) (by decide)).1 (by decide)

end Pdsh
