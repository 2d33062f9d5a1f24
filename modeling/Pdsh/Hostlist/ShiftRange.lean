import Pdsh.Hostlist.Bracket
import Pdsh.Hostlist.Reread
import Pdsh.Lib.Drain
import Mathlib.Data.List.SplitBy
import Mathlib.Data.List.DropRight

/-!
# Taking whole brackets off a list

`hostlist_shift_range` and `hostlist_pop_range` take the ranges that go into one bracket off an end of
the list and return their text. Both push these ranges onto a temporary list and take as many slots
off the array as that list has ranges. A push joins a range to the last one where it goes on there,
and a list from which hosts were deleted may hold ranges that join: then slots are left behind whose
ranges have been destroyed.
-/

namespace Pdsh

open Lib Lib.Chunks Lib.Decimal Lib.Memory

variable {hl hl' : Hostlist} {hr : Hostrange} {more rest : List Hostrange}

/-! ## The source -/

/-- `MAXHOSTRANGELEN`, also the size of the buffer of `hostlist_shift_range`. -/
def MAXHOSTRANGELEN : Nat := 1024

/-- The array of a list, with its counters; `none` is a slot whose range has been destroyed. -/
structure Slots where
  hr : List (Option Hostrange)
  nranges : Nat
  nhosts : Int32
deriving DecidableEq, Repr

/-- The array of a list nothing was done to. -/
def Hostlist.slots (hl : Hostlist) : Slots := ⟨hl.hr.map some, hl.nranges, hl.nhosts⟩

/-- The `do` loop of `hostlist_shift_range` behind its first push: the temporary list, and `i`. -/
def shiftRangeLoop : List Hostrange → Hostlist → Nat → Hostlist × Nat
  | [], hltmp, i => (hltmp, i)
  | hr :: rest, hltmp, i =>
      if hltmp.hr.head?.any (hostrangeWithinRange · (some hr)) then
        shiftRangeLoop rest (hostlistPushRange hltmp hr).1 (i + 1)
      else (hltmp, i)

/-- `for (; i < hl->nranges; i++)` of `hostlist_shift_range`, with `k` rounds to go; the temporary list
has `m` ranges. -/
def shiftBackLoop (m : Nat) : Nat → Nat → List (Option Hostrange) → List (Option Hostrange)
  | 0, _, hr => hr
  | k + 1, i, hr => shiftBackLoop m k (i + 1) ((hr.set (i - m) hr[i]?.join).set i none)

/-- `hostlist_shift_range`: the text, or NULL, and the array. `buf` is what its buffer holds. -/
def hostlistShiftRange (buf : Mem) (hl : Hostlist) : Option CStr × Slots :=
  match hl.hr.take hl.nranges with
  | [] => (none, hl.slots)
  | hr :: rest =>
      let done := shiftRangeLoop rest (hostlistPushRange hostlistNew hr).1 1
      let hltmp := done.1
      -- the ranges up to `i` have been destroyed
      let slots := List.replicate done.2 none ++ ((hr :: rest).drop done.2).map some
      (some (strdup (hostlistRangedString hltmp 1024 buf).1 1024),
        ⟨shiftBackLoop hltmp.nranges (hl.nranges - done.2) done.2 slots, hl.nranges - hltmp.nranges,
          hl.nhosts - hltmp.nhosts⟩)

/-- `hostlist_pop_range`: the text, or NULL, and the array. -/
def hostlistPopRange (buf : Mem) (hl : Hostlist) : Option CStr × Slots :=
  match (hl.hr.take hl.nranges).getLast? with
  | none => (none, hl.slots)
  | some tail =>
      let front := (hl.hr.take hl.nranges).dropLast.rdropWhile fun hr => hostrangeWithinRange tail (some hr)
      let group := (hl.hr.take hl.nranges).drop front.length
      let hltmp := pushRanges hostlistNew group
      (some (strdup (hostlistRangedString hltmp MAXHOSTRANGELEN buf).1 MAXHOSTRANGELEN),
        ⟨front.map some ++ group.map fun _ => none, hl.nranges - hltmp.nranges, hl.nhosts - hltmp.nhosts⟩)

/-! ## What a call hands out -/

/-- The array and the counters are those of the list. -/
structure Slots.Holds (s : Slots) (hl : Hostlist) : Prop where
  hr : s.hr.take s.nranges = hl.hr.map some
  nranges : s.nranges = hl.nranges
  nhosts : s.nhosts = hl.nhosts

/-- Whatever its buffer holds, a call returns a text for some hosts and leaves a list in order. -/
structure HandsOut (call : Mem → Hostlist → Option CStr × Slots) (hl : Hostlist) (part : List CStr) (hl' : Hostlist) :
    Prop where
  ne_nil : part ≠ []
  text : ∀ buf, ∃ t, (call buf hl).1 = some t ∧ Expands t part
  left : ∀ buf, (call buf hl).2.Holds hl'
  wf : hl'.Wf

/-- The call returns NULL and leaves the list alone, which is empty. -/
def ReturnsNull (call : Mem → Hostlist → Option CStr × Slots) (hl : Hostlist) : Prop :=
  hl.names = [] ∧ ∀ buf, call buf hl = (none, hl.slots)

/-- `hostlist_shift_range` hands out leading hosts of a list until it returns NULL, and each host once. -/
def ShiftedOut : Hostlist → Prop :=
  Drained (fun hl part hl' => HandsOut hostlistShiftRange hl part hl' ∧ hl.names = part ++ hl'.names)
    (ReturnsNull hostlistShiftRange)

/-- `hostlist_pop_range` hands out trailing hosts of a list until it returns NULL, and each host once. -/
def PoppedOut : Hostlist → Prop :=
  Drained (fun hl part hl' => HandsOut hostlistPopRange hl part hl' ∧ hl.names = hl'.names ++ part)
    (ReturnsNull hostlistPopRange)

/-! ## Blocks of a list -/

/-- The ranges of a list, those together that go into one bracket. -/
def Hostlist.blocks (hl : Hostlist) : List (List Hostrange) := hl.hr.splitBy together

/-- A block that is handed out as it should be: no two neighbours join, the text fits the buffer and
is a C string, and it is read back. -/
structure Returned (hr : Hostrange) (more : List Hostrange) : Prop where
  apart : (hr :: more).IsChain fun a b => ¬ Joins a b
  short : (blockText (hr :: more)).length < 1024
  clean : NUL ∉ blockText (hr :: more)
  reads : Rereads hr more

/-! ## The loops -/

theorem together_congr {a b x : Hostrange} (hpfx : a.pfx = b.pfx) (hs : a.singlehost = b.singlehost) :
    together a x = together b x := by
  rw [Bool.eq_iff_iff, together_iff, together_iff, hpfx, hs]

/-- A push keeps prefix and kind of the first range. -/
theorem push_head {hltmp : Hostlist} {f : Hostrange} (hn : hltmp.nranges = hltmp.hr.length)
    (hhead : hltmp.hr.head? = some f) (r : Hostrange) :
    ∃ f', (hostlistPushRange hltmp r).1.hr.head? = some f' ∧ f'.pfx = f.pfx ∧ f'.singlehost = f.singlehost := by
  cases (hostlistPushRange_on hn r).2 with
  | @merged pre tail w heq hpfx hkind hnext hleft hright heq' =>
      rw [heq] at hhead
      rw [heq']
      cases pre with
      | nil =>
          cases hhead
          exact ⟨_, rfl, rfl, rfl⟩
      | cons x pre =>
          cases hhead
          exact ⟨_, rfl, rfl, rfl⟩
  | appended heq' =>
      refine ⟨f, ?_, rfl, rfl⟩
      rw [heq', List.head?_append, hhead]
      rfl

/-- The loop pushes the ranges that go together with the first one. -/
theorem shiftRangeLoop_eq {hltmp : Hostlist} {f : Hostrange} {i : Nat} (hn : hltmp.nranges = hltmp.hr.length)
    (hhead : hltmp.hr.head? = some f) (hpfx : f.pfx = hr.pfx) (hs : f.singlehost = hr.singlehost)
    (hmore : ∀ x ∈ more, together hr x = true) (hstop : ∀ x ∈ rest.head?, together hr x = false) :
    shiftRangeLoop (more ++ rest) hltmp i = (pushRanges hltmp more, i + more.length) := by
  induction more generalizing hltmp f i with
  | nil =>
      cases rest with
      | nil => rfl
      | cons x rest =>
          have hout : hltmp.hr.head?.any (hostrangeWithinRange · (some x)) = false := by
            rw [hhead]
            exact (together_congr hpfx hs).trans (hstop x rfl)
          rw [List.nil_append, shiftRangeLoop, hout, if_neg Bool.false_ne_true]
          rfl
  | cons x more ih =>
      obtain ⟨hx, hrest⟩ := List.forall_mem_cons.mp hmore
      have hin : hltmp.hr.head?.any (hostrangeWithinRange · (some x)) = true := by
        rw [hhead]
        exact (together_congr hpfx hs).trans hx
      obtain ⟨f', hhead', hpfx', hs'⟩ := push_head hn hhead x
      rw [List.cons_append, shiftRangeLoop, if_pos hin,
        ih (hostlistPushRange_on hn x).1 hhead' (hpfx'.trans hpfx) (hs'.trans hs) hrest, List.length_cons]
      simp only [pushRanges, List.foldl_cons, Prod.mk.injEq, true_and]
      omega

/-- The ranges behind move to the front, over the last `m` of the slots in front of them. -/
theorem shiftBackLoop_eq {m : Nat} {front gap behind : List (Option Hostrange)} (hm : gap.length = m) (hpos : 0 < m) :
    (shiftBackLoop m behind.length (front.length + m) (front ++ gap ++ behind)).take (front.length + behind.length) =
      front ++ behind := by
  induction behind generalizing front gap with
  | nil =>
      rw [List.length_nil, shiftBackLoop, Nat.add_zero, List.append_nil, List.append_nil, List.take_left]
  | cons x behind ih =>
      obtain ⟨g, gap, rfl⟩ := List.exists_cons_of_length_pos (by omega : 0 < gap.length)
      have hget : (front ++ g :: gap ++ x :: behind)[front.length + m]?.join = x := by
        rw [List.getElem?_append_right (by rw [List.length_append, hm]), List.length_append, hm, Nat.sub_self]
        rfl
      have hmoved : ((front ++ g :: gap ++ x :: behind).set (front.length + m - m) x).set (front.length + m) none =
          front ++ [x] ++ (gap ++ [none]) ++ behind := by
        rw [Nat.add_sub_cancel, List.append_assoc, List.set_append_right _ _ (Nat.le_refl _), Nat.sub_self,
          List.cons_append, List.set_cons_zero, List.set_append_right _ _ (by omega), Nat.add_sub_cancel_left, ← hm,
          List.length_cons, List.set_cons_succ, List.set_append_right _ _ (Nat.le_refl _), Nat.sub_self,
          List.set_cons_zero]
        simp
      rw [List.length_cons, shiftBackLoop, hget, hmoved]
      have hnext := @ih (front ++ [x]) (gap ++ [none]) (by
        rw [List.length_append, ← hm]
        rfl)
      rw [List.length_append, List.length_singleton] at hnext
      rw [show front.length + m + 1 = front.length + 1 + m by omega,
        show front.length + (behind.length + 1) = front.length + 1 + behind.length by omega, hnext, List.append_assoc]
      rfl

/-! ## The counters -/

theorem int32_ofNat_sub (a b : Nat) : Int32.ofNat (a + b) - Int32.ofNat a = Int32.ofNat b := by
  rw [← int32_ofNat_add, Int32.add_comm, Int32.add_sub_cancel]

theorem pushRanges_nhosts {rs : List Hostrange} (hw : ∀ r ∈ rs, r.Wf) (hltmp : Hostlist) :
    (pushRanges hltmp rs).nhosts = hltmp.nhosts + Int32.ofNat (rs.flatMap Hostrange.names).length := by
  induction rs generalizing hltmp with
  | nil => exact (Int32.add_zero _).symm
  | cons r rs ih =>
      obtain ⟨hr, hrest⟩ := List.forall_mem_cons.mp hw
      show (pushRanges (hostlistPushRange hltmp r).1 rs).nhosts = _
      rw [ih hrest, pushRange_nhosts, intOfUlong_count hr, List.flatMap_cons, List.length_append,
        ← int32_ofNat_add, Int32.add_assoc]

/-! ## One call -/

/-- A call has taken a block off the list and left these slots. -/
structure TookOff (result : Option CStr × Slots) (buf : Mem) (hl : Hostlist) (block : List Hostrange)
    (left : List (Option Hostrange)) : Prop where
  text : result.1 = some (strdup (hostlistRangedString (pushRanges hostlistNew block) 1024 buf).1 1024)
  hr : result.2.hr.take result.2.nranges = left
  nranges : result.2.nranges = hl.nranges - (pushRanges hostlistNew block).nranges
  nhosts : result.2.nhosts = hl.nhosts - (pushRanges hostlistNew block).nhosts

/-- The slots that are still there although their ranges have been destroyed. -/
def deadSlots (block : List Hostrange) : List (Option Hostrange) :=
  List.replicate (block.length - (pushRanges hostlistNew block).nranges) none

theorem block_together (hchain : (hr :: more).IsChain fun a b => together a b = true) :
    ∀ x ∈ more, together hr x = true := by
  intro x hx
  obtain ⟨hs, hxs, hpfx⟩ := block_member hchain hx
  exact together_iff.mpr ⟨hpfx.symm, hs, hxs⟩

theorem pushRanges_pos (hr : Hostrange) (more : List Hostrange) :
    0 < (pushRanges hostlistNew (hr :: more)).nranges := by
  have hmono : ∀ (rs : List Hostrange) (hltmp : Hostlist), hltmp.nranges ≤ (pushRanges hltmp rs).nranges := by
    intro rs
    induction rs with
    | nil => exact fun _ => Nat.le_refl _
    | cons r rs ih =>
        intro hltmp
        refine Nat.le_trans ?_ (ih (hostlistPushRange hltmp r).1)
        unfold hostlistPushRange
        split
        · exact Nat.le_refl _
        · exact Nat.le_succ _
  exact Nat.lt_of_lt_of_le Nat.zero_lt_one (hmono more (hostlistPushRange hostlistNew hr).1)

/-- `hostlist_shift_range` takes off the first block. -/
theorem shiftRange_tookOff (hn : hl.nranges = hl.hr.length) (hhr : hl.hr = hr :: more ++ rest)
    (hchain : (hr :: more).IsChain fun a b => together a b = true)
    (hstop : ∀ x ∈ rest.head?, together hr x = false) (buf : Mem) :
    TookOff (hostlistShiftRange buf hl) buf hl (hr :: more) (deadSlots (hr :: more) ++ rest.map some) := by
  have hpushes := (pushRanges_block hchain).1
  have hpos := pushRanges_pos hr more
  have hfirst : (hostlistPushRange hostlistNew hr).1.hr.head? = some (hostrangeCopy hr) := rfl
  have hloop : shiftRangeLoop (more ++ rest) (hostlistPushRange hostlistNew hr).1 1 =
      (pushRanges hostlistNew (hr :: more), (hr :: more).length) := by
    rw [shiftRangeLoop_eq rfl hfirst (hostrangeCopy_pfx hr) (hostrangeCopy_singlehost hr) (block_together hchain) hstop,
      List.length_cons, Nat.add_comm]
    rfl
  have hcall : hostlistShiftRange buf hl =
      (some (strdup (hostlistRangedString (pushRanges hostlistNew (hr :: more)) 1024 buf).1 1024),
        ⟨shiftBackLoop (pushRanges hostlistNew (hr :: more)).nranges rest.length (hr :: more).length
            (List.replicate (hr :: more).length none ++ rest.map some),
          hl.nranges - (pushRanges hostlistNew (hr :: more)).nranges,
          hl.nhosts - (pushRanges hostlistNew (hr :: more)).nhosts⟩) := by
    unfold hostlistShiftRange
    have hleft : hl.nranges - (hr :: more).length = rest.length := by
      rw [hn, hhr, List.length_append, Nat.add_sub_cancel_left]
    have hdrop : (hr :: (more ++ rest)).drop (hr :: more).length = rest := @List.drop_left _ (hr :: more) _
    rw [hn, List.take_length, hhr, List.cons_append]
    simp only [hloop]
    rw [hdrop, ← List.cons_append, ← hhr, ← hn, hleft]
  rw [hcall]
  refine ⟨rfl, ?_, rfl, rfl⟩
  -- the slots that are left over are those of the ranges that were joined
  have hsplit : List.replicate (hr :: more).length (none : Option Hostrange) =
      deadSlots (hr :: more) ++ List.replicate (pushRanges hostlistNew (hr :: more)).nranges none := by
    rw [deadSlots, ← List.replicate_add]
    congr 1
    omega
  have hat : (hr :: more).length = (deadSlots (hr :: more)).length + (pushRanges hostlistNew (hr :: more)).nranges := by
    rw [deadSlots, List.length_replicate]
    omega
  have hend : hl.nranges - (pushRanges hostlistNew (hr :: more)).nranges =
      (deadSlots (hr :: more)).length + (rest.map some).length := by
    rw [hn, hhr, List.length_append, List.length_map]
    omega
  have hback := @shiftBackLoop_eq _ (deadSlots (hr :: more)) _ (rest.map some) (List.length_replicate (a := none)) hpos
  simp only
  rw [hsplit, hend, ← hback, List.length_map, ← hat]

/-- `hostlist_pop_range` takes off the last block. -/
theorem popRange_tookOff (hn : hl.nranges = hl.hr.length) (hhr : hl.hr = rest ++ hr :: more)
    (hchain : (hr :: more).IsChain fun a b => together a b = true)
    (hstop : ∀ x ∈ rest.getLast?, together x hr = false) (buf : Mem) :
    TookOff (hostlistPopRange buf hl) buf hl (hr :: more) (rest.map some ++ deadSlots (hr :: more)) := by
  have hpushes := (pushRanges_block hchain).1
  obtain ⟨init, tail, hlast⟩ : ∃ init tail, hr :: more = init ++ [tail] :=
    ⟨_, _, (List.dropLast_append_getLast (List.cons_ne_nil hr more)).symm⟩
  have htail : tail.pfx = hr.pfx ∧ tail.singlehost = hr.singlehost := by
    have hmem : tail ∈ hr :: more := by
      rw [hlast]
      simp
    rcases List.mem_cons.mp hmem with rfl | hmem
    · exact ⟨rfl, rfl⟩
    · obtain ⟨hs, hts, hpfx⟩ := block_member hchain hmem
      exact ⟨hpfx, hts.trans hs.symm⟩
  have hin : ∀ x ∈ init.reverse, hostrangeWithinRange tail (some x) = true := by
    intro x hx
    have hxmem : x ∈ hr :: more := by
      rw [hlast]
      exact List.mem_append_left _ (List.mem_reverse.mp hx)
    -- a range in front of the last one shows that the block holds numbers
    obtain ⟨next, more', rfl⟩ : ∃ next more', more = next :: more' := by
      cases more with
      | nil =>
          cases init with
          | nil => cases hx
          | cons y init => simp at hlast
      | cons next more' => exact ⟨next, more', rfl⟩
    obtain ⟨hs, -, -⟩ := block_member hchain (List.mem_cons_self (a := next))
    have hx' : x.singlehost = false ∧ x.pfx = hr.pfx := by
      rcases List.mem_cons.mp hxmem with rfl | hxmem
      · exact ⟨hs, rfl⟩
      · exact (block_member hchain hxmem).2
    exact hostrangeWithinRange_iff.mpr ⟨htail.1.trans hx'.2.symm, htail.2.trans hs, hx'.1⟩
  have hout : (rest ++ init).rdropWhile (fun x => hostrangeWithinRange tail (some x)) = rest := by
    rw [List.rdropWhile, List.reverse_append, List.dropWhile_append_of_pos hin]
    cases hrev : rest.reverse with
    | nil =>
        rw [List.reverse_eq_nil_iff.mp hrev]
        rfl
    | cons x before =>
        have hx : rest.getLast? = some x := by
          rw [List.getLast?_eq_head?_reverse, hrev]
          rfl
        have hno : hostrangeWithinRange tail (some x) = false := by
          rw [Bool.eq_false_iff]
          intro hwithin
          obtain ⟨hpfx, hs, hs'⟩ := hostrangeWithinRange_iff.mp hwithin
          have htog : together x hr = true :=
            together_iff.mpr ⟨hpfx.symm.trans htail.1, hs', htail.2.symm.trans hs⟩
          rw [hstop x hx] at htog
          cases htog
        rw [List.dropWhile_cons_of_neg (by simp [hno]), ← hrev, List.reverse_reverse]
  have hcall : hostlistPopRange buf hl =
      (some (strdup (hostlistRangedString (pushRanges hostlistNew (hr :: more)) 1024 buf).1 1024),
        ⟨rest.map some ++ (hr :: more).map fun _ => none,
          hl.nranges - (pushRanges hostlistNew (hr :: more)).nranges,
          hl.nhosts - (pushRanges hostlistNew (hr :: more)).nhosts⟩) := by
    have hwhole : rest ++ hr :: more = rest ++ init ++ [tail] := by rw [hlast, List.append_assoc]
    unfold hostlistPopRange
    rw [hn, List.take_length, hhr, hwhole, List.getLast?_concat]
    simp only [List.dropLast_concat, hout]
    rw [← hwhole, List.drop_left, ← hhr, ← hn]
    rfl
  rw [hcall]
  refine ⟨rfl, ?_, rfl, rfl⟩
  have hnone : ((hr :: more).map fun _ => (none : Option Hostrange)) =
      deadSlots (hr :: more) ++ List.replicate (pushRanges hostlistNew (hr :: more)).nranges none := by
    rw [deadSlots, ← List.replicate_add, List.map_const']
    congr 1
    omega
  have hend : hl.nranges - (pushRanges hostlistNew (hr :: more)).nranges =
      (rest.map some ++ deadSlots (hr :: more)).length := by
    rw [hn, hhr, List.length_append, List.length_append, List.length_map, deadSlots, List.length_replicate]
    omega
  simp only
  rw [hnone, ← List.append_assoc, hend, List.take_left]

/-! ## A block that is handed out -/

theorem blockText_copy (hchain : (hr :: more).IsChain fun a b => together a b = true) :
    blockText (hostrangeCopy hr :: more) = blockText (hr :: more) ∧
      (hostrangeCopy hr :: more).IsChain fun a b => together a b = true := by
  cases hs : hr.singlehost with
  | false =>
      rw [hostrangeCopy_numbered hs]
      exact ⟨rfl, hchain⟩
  | true =>
      have hmore : more = [] := by
        cases more with
        | nil => rfl
        | cons next more =>
            rw [(block_member hchain List.mem_cons_self).1] at hs
            cases hs
      subst hmore
      have hcopy : (hostrangeCopy hr).singlehost = true := (hostrangeCopy_singlehost hr).trans hs
      refine ⟨?_, List.isChain_singleton _⟩
      have htext : ∀ {x : Hostrange}, x.singlehost = true → blockText [x] = x.pfx := by
        intro x hx
        have hnot : isBracketNeeded x none = false := by
          refine decide_eq_false ?_
          rintro (hcount | hin)
          · rw [hostrangeCount, hx, if_pos rfl] at hcount
            exact absurd hcount (by decide)
          · simp [hostrangeWithinRange, hostrangePrefixCmp] at hin
        rw [blockText, List.head?_nil, hnot, groupText, if_neg Bool.false_ne_true, numText, if_pos hx, List.append_nil]
      rw [htext hcopy, htext hs, hostrangeCopy_pfx]

/-- The text of a block of which no two neighbours join. -/
theorem block_strdup (hchain : (hr :: more).IsChain fun a b => together a b = true)
    (hapart : (hr :: more).IsChain fun a b => ¬ Joins a b) (buf : Mem) :
    strdup (hostlistRangedString (pushRanges hostlistNew (hr :: more)) 1024 buf).1 1024 =
      ((blockText (hr :: more)).take 1023).takeWhile (· ≠ NUL) := by
  obtain ⟨-, hcount, hranges⟩ := pushRanges_block hchain
  obtain ⟨htext, hchain'⟩ := blockText_copy hchain
  have hhr := hranges hapart
  have hrep : (pushRanges hostlistNew (hr :: more)).nranges = (pushRanges hostlistNew (hr :: more)).hr.length := by
    rw [hcount.mpr hapart, hhr]
    rfl
  rw [strdup_ranged hrep hhr hchain' (by decide), hhr, htext]

/-- The whole text is what fits the buffer and holds no NUL. -/
theorem whole_iff {t : CStr} : (t.take 1023).takeWhile (· ≠ NUL) = t ↔ t.length < 1024 ∧ NUL ∉ t := by
  constructor
  · intro h
    have hpre := (List.takeWhile_prefix (fun c => decide (c ≠ NUL)) (l := t.take 1023)).length_le
    rw [h, List.length_take] at hpre
    refine ⟨by omega, fun hnul => ?_⟩
    rw [← h] at hnul
    have hne := List.mem_takeWhile_imp hnul
    simp at hne
  · rintro ⟨hlen, hnul⟩
    rw [List.take_of_length_le (by omega), List.takeWhile_eq_self_iff]
    intro c hc
    have hne : c ≠ NUL := fun heq => hnul (heq ▸ hc)
    simpa using hne

theorem deadSlots_eq_nil_iff (hchain : (hr :: more).IsChain fun a b => together a b = true) :
    deadSlots (hr :: more) = [] ↔ (hr :: more).IsChain fun a b => ¬ Joins a b := by
  obtain ⟨hle, hcount, -⟩ := pushRanges_block hchain
  rw [← hcount, deadSlots, List.replicate_eq_nil_iff]
  omega

/-- The list without a block. -/
def listOf (ranges : List Hostrange) : Hostlist :=
  ⟨ranges, ranges.length, Int32.ofNat (ranges.flatMap Hostrange.names).length⟩

theorem listOf_wf (hw : ∀ x ∈ rest, x.Wf) : (listOf rest).Wf := ⟨hw, rfl, rfl⟩

/-- A call that takes off a block hands it out if it is a block to be returned. -/
theorem Returned.handsOut {call : Mem → Hostlist → Option CStr × Slots} {left : List (Option Hostrange)}
    (hw : hl.Wf) (hperm : hl.hr.Perm (hr :: more ++ rest))
    (hchain : (hr :: more).IsChain fun a b => together a b = true)
    (htook : ∀ buf, TookOff (call buf hl) buf hl (hr :: more) left)
    (hleft : deadSlots (hr :: more) = [] → left = rest.map some) (h : Returned hr more) :
    HandsOut call hl ((hr :: more).flatMap Hostrange.names) (listOf rest) := by
  have hranges : ∀ x ∈ hr :: more ++ rest, x.Wf := fun x hx => hw.ranges x (hperm.mem_iff.mpr hx)
  have hblock : ∀ x ∈ hr :: more, x.Wf := fun x hx => hranges x (List.mem_append_left _ hx)
  have hcount := (pushRanges_block hchain).2.1.mpr h.apart
  refine ⟨?_, fun buf => ?_, fun buf => ?_, listOf_wf fun x hx => hranges x (List.mem_append_right _ hx)⟩
  · rw [List.flatMap_cons, Hostrange.names_eq_cons (hblock hr List.mem_cons_self)]
    exact List.cons_ne_nil _ _
  · refine ⟨_, (htook buf).text, ?_⟩
    rw [block_strdup hchain h.apart, whole_iff.mpr ⟨h.short, h.clean⟩]
    exact (expands_block_iff hblock hchain h.apart List.prefix_rfl).mpr ⟨rfl, h.reads⟩
  · refine ⟨?_, ?_, ?_⟩
    · rw [(htook buf).hr, hleft ((deadSlots_eq_nil_iff hchain).mpr h.apart)]
      rfl
    · rw [(htook buf).nranges, hcount, hw.nranges, hperm.length_eq, List.length_append, Nat.add_sub_cancel_left]
      rfl
    · have hnames : hl.names.length =
          ((hr :: more).flatMap Hostrange.names).length + (rest.flatMap Hostrange.names).length := by
        rw [Hostlist.names, (hperm.flatMap_right Hostrange.names).length_eq, List.flatMap_append, List.length_append]
      have hnew : hostlistNew.nhosts = 0 := rfl
      rw [(htook buf).nhosts, pushRanges_nhosts hblock, hnew, Int32.zero_add, hw.nhosts, hnames, int32_ofNat_sub]
      rfl

/-- And only then. -/
theorem Returned.of_handsOut {call : Mem → Hostlist → Option CStr × Slots} {left : List (Option Hostrange)}
    {part : List CStr} (hblock : ∀ x ∈ hr :: more, x.Wf)
    (hchain : (hr :: more).IsChain fun a b => together a b = true)
    (htook : ∀ buf, TookOff (call buf hl) buf hl (hr :: more) left)
    (hdead : none ∉ left → deadSlots (hr :: more) = []) (hleft : deadSlots (hr :: more) = [] → left = rest.map some)
    (h : HandsOut call hl part hl') (hpart : hl'.hr = rest → part = (hr :: more).flatMap Hostrange.names) :
    Returned hr more ∧ hl'.hr = rest := by
  have hslots : left = hl'.hr.map some := by
    rw [← (h.left fun _ => NUL).hr]
    exact ((htook fun _ => NUL).hr).symm
  have hnone := hdead (by rw [hslots]; simp)
  have hapart := (deadSlots_eq_nil_iff hchain).mp hnone
  have hrest : hl'.hr = rest := by
    rw [hleft hnone] at hslots
    exact (List.map_injective_iff.mpr (Option.some_injective _) hslots).symm
  obtain ⟨t, ht, hexp⟩ := h.text fun _ => NUL
  rw [(htook _).text, Option.some.injEq, block_strdup hchain hapart] at ht
  rw [hpart hrest] at hexp
  have hpre : t <+: blockText (hr :: more) := by
    rw [← ht]
    exact (List.takeWhile_prefix _).trans (List.take_prefix _ _)
  obtain ⟨hwhole, hreads⟩ := (expands_block_iff hblock hchain hapart hpre).mp hexp
  rw [hwhole] at ht
  obtain ⟨hshort, hclean⟩ := whole_iff.mp ht
  exact ⟨⟨hapart, hshort, hclean, hreads⟩, hrest⟩

/-! ## The first and the last block -/

theorem head_flatten {α : Type} {x : α} {ls : List (List α)} (hne : [] ∉ ls) (hx : x ∈ ls.flatten.head?) :
    ∃ more ls', ls = (x :: more) :: ls' := by
  cases ls with
  | nil => cases hx
  | cons l ls =>
      cases l with
      | nil => simp at hne
      | cons y more =>
          cases hx
          exact ⟨more, ls, rfl⟩

theorem getLast_flatten {α : Type} {x : α} {ls : List (List α)} (hne : [] ∉ ls) (hx : x ∈ ls.flatten.getLast?) :
    ∃ ls' init, ls = ls' ++ [init ++ [x]] := by
  induction ls using List.reverseRecOn with
  | nil => cases hx
  | append_singleton ls l _ =>
      have hl : l ≠ [] := by
        rintro rfl
        simp at hne
      obtain ⟨init, y, rfl⟩ : ∃ init y, l = init ++ [y] :=
        ⟨_, _, (List.dropLast_append_getLast hl).symm⟩
      rw [List.flatten_append, List.flatten_singleton, ← List.append_assoc, List.getLast?_concat] at hx
      cases hx
      exact ⟨ls, init, rfl⟩

/-- The list in front of its other blocks. -/
theorem blocks_cons {g : List Hostrange} {bs : List (List Hostrange)} (h : hl.blocks = g :: bs) :
    ∃ hr more, g = hr :: more ∧ hl.hr = hr :: more ++ bs.flatten ∧
      ((hr :: more).IsChain fun a b => together a b = true) ∧
      (∀ x ∈ bs.flatten.head?, together hr x = false) ∧ bs.flatten.splitBy together = bs := by
  obtain ⟨hall, hne, hchains, hbreaks⟩ := List.splitBy_eq_iff.mp h
  obtain ⟨hgne, hbsne⟩ := not_or.mp (mt List.mem_cons.mpr hne)
  obtain ⟨hr, more, rfl⟩ := List.exists_cons_of_ne_nil (Ne.symm hgne)
  have hchain := hchains _ List.mem_cons_self
  refine ⟨hr, more, rfl, hall, hchain, fun x hx => ?_, ?_⟩
  · obtain ⟨xs, bs', rfl⟩ := head_flatten hbsne hx
    obtain ⟨hlast, hhead, hno⟩ := (List.isChain_cons_cons.mp hbreaks).1
    have hmem := List.getLast_mem hlast
    -- the last range of the block has the prefix and the kind of the first one
    rcases List.mem_cons.mp hmem with heq | hmem
    · rw [heq] at hno
      exact hno
    · obtain ⟨hs, hls, hpfx⟩ := block_member hchain hmem
      rw [together_congr hpfx (hls.trans hs.symm)] at hno
      exact hno
  · exact List.splitBy_flatten hbsne (fun m hm => hchains m (List.mem_cons_of_mem _ hm)) hbreaks.tail

/-- The list behind its other blocks. -/
theorem blocks_snoc {g : List Hostrange} {bs : List (List Hostrange)} (h : hl.blocks = bs ++ [g]) :
    ∃ hr more, g = hr :: more ∧ hl.hr = bs.flatten ++ hr :: more ∧
      ((hr :: more).IsChain fun a b => together a b = true) ∧
      (∀ x ∈ bs.flatten.getLast?, together x hr = false) ∧ bs.flatten.splitBy together = bs := by
  obtain ⟨hall, hne, hchains, hbreaks⟩ := List.splitBy_eq_iff.mp h
  rw [List.mem_append, not_or] at hne
  obtain ⟨hbsne, hgne⟩ := hne
  obtain ⟨hr, more, rfl⟩ := List.exists_cons_of_ne_nil fun hg : g = [] => hgne (by rw [hg]; simp)
  rw [List.isChain_append] at hbreaks
  refine ⟨hr, more, rfl, ?_, hchains _ (by simp), fun x hx => ?_, ?_⟩
  · rw [hall, List.flatten_append, List.flatten_singleton]
  · obtain ⟨bs', init, rfl⟩ := getLast_flatten hbsne hx
    obtain ⟨hlast, hhead, hno⟩ := hbreaks.2.2 (init ++ [x]) (by simp) (hr :: more) rfl
    simpa using hno
  · exact List.splitBy_flatten hbsne (fun m hm => hchains m (List.mem_append_left _ hm)) hbreaks.1

/-- A block to be returned, as a list of ranges. -/
def BlockReturned (g : List Hostrange) : Prop := ∀ hr more, g = hr :: more → Returned hr more

theorem returnsNull_shift_iff (hw : hl.Wf) : ReturnsNull hostlistShiftRange hl ↔ hl.blocks = [] := by
  rw [Hostlist.blocks, List.splitBy_eq_nil, ← hw.names_eq_nil_iff]
  refine ⟨fun h => h.1, fun h => ⟨h, fun buf => ?_⟩⟩
  unfold hostlistShiftRange
  rw [hw.names_eq_nil_iff.mp h, List.take_nil]

theorem returnsNull_pop_iff (hw : hl.Wf) : ReturnsNull hostlistPopRange hl ↔ hl.blocks = [] := by
  rw [Hostlist.blocks, List.splitBy_eq_nil, ← hw.names_eq_nil_iff]
  refine ⟨fun h => h.1, fun h => ⟨h, fun buf => ?_⟩⟩
  unfold hostlistPopRange
  rw [hw.names_eq_nil_iff.mp h, List.take_nil]
  rfl

theorem HandsOut.blocks_ne_nil {call : Mem → Hostlist → Option CStr × Slots} {part : List CStr} (hw : hl.Wf)
    (h : HandsOut call hl part hl') (hin : ∀ name ∈ part, name ∈ hl.names) : hl.blocks ≠ [] := by
  intro hnil
  rw [Hostlist.blocks, List.splitBy_eq_nil, ← hw.names_eq_nil_iff] at hnil
  obtain ⟨name, hname⟩ := List.exists_mem_of_ne_nil _ h.ne_nil
  have hnone := hin name hname
  rw [hnil] at hnone
  cases hnone

theorem listOf_names (rest : List Hostrange) : (listOf rest).names = rest.flatMap Hostrange.names := rfl

/-- `hostlist_shift_range` takes the first block. -/
theorem shift_takesFirst : TakesFirst
    (fun hl part hl' => HandsOut hostlistShiftRange hl part hl' ∧ hl.names = part ++ hl'.names)
    (ReturnsNull hostlistShiftRange) Hostlist.Wf Hostlist.blocks BlockReturned where
  empty hl hw := returnsNull_shift_iff hw
  some := by
    rintro hl part hl' hw ⟨h, hnames⟩
    obtain ⟨g, bs, hblocks⟩ := List.exists_cons_of_ne_nil
      (h.blocks_ne_nil hw fun name hname => hnames ▸ List.mem_append_left _ hname)
    obtain ⟨hr, more, rfl, hhr, hchain, hstop, hsplit⟩ := blocks_cons hblocks
    have hranges : ∀ x ∈ hr :: more, x.Wf := fun x hx => hw.ranges x (hhr ▸ List.mem_append_left _ hx)
    obtain ⟨hret, hrest⟩ := @Returned.of_handsOut hl hl' hr more bs.flatten _ _ _ hranges hchain
      (shiftRange_tookOff hw.nranges hhr hchain hstop)
      (fun hnone => by
        by_contra hdead
        refine hnone (List.mem_append_left _ ?_)
        unfold deadSlots at hdead ⊢
        exact List.mem_replicate.mpr ⟨fun h0 => hdead (by rw [h0]; rfl), rfl⟩)
      (fun hdead => by rw [hdead]; rfl) h
      (fun hrest => by
        rw [Hostlist.names, hhr, List.flatMap_append, Hostlist.names, hrest] at hnames
        exact (List.append_cancel_right hnames).symm)
    refine ⟨hr :: more, ?_, fun hr' more' heq => ?_, h.wf⟩
    · rw [hblocks, Hostlist.blocks, hrest, hsplit]
    · cases heq
      exact hret
  first := by
    intro hl g bs hw hblocks hok
    obtain ⟨hr, more, rfl, hhr, hchain, hstop, -⟩ := blocks_cons hblocks
    refine ⟨_, _, (hok hr more rfl).handsOut hw (by rw [hhr]) hchain
      (shiftRange_tookOff hw.nranges hhr hchain hstop) (fun hdead => by rw [hdead]; rfl), ?_⟩
    rw [Hostlist.names, hhr, List.flatMap_append, listOf_names]

/-- `hostlist_pop_range` takes the last block. -/
theorem pop_takesFirst : TakesFirst
    (fun hl part hl' => HandsOut hostlistPopRange hl part hl' ∧ hl.names = hl'.names ++ part)
    (ReturnsNull hostlistPopRange) Hostlist.Wf (fun hl => hl.blocks.reverse) BlockReturned where
  empty hl hw := by rw [returnsNull_pop_iff hw, List.reverse_eq_nil_iff]
  some := by
    rintro hl part hl' hw ⟨h, hnames⟩
    have hne := h.blocks_ne_nil hw fun name hname => hnames ▸ List.mem_append_right _ hname
    obtain ⟨bs, g, hblocks⟩ : ∃ bs g, hl.blocks = bs ++ [g] :=
      ⟨_, _, (List.dropLast_append_getLast hne).symm⟩
    obtain ⟨hr, more, rfl, hhr, hchain, hstop, hsplit⟩ := blocks_snoc hblocks
    have hranges : ∀ x ∈ hr :: more, x.Wf := fun x hx => hw.ranges x (hhr ▸ List.mem_append_right _ hx)
    obtain ⟨hret, hrest⟩ := @Returned.of_handsOut hl hl' hr more bs.flatten _ _ _ hranges hchain
      (popRange_tookOff hw.nranges hhr hchain hstop)
      (fun hnone => by
        by_contra hdead
        refine hnone (List.mem_append_right _ ?_)
        unfold deadSlots at hdead ⊢
        exact List.mem_replicate.mpr ⟨fun h0 => hdead (by rw [h0]; rfl), rfl⟩)
      (fun hdead => by rw [hdead, List.append_nil]) h
      (fun hrest => by
        rw [Hostlist.names, hhr, List.flatMap_append, Hostlist.names, hrest] at hnames
        exact (List.append_cancel_left hnames).symm)
    refine ⟨hr :: more, ?_, fun hr' more' heq => ?_, h.wf⟩
    · rw [hblocks, Hostlist.blocks, hrest, hsplit, List.reverse_concat]
    · cases heq
      exact hret
  first := by
    intro hl g bs hw hblocks hok
    have hsnoc : hl.blocks = bs.reverse ++ [g] := by
      rw [← List.reverse_reverse hl.blocks, hblocks, List.reverse_cons]
    obtain ⟨hr, more, rfl, hhr, hchain, hstop, -⟩ := blocks_snoc hsnoc
    refine ⟨_, _, (hok hr more rfl).handsOut hw (by rw [hhr]; exact List.perm_append_comm) hchain
      (popRange_tookOff hw.nranges hhr hchain hstop) (fun hdead => by rw [hdead, List.append_nil]), ?_⟩
    rw [Hostlist.names, hhr, List.flatMap_append, listOf_names]

/-- The list is in order, and both functions hand out each of its hosts once. -/
structure RangesReturned (hl : Hostlist) : Prop where
  wf : hl.Wf
  shifted : ShiftedOut hl
  popped : PoppedOut hl

/-- Both functions take a list apart host by host exactly when it is in order and all its blocks are
to be returned. -/
theorem shift_pop_range_iff (hl : Hostlist) :
    RangesReturned hl ↔ hl.Wf ∧ ∀ hr more, hr :: more ∈ hl.blocks → Returned hr more := by
  have hiff : (∀ hr more, hr :: more ∈ hl.blocks → Returned hr more) ↔ ∀ g ∈ hl.blocks, BlockReturned g := by
    constructor
    · rintro h g hg hr more rfl
      exact h hr more hg
    · intro h hr more hg
      exact h _ hg hr more rfl
  rw [hiff]
  constructor
  · rintro ⟨hw, hshift, -⟩
    exact ⟨hw, (drained_iff shift_takesFirst hw).mp hshift⟩
  · rintro ⟨hw, hall⟩
    refine ⟨hw, (drained_iff shift_takesFirst hw).mpr hall, (drained_iff pop_takesFirst hw).mpr fun g hg => ?_⟩
    exact hall g (List.mem_reverse.mp hg)

/-- What is left of `foo[1-3],bar,foo[4-5]` without `bar`: the two ranges join in the temporary list. -/
def fooTwice : Hostlist := ⟨[⟨"foo".toList, 1, 3, 1, false⟩, ⟨"foo".toList, 4, 5, 1, false⟩], 2, 5⟩

theorem shift_range_dangling :
    (∃ hl, hostlistCreate [] "foo[1-3],bar,foo[4-5]".toList = .ret (some hl) ∧
      hostlistDelete [] hl "bar".toList = .ret (1, fooTwice)) ∧
    (hostlistShiftRange (fun _ => NUL) fooTwice).2 = ⟨[none, none], 1, 0⟩ ∧ ¬ RangesReturned fooTwice := by
  have hslots : (hostlistShiftRange (fun _ => NUL) fooTwice).2 = ⟨[none, none], 1, 0⟩ := by decide
  refine ⟨⟨⟨[⟨"foo".toList, 1, 3, 1, false⟩, ⟨"bar".toList, 0, 0, 0, true⟩, ⟨"foo".toList, 4, 5, 1, false⟩], 3, 6⟩,
    by decide, by decide⟩, hslots, fun h => ?_⟩
  cases h.shifted with
  | empty hnull => exact absurd hnull.1 (by decide)
  | @part s s' p hpart =>
      have hleft := (hpart.1.left fun _ => NUL).hr
      rw [hslots] at hleft
      have hnone : none ∈ s'.hr.map some := by
        rw [← hleft]
        exact List.mem_singleton_self _
      simp at hnone

end Pdsh
