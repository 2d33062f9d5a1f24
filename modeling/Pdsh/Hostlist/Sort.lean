import Pdsh.Hostlist.Ops
import Pdsh.Lib.Run
import Pdsh.Lib.Transition

/-!
# Sorting a host list

`hostrange_cmp` and what is built on it: `hostlist_uniq` and `hostlist_sort`.

A comparison writes through its arguments: two widths that go together become one. So
functions that compare return the ranges they were given as well. What `qsort` makes of the
array is an argument.
-/

namespace Pdsh

open Lib

/-- What ends a sort early. -/
inductive Fault where
  /-- An assertion does not hold. -/
  | assertion
  /-- A range that was destroyed is read. -/
  | freed
deriving DecidableEq, Repr

/-- `hostrange_cmp`: its value, and the two ranges. -/
def hostrangeCmp (h1 h2 : Hostrange) : Int × Hostrange × Hostrange :=
  let retval := hostrangePrefixCmp h1 h2
  if retval = 0 then
    match hostrangeWidthCombine h1 h2 with
    | some (h1, h2) => ((intOfUlong (h1.lo - h2.lo)).toInt, h1, h2)
    | none => ((h1.width : Int) - h2.width, h1, h2)
  else (retval, h1, h2)

/-- `assert (hostrange_cmp (h1, h2) <= 0)`, which is no code at all under `NDEBUG`. -/
def assertOrdered (ndebug : Bool) (h1 h2 : Hostrange) : Run Fault (Hostrange × Hostrange) :=
  if ndebug then .ret (h1, h2)
  else if (hostrangeCmp h1 h2).1 ≤ 0 then .ret (hostrangeCmp h1 h2).2
  else .exit .assertion

/-! ## `qsort` -/

/-- One comparison inside an array. -/
def compareStep (l : List Hostrange) (ij : Nat × Nat) : Option (List Hostrange) :=
  match l[ij.1]?, l[ij.2]? with
  | some a, some b =>
      if ij.1 = ij.2 then some l
      else some ((l.set ij.1 (hostrangeCmp a b).2.1).set ij.2 (hostrangeCmp a b).2.2)
  | _, _ => none

/-- What `qsort` may leave of an array: some order of its ranges, after any comparisons,
in which none is above the next. -/
structure Qsorted (l sorted : List Hostrange) : Prop where
  compared : ∃ l', Transition.Steps compareStep Transition.anyStep l l' ∧ sorted.Perm l'
  ordered : sorted.IsChain fun a b => (hostrangeCmp a b).1 ≤ 0

/-! ## `hostlist_uniq` -/

/-- `hostrange_join`: the number of duplicates or -1, and the two ranges. -/
def hostrangeJoin (ndebug : Bool) (h1 h2 : Hostrange) : Run Fault (Int32 × Hostrange × Hostrange) := do
  let (h1, h2) ← assertOrdered ndebug h1 h2
  if hostrangePrefixCmp h1 h2 = 0 then
    match hostrangeWidthCombine h1 h2 with
    | none => pure (-1, h1, h2)
    | some (h1, h2) =>
        if h1.singlehost ∧ h2.singlehost then pure (1, h1, h2)
        else if h1.hi = h2.lo - 1 then pure (0, { h1 with hi := h2.hi }, h2)
        else if h1.hi ≥ h2.lo then
          if h1.hi < h2.hi then
            pure (intOfUlong (h1.hi - h2.lo + 1), { h1 with hi := h2.hi }, h2)
          else pure (intOfUlong (hostrangeCount h2), h1, h2)
        else pure (-1, h1, h2)
  else pure (-1, h1, h2)

/-- `_attempt_range_join`: its value, and the list. -/
def attemptRangeJoin (ndebug : Bool) (hl : Hostlist) (loc : Nat) : Run Fault (Int32 × Hostlist) :=
  match hl.hr[loc - 1]?, hl.hr[loc]? with
  | some h1, some h2 => do
      let (ndup, h1, h2) ← hostrangeJoin ndebug h1 h2
      let hl := { hl with hr := (hl.hr.set (loc - 1) h1).set loc h2 }
      if ndup ≥ 0 then
        let hl := hostlistDeleteRange hl loc
        pure (ndup, { hl with nhosts := hl.nhosts - ndup })
      else pure (ndup, hl)
  | _, _ => .exit .assertion

/-- The loop of `hostlist_uniq`. Each pass leaves one range less behind `i`. -/
def hostlistUniqLoop (ndebug : Bool) : Nat → (i : Nat) → Hostlist → Run Fault Hostlist
  | 0, _, hl => pure hl
  | fuel + 1, i, hl =>
      if i < hl.nranges then do
        let (ndup, hl) ← attemptRangeJoin ndebug hl i
        hostlistUniqLoop ndebug fuel (if ndup < 0 then i + 1 else i) hl
      else pure hl

/-- `hostlist_uniq`, where `qsort` leaves the array `qsort hl.hr`. -/
def hostlistUniq (ndebug : Bool) (qsort : List Hostrange → List Hostrange) (hl : Hostlist) :
    Run Fault Hostlist :=
  if hl.nranges ≤ 1 then pure hl
  else hostlistUniqLoop ndebug hl.nranges 1 { hl with hr := qsort hl.hr }

/-! ## `hostlist_sort` -/

/-- `hostrange_intersect`: the common part if there is one, and the two ranges. -/
def hostrangeIntersect (ndebug : Bool) (h1 h2 : Hostrange) :
    Run Fault (Option Hostrange × Hostrange × Hostrange) :=
  if h1.singlehost ∨ h2.singlehost then pure (none, h1, h2)
  else do
    let (h1, h2) ← assertOrdered ndebug h1 h2
    if hostrangePrefixCmp h1 h2 = 0 ∧ h1.hi > h2.lo then
      match hostrangeWidthCombine h1 h2 with
      | none => pure (none, h1, h2)
      | some (h1, h2) =>
          pure (some { hostrangeCopy h1 with lo := h2.lo, hi := if h2.hi < h1.hi then h2.hi else h1.hi },
            h1, h2)
    else pure (none, h1, h2)

/-- The inner loop of `hostlist_coalesce`, which inserts the numbers from `lo` to `hi` one by
one; the bounds `prev_hi` and `next_lo` of the ranges around them do not change. -/
def coalesceInsert (new : Hostrange) (prev_hi next_lo : UInt64) :
    Nat → (lo : UInt64) → (j : Nat) → Hostlist → Run Fault Hostlist
  | 0, _, _, _ => .hang
  | fuel + 1, lo, j, hl =>
      if lo ≤ new.hi then
        let hr := hostrangeCreate new.pfx lo lo new.width
        let (hl, j) := if lo > prev_hi then (hostlistInsertRange hl hr j, j + 1) else (hl, j)
        let (hl, j) := if lo < next_lo then (hostlistInsertRange hl hr j, j + 1) else (hl, j)
        coalesceInsert new prev_hi next_lo fuel (lo + 1) j hl
      else pure hl

/-- What `hostlist_coalesce` does to ranges `i - 1` and `i`, which have `new` in common. -/
def coalesceSplit (hl : Hostlist) (i : Nat) (new hprev hnext : Hostrange) : Run Fault Hostlist :=
  let hnext := if new.hi < hprev.hi then { hnext with hi := hprev.hi } else hnext
  let hprev := { hprev with hi := new.lo }
  let hnext := { hnext with lo := new.hi }
  let hl := { hl with hr := (hl.hr.set (i - 1) hprev).set i hnext }
  if hostrangeEmpty hprev then
    -- the range destroyed here is `hnext`, which the loop goes on to read
    if new.lo ≤ new.hi then .exit .freed else pure (hostlistDeleteRange hl i)
  else
    coalesceInsert new hprev.hi hnext.lo ((new.hi - new.lo).toNat + 2) new.lo i hl

/-- The outer loop of `hostlist_coalesce`; it begins again at the end after each split. -/
def hostlistCoalesceLoop (ndebug : Bool) : Nat → (i : Nat) → Hostlist → Run Fault Hostlist
  | 0, _, _ => .hang
  | fuel + 1, i, hl =>
      if i > 0 then
        match hl.hr[i - 1]?, hl.hr[i]? with
        | some h1, some h2 => do
            let (new, hprev, hnext) ← hostrangeIntersect ndebug h1 h2
            match new with
            | none =>
                let hl := { hl with hr := (hl.hr.set (i - 1) hprev).set i hnext }
                hostlistCoalesceLoop ndebug fuel (i - 1) hl
            | some new => do
                let hl ← coalesceSplit hl i new hprev hnext
                hostlistCoalesceLoop ndebug fuel (hl.nranges - 1) hl
        | _, _ => .exit .assertion
      else pure hl

/-- The loop of `hostlist_collapse`, from range `i` down. -/
def hostlistCollapseLoop : (i : Nat) → Hostlist → Hostlist
  | 0, hl => hl
  | i + 1, hl =>
      match hl.hr[i]?, hl.hr[i + 1]? with
      | some hprev, some hnext =>
          if hostrangePrefixCmp hprev hnext = 0 ∧ hprev.hi = hnext.lo - 1 then
            match hostrangeWidthCombine hprev hnext with
            | some (hprev, hnext) =>
                let hl := { hl with hr := (hl.hr.set i { hprev with hi := hnext.hi }).set (i + 1) hnext }
                hostlistCollapseLoop i (hostlistDeleteRange hl (i + 1))
            | none => hostlistCollapseLoop i hl
          else hostlistCollapseLoop i hl
      | _, _ => hostlistCollapseLoop i hl

/-- `hostlist_collapse`. -/
def hostlistCollapse (hl : Hostlist) : Hostlist := hostlistCollapseLoop (hl.nranges - 1) hl

/-- `hostlist_coalesce`; `fuel` bounds the passes of its outer loop. -/
def hostlistCoalesce (ndebug : Bool) (fuel : Nat) (hl : Hostlist) : Run Fault Hostlist := do
  let hl ← hostlistCoalesceLoop ndebug fuel (hl.nranges - 1) hl
  pure (hostlistCollapse hl)

/-- `hostlist_sort`, where `qsort` leaves the array `qsort hl.hr`. -/
def hostlistSort (ndebug : Bool) (qsort : List Hostrange → List Hostrange) (fuel : Nat) (hl : Hostlist) :
    Run Fault Hostlist :=
  if hl.nranges ≤ 1 then pure hl
  else hostlistCoalesce ndebug fuel { hl with hr := qsort hl.hr }

end Pdsh
