import Pdsh.Hostlist.Ops

/-!
# Walking over a host list

`hostlist_next` gives the hosts of a list one by one, `hostlist_nth` the host at
a position. Both read the ranges and change nothing in the list; each has a
buffer of its own for the text. `hostlist_remove` takes out of the list the host
the iterator stands on.

The range `hr` of an iterator always is the one at its index, so it is looked up
and not stored. The test of `idx` against `size` only guards that lookup.
-/

namespace Pdsh

open Lib.Decimal

/-! ## `hostlist_next` -/

/-- `struct hostlist_iterator`. -/
structure Iterator where
  idx : Nat
  depth : Int32
deriving DecidableEq, Repr

/-- `hostlist_iterator_create`, and what `hostlist_iterator_reset` goes back to. -/
def hostlistIteratorCreate : Iterator := ⟨0, -1⟩

/-- `_iterator_advance`. -/
def iteratorAdvance (hl : Hostlist) (i : Iterator) : Iterator :=
  if i.idx ≥ hl.nranges then i
  else
    match hl.hr[i.idx]? with
    | none => i
    | some hr =>
        -- `depth` is an `int`, the size of the range an `unsigned long`
        if ulongOfInt (i.depth + 1) > hr.hi - hr.lo then ⟨i.idx + 1, 0⟩
        else ⟨i.idx, i.depth + 1⟩

/-- The name `hostlist_next` builds; the digits go through `suffix[16]`. -/
def iteratorString (hr : Hostrange) (depth : Int32) : CStr :=
  hr.pfx ++
    if hr.singlehost then []
    else snprintf 15 (pad hr.width (hr.lo + ulongOfInt depth).toNat)

/-- `hostlist_next`. -/
def hostlistNext (hl : Hostlist) (i : Iterator) : Option CStr × Iterator :=
  let i := iteratorAdvance hl i
  if i.idx ≥ hl.nranges then (none, i)
  else ((hl.hr[i.idx]?).map (iteratorString · i.depth), i)

/-! ## `hostlist_remove` -/

/-- `hostlist_shift_iterators (hl, n, 0, 1)` on the one iterator there is: its range
index goes back by one when the deleted range was at or before it. -/
def shiftIterator (i : Iterator) (n : Nat) : Iterator :=
  if i.idx ≥ n then
    if i.idx ≥ 1 then { i with idx := i.idx - 1 } else hostlistIteratorCreate
  else i

/-- `hostlist_remove`; the iterator stands on a host. -/
def hostlistRemove (hl : Hostlist) (i : Iterator) : Hostlist × Iterator :=
  match hl.hr[i.idx]? with
  | none => (hl, i)
  | some hr =>
      let deleted := hostrangeDeleteHost hr (hr.lo + ulongOfInt i.depth)
      let hl := { hl with hr := storeRange hl.hr i.idx deleted.1, nhosts := hl.nhosts - 1 }
      match deleted.2 with
      | some new => (hostlistInsertRange hl new (i.idx + 1), ⟨i.idx + 1, -1⟩)
      | none =>
          if hostrangeEmpty deleted.1 then (hostlistDeleteRange hl i.idx, shiftIterator i i.idx)
          else (hl, { i with depth := i.depth - 1 })

/-! ## `hostlist_nth` -/

/-- What `strdup` reads from the buffer of `_hostrange_string`, which has room for
78 characters. The digits go behind the prefix; behind one that did not fit they
are not written, or outside the part that is read. -/
def hostrangeString (hr : Hostrange) (depth : Int32) : CStr :=
  let pfx := snprintf 79 hr.pfx
  if hr.singlehost then pfx
  else if hr.pfx.length ≥ 79 then pfx
  else pfx ++ snprintf (79 - hr.pfx.length) (pad hr.width (hr.lo + ulongOfInt depth).toNat)

/-- `hostlist_nth`. -/
def hostlistNth (hl : Hostlist) (n : Int32) : Option CStr :=
  (hostlistSeek n (hl.hr.take hl.nranges) 0 0).map fun found =>
    hostrangeString found.2.1 (n - found.2.2)

end Pdsh
