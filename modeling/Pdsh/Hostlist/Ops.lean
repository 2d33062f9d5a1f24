import Pdsh.Hostlist.Range

/-!
# The host list

`struct hostlist` and the functions that change or search one, without the
parser. `hr` is the array of ranges without its NULL tail (`size` is only its
capacity); `nranges` and `nhosts` are the two counters the source keeps beside
it, updated where the source updates them.

A C function that changes a list returns it with its own result. `i`, `n` and
`count` of the source are `int`s and wrap as such.
-/

namespace Pdsh

open Lib.Decimal

/-- `struct hostlist`. -/
structure Hostlist where
  hr : List Hostrange
  nranges : Nat
  nhosts : Int32
deriving DecidableEq, Repr

/-- `hostlist_new`. -/
def hostlistNew : Hostlist := ⟨[], 0, 0⟩

/-- `hl->hr[n] = hr`. -/
def storeRange (l : List Hostrange) (n : Nat) (hr : Hostrange) : List Hostrange :=
  l.take n ++ hr :: l.drop (n + 1)

/-- The tail `hostlist_push_range` may extend: same prefix, and the new range
starts where it ends. -/
def hostlistTail (hl : Hostlist) (hr : Hostrange) : Option Hostrange :=
  if hl.nranges > 0 then
    (hl.hr[hl.nranges - 1]?).filter fun tail =>
      hostrangePrefixCmp tail hr = 0 ∧ tail.hi = hr.lo - 1
  else none

/-- `hostlist_push_range`: the list, the pushed range as the width comparison
leaves it, and the result. -/
def hostlistPushRange (hl : Hostlist) (hr : Hostrange) : Hostlist × Hostrange × Int32 :=
  match (hostlistTail hl hr).bind (hostrangeWidthCombine · hr) with
  | some (tail, hr') =>
      let nhosts := hl.nhosts + intOfUlong (hostrangeCount hr')
      ({ hl with hr := storeRange hl.hr (hl.nranges - 1) { tail with hi := hr'.hi },
                 nhosts := nhosts }, hr', nhosts)
  | none =>
      let nhosts := hl.nhosts + intOfUlong (hostrangeCount hr)
      ({ hr := storeRange hl.hr hl.nranges (hostrangeCopy hr),
         nranges := hl.nranges + 1, nhosts := nhosts }, hr, nhosts)

/-- `hostlist_push_hr`. -/
def hostlistPushHr (hl : Hostlist) (pfx : CStr) (lo hi : UInt64) (width : Nat) : Hostlist :=
  (hostlistPushRange hl (hostrangeCreate pfx lo hi width)).1

/-- `hostlist_insert_range`. -/
def hostlistInsertRange (hl : Hostlist) (hr : Hostrange) (n : Nat) : Hostlist :=
  if n > hl.nranges then hl
  else { hl with hr := hl.hr.insertIdx n (hostrangeCopy hr), nranges := hl.nranges + 1 }

/-- `hostlist_delete_range`. -/
def hostlistDeleteRange (hl : Hostlist) (n : Nat) : Hostlist :=
  { hl with hr := hl.hr.eraseIdx n, nranges := hl.nranges - 1 }

/-- `hostlist_copy`. -/
def hostlistCopy (hl : Hostlist) : Hostlist :=
  ⟨(hl.hr.take hl.nranges).map hostrangeCopy, hl.nranges, hl.nhosts⟩

/-- The range `hostlist_push_host` builds. -/
def hostrangeOfHost (str : CStr) : Hostrange :=
  let hn := hostnameCreate str
  match hn.suffix with
  | some suffix => hostrangeCreate hn.pfx hn.num hn.num suffix.length
  | none => hostrangeCreateSingle str

/-- `hostlist_push_host`; the result is always 1. -/
def hostlistPushHost (hl : Hostlist) (str : CStr) : Hostlist :=
  (hostlistPushRange hl (hostrangeOfHost str)).1

/-- The loop of `hostlist_push_list` over the ranges of the second list, which
collects them as it rewrites their widths. -/
def hostlistPushListLoop : List Hostrange → Hostlist → Int32 → Hostlist × List Hostrange × Int32
  | [], h1, n => (h1, [], n)
  | hr :: rest, h1, n =>
      let pushed := hostlistPushRange h1 hr
      let done := hostlistPushListLoop rest pushed.1 (n + pushed.2.2)
      (done.1, pushed.2.1 :: done.2.1, done.2.2)

/-- `hostlist_push_list`: both lists and the result. -/
def hostlistPushList (h1 h2 : Hostlist) : Hostlist × Hostlist × Int32 :=
  let done := hostlistPushListLoop (h2.hr.take h2.nranges) h1 0
  (done.1, { h2 with hr := done.2.1 ++ h2.hr.drop h2.nranges }, done.2.2)

/-- `hostlist_pop`. The last slot is never NULL while there are hosts. -/
def hostlistPop (hl : Hostlist) : Option CStr × Hostlist :=
  if hl.nhosts > 0 then
    match hl.hr[hl.nranges - 1]? with
    | none => (none, hl)
    | some hr =>
        let popped := hostrangePop hr
        if hostrangeEmpty popped.2 then
          (popped.1, { hr := hl.hr.eraseIdx (hl.nranges - 1), nranges := hl.nranges - 1,
                       nhosts := hl.nhosts - 1 })
        else
          (popped.1, { hl with hr := storeRange hl.hr (hl.nranges - 1) popped.2,
                               nhosts := hl.nhosts - 1 })
  else (none, hl)

/-- `hostlist_shift`. The first slot is never NULL while there are hosts. -/
def hostlistShift (hl : Hostlist) : Option CStr × Hostlist :=
  if hl.nhosts > 0 then
    match hl.hr[0]? with
    | none => (none, hl)
    | some hr =>
        let shifted := hostrangeShift hr
        let hl := { hl with hr := storeRange hl.hr 0 shifted.2, nhosts := hl.nhosts - 1 }
        if hostrangeEmpty shifted.2 then (shifted.1, hostlistDeleteRange hl 0)
        else (shifted.1, hl)
  else (none, hl)

/-- The search loop of `hostlist_nth` and `hostlist_delete_nth`: the index of
the range that holds position `n`, that range, and the hosts before it. -/
def hostlistSeek (n : Int32) : List Hostrange → Nat → Int32 → Option (Nat × Hostrange × Int32)
  | [], _, _ => none
  | hr :: rest, i, count =>
      let numInRange := intOfUlong (hostrangeCount hr)
      if n ≤ numInRange - 1 + count then some (i, hr, count)
      else hostlistSeek n rest (i + 1) (count + numInRange)

/-- What `hostlist_delete_nth` does to range `i`, which holds host `num`. -/
def hostlistDeleteNum (hl : Hostlist) (i : Nat) (hr : Hostrange) (num : UInt64) : Hostlist :=
  if hr.singlehost then hostlistDeleteRange hl i
  else
    let deleted := hostrangeDeleteHost hr num
    let hl := { hl with hr := storeRange hl.hr i deleted.1 }
    match deleted.2 with
    | some new => hostlistInsertRange hl new (i + 1)
    | none => if hostrangeEmpty deleted.1 then hostlistDeleteRange hl i else hl

/-- `hostlist_delete_nth`; the result is always 1. -/
def hostlistDeleteNth (hl : Hostlist) (n : Int32) : Hostlist :=
  let hl' := match hostlistSeek n (hl.hr.take hl.nranges) 0 0 with
    | none => hl
    | some (i, hr, count) =>
        hostlistDeleteNum hl i hr (hr.lo + ulongOfInt n - ulongOfInt count)
  { hl' with nhosts := hl'.nhosts - 1 }

/-- `hostlist_count`. -/
def hostlistCount (hl : Hostlist) : Int32 := hl.nhosts

/-- The loop of `hostlist_find`: the ranges with the widths it has rewritten,
and the position or -1. -/
def hostlistFindLoop (hn : Hostname) : List Hostrange → Int32 → List Hostrange × Int32
  | [], _ => ([], -1)
  | hr :: rest, count =>
      let found := hostrangeHnWithin hr hn
      if found.1 ≥ 0 then (found.2 :: rest, count + found.1)
      else
        let more := hostlistFindLoop hn rest (count + intOfUlong (hostrangeCount found.2))
        (found.2 :: more.1, more.2)

/-- `hostlist_find`. -/
def hostlistFind (hl : Hostlist) (hostname : CStr) : Int32 × Hostlist :=
  let found := hostlistFindLoop (hostnameCreate hostname) (hl.hr.take hl.nranges) 0
  (found.2, { hl with hr := found.1 ++ hl.hr.drop hl.nranges })

/-- `hostlist_delete_host`. -/
def hostlistDeleteHost (hl : Hostlist) (hostname : CStr) : Int32 × Hostlist :=
  let found := hostlistFind hl hostname
  if found.1 ≥ 0 then (1, hostlistDeleteNth found.2 found.1) else (0, found.2)

end Pdsh
