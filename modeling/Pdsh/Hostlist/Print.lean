import Pdsh.Hostlist.Ops
import Pdsh.Lib.Memory

/-!
# Printing host lists

`hostlist_ranged_string` writes neighbouring ranges with one prefix into one
bracket, `hostlist_deranged_string` every host by itself. Both write into the
buffer of their caller, of `n` bytes; `off` is where in that buffer a function
was told to write. The source adds lengths up in an `int`, here they are a `Nat`. For
`n < 2^31` this is the same: a sum only goes past `INT_MAX` where it is past `n`
as well, it is negative then and as a `size_t` still no length below `n`. Theorems
about buffers of any size say `n < 2^31`.
-/

namespace Pdsh

open Lib Lib.Decimal Lib.Memory

/-- `snprintf (buf + off, size, "%s", text)`: as much of the text as fits, and the
terminator. -/
def snprintfAt (m : Mem) (off size : Nat) (text : CStr) : Mem :=
  if size = 0 then m
  else setByte (write m off (snprintf size text)) (off + (snprintf size text).length) NUL

/-! ## `hostlist_ranged_string` -/

/-- `hostrange_numstr`: the buffer and the length. -/
def hostrangeNumstr (hr : Hostrange) (m : Mem) (off n : Nat) : Mem × Nat :=
  if hr.singlehost ∨ n = 0 then (m, 0)
  else
    let lo := pad hr.width hr.lo.toNat
    let m := snprintfAt m off n lo
    let len := lo.length
    if len < n ∧ hr.lo < hr.hi then
      let hi := '-' :: pad hr.width hr.hi.toNat
      (snprintfAt m (off + len) (n - len) hi, len + hi.length)
    else (m, len)

/-- `_is_bracket_needed` for a range and the one behind it. -/
def isBracketNeeded (h1 : Hostrange) (h2 : Option Hostrange) : Bool :=
  hostrangeCount h1 > 1 ∨ hostrangeWithinRange h1 h2

/-- The `do` loop of `_get_bracketed_list` over `hr` and the ranges behind it:
the buffer, the length and the ranges that are left. -/
def bracketedLoop (bracketNeeded : Bool) (off n : Nat) :
    Hostrange → List Hostrange → Mem → Nat → Mem × Nat × List Hostrange
  | hr, rest, m, len =>
      let num := hostrangeNumstr hr m (off + len) (n - len)
      let len := len + num.2
      if len ≥ n then (num.1, len, hr :: rest)
      else
        let m := if bracketNeeded then setByte num.1 (off + len) ',' else num.1
        let len := if bracketNeeded then len + 1 else len
        match rest with
        | [] => (m, len, [])
        | next :: rest =>
            if hostrangeWithinRange next (some hr) then
              bracketedLoop bracketNeeded off n next rest m len
            else (m, len, next :: rest)

/-- `_get_bracketed_list` on the ranges from `start` on, which are not empty. -/
def getBracketedList (hr : Hostrange) (rest : List Hostrange) (m : Mem) (off n : Nat) :
    Mem × Nat × List Hostrange :=
  let bracketNeeded := isBracketNeeded hr rest.head?
  let m := snprintfAt m off n hr.pfx
  let len := hr.pfx.length
  if len > n then (m, n, hr :: rest)
  else
    let opened := bracketNeeded ∧ len < n
    let m := if opened then setByte m (off + len) '[' else m
    let len := if opened then len + 1 else len
    let done := bracketedLoop bracketNeeded off n hr rest m len
    let len := done.2.1
    if bracketNeeded ∧ len < n ∧ len > 0 then
      (setByte (setByte done.1 (off + (len - 1)) ']') (off + len) NUL, len, done.2.2)
    else if len ≥ n then
      (if n > 0 then setByte done.1 (off + (n - 1)) NUL else done.1, len, done.2.2)
    else (setByte done.1 (off + len) NUL, len, done.2.2)

/-- The loop of `hostlist_ranged_string`. A round that leaves a range where it was
has filled the buffer, so one round for each range and one more are enough. -/
def rangedStringLoop (n : Nat) : Nat → List Hostrange → Mem → Nat → Mem × Nat
  | 0, _, m, len => (m, len)
  | _ + 1, [], m, len => (m, len)
  | fuel + 1, hr :: rest, m, len =>
      if len < n then
        let next := getBracketedList hr rest m len (n - len)
        let len := len + next.2.1
        let comma := len > 0 ∧ len < n ∧ next.2.2 ≠ []
        let m := if comma then setByte next.1 len ',' else next.1
        let len := if comma then len + 1 else len
        rangedStringLoop n fuel next.2.2 m len
      else (m, len)

/-- `hostlist_ranged_string`: the buffer and the result. -/
def hostlistRangedString (hl : Hostlist) (n : Nat) (buf : Mem) : Mem × Int :=
  let ranges := hl.hr.take hl.nranges
  let done := rangedStringLoop n (ranges.length + 1) ranges buf 0
  if done.2 ≥ n then (if n > 0 then setByte done.1 (n - 1) NUL else done.1, -1)
  else (setByte done.1 done.2 NUL, done.2)

/-! ## `hostlist_deranged_string` -/

/-- The loop of `hostrange_to_string`: the buffer, and the length unless it was
truncated. A round writes at least one byte, so `n` rounds and one more fill the
buffer when nothing else ends the loop. -/
def toStringLoop (hr : Hostrange) (off n : Nat) : Nat → UInt64 → Mem → Nat → Mem × Option Nat
  | 0, _, m, len => (m, some len)
  | fuel + 1, i, m, len =>
      if i ≤ hr.hi then
        let name := hr.pfx ++ pad hr.width i.toNat
        let m' := snprintfAt m (off + len) (n - len) name
        if name.length ≥ n - len then (m', none)
        else toStringLoop hr off n fuel (i + 1) (setByte m' (off + (len + name.length)) ',')
          (len + name.length + 1)
      else (m, some len)

/-- `hostrange_to_string` with the separator `","`: the buffer and the result. -/
def hostrangeToString (hr : Hostrange) (m : Mem) (off n : Nat) : Mem × Int :=
  if n = 0 then (m, 0)
  else if hr.singlehost then (snprintfAt m off n hr.pfx, hr.pfx.length)
  else
    match toStringLoop hr off n (n + 1) hr.lo m 0 with
    | (m, none) => (setByte m (off + (n - 1)) NUL, -1)
    | (m, some len) =>
        -- without a number the write goes to the byte in front of `buf`
        (if off + len = 0 then m else setByte m (off + len - 1) NUL, len - 1)

/-- The loop of `hostlist_deranged_string`: the buffer, the length, and whether it
was truncated. -/
def derangedStringLoop (base n : Nat) : List Hostrange → Mem → Nat → Mem × Nat × Bool
  | [], m, len => (m, len, false)
  | hr :: rest, m, len =>
      let next := hostrangeToString hr m (base + len) (n - len)
      if next.2 < 0 ∨ next.2 > (n - len : Nat) then (next.1, n, true)
      else
        let len := len + next.2.toNat
        derangedStringLoop base n rest (setByte next.1 (base + len) ',') (len + 1)

/-- `hostlist_deranged_string` with a buffer that begins at `base` in memory: the memory
and the result. -/
def hostlistDerangedStringAt (base : Nat) (hl : Hostlist) (n : Nat) (m : Mem) : Mem × Int :=
  let done := derangedStringLoop base n (hl.hr.take hl.nranges) m 0
  let len := if done.2.1 > 0 then done.2.1 - 1 else 0
  let m := setByte done.1 (base + len) NUL
  let truncated := done.2.2 ∨ len = n
  (m, if truncated then -1 else len)

/-- `hostlist_deranged_string`: the buffer and the result. -/
def hostlistDerangedString (hl : Hostlist) (n : Nat) (buf : Mem) : Mem × Int :=
  hostlistDerangedStringAt 0 hl n buf

end Pdsh
