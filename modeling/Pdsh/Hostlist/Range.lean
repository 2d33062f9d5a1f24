import Pdsh.Libc

/-!
# Host names and host ranges

The two records of `hostlist.c` that hold names:

* `Hostname` — one name, split into a part `pfx` and the digits behind it;
* `Hostrange` — the names `pfx` followed by `lo .. hi`, each printed in a
  zero-filled field of `width` characters, or (`singlehost`) the one name `pfx`.

The functions are the static `host_*`, `hostname_*` and `hostrange_*`
functions, in the order of the source. A function that writes through its
pointer arguments returns their new contents. Allocation does not fail.
-/

namespace Pdsh

open Lib.Decimal

/-- Largest number of hosts one range of the input may have. -/
def MAX_RANGE : UInt64 := 16384

/-- Largest number `hostname_create` splits off a name. -/
def MAX_HOST_SUFFIX : UInt64 := (1 : UInt64) <<< (25 : UInt64)

/-- The digit count of `_zero_padded`: `while (num /= 10L) n++;`. A 64-bit
number has at most 20 digits, so 20 rounds are enough. -/
def zeroPaddedLoop : Nat → Nat → Nat → Nat
  | 0, _, n => n
  | fuel + 1, num, n => if num / 10 = 0 then n else zeroPaddedLoop fuel (num / 10) (n + 1)

/-- `_zero_padded`: zeros needed to pad `num` to `width`. -/
def zeroPadded (num : UInt64) (width : Nat) : Nat :=
  let n := zeroPaddedLoop 20 num.toNat 1
  if width > n then width - n else 0

/-- `_width_equiv`: `none` is a result of 0, `some` the two adjusted widths.
The callers pass two different variables, so the test of their addresses is
left out. -/
def widthEquiv (n : UInt64) (wn : Nat) (m : UInt64) (wm : Nat) : Option (Nat × Nat) :=
  let npad := zeroPadded n wn
  let nmpad := zeroPadded n wm
  let mpad := zeroPadded m wm
  let mnpad := zeroPadded m wn
  if npad ≠ nmpad ∧ mpad ≠ mnpad then none
  else if npad ≠ nmpad then
    if mpad = mnpad then some (wn, wn) else none
  else
    if npad = nmpad then some (wm, wm) else none

/-! ## `hostname_t` -/

/-- `struct hostname_components`; `suffix` is `none` for a NULL pointer. -/
structure Hostname where
  hostname : CStr
  pfx : CStr
  num : UInt64
  suffix : Option CStr
deriving DecidableEq, Repr

/-- `host_prefix_end`, plus one: the length of the name without its trailing
digits. -/
def hostPrefixEnd (hostname : CStr) : Nat := (hostname.rdropWhile Char.isDigit).length

/-- `hostname_create_with_suffix`; `idx` is one more than in the source. -/
def hostnameCreateWithSuffix (hostname : CStr) (idx : Nat) : Hostname :=
  if idx = hostname.length then ⟨hostname, hostname, 0, none⟩
  else
    let suffix := hostname.drop idx
    let num := strtoul suffix
    if num.endptr = [] ∧ num.value ≤ MAX_HOST_SUFFIX then
      ⟨hostname, hostname.take idx, num.value, some suffix⟩
    else ⟨hostname, hostname, num.value, none⟩

/-- `hostname_create`. -/
def hostnameCreate (hostname : CStr) : Hostname :=
  hostnameCreateWithSuffix hostname (hostPrefixEnd hostname)

/-! ## `hostrange_t` -/

/-- `struct hostrange_components`. -/
structure Hostrange where
  pfx : CStr
  lo : UInt64
  hi : UInt64
  width : Nat
  singlehost : Bool
deriving DecidableEq, Repr

/-- `hostrange_create_single`. -/
def hostrangeCreateSingle (pfx : CStr) : Hostrange := ⟨pfx, 0, 0, 0, true⟩

/-- `hostrange_create`. -/
def hostrangeCreate (pfx : CStr) (lo hi : UInt64) (width : Nat) : Hostrange :=
  ⟨pfx, lo, hi, width, false⟩

/-- `hostrange_count`. -/
def hostrangeCount (hr : Hostrange) : UInt64 :=
  if hr.singlehost then 1 else hr.hi - hr.lo + 1

/-- `hostrange_copy`. -/
def hostrangeCopy (hr : Hostrange) : Hostrange :=
  if hr.singlehost then hostrangeCreateSingle hr.pfx
  else hostrangeCreate hr.pfx hr.lo hr.hi hr.width

/-- `hostrange_delete_host`: the adjusted range, and the new greater range when
the host was inside. -/
def hostrangeDeleteHost (hr : Hostrange) (n : UInt64) : Hostrange × Option Hostrange :=
  if n = hr.lo then ({ hr with lo := hr.lo + 1 }, none)
  else if n = hr.hi then ({ hr with hi := hr.hi - 1 }, none)
  else ({ hr with hi := n - 1 }, some { hostrangeCopy hr with lo := n + 1 })

/-- `hostrange_prefix_cmp`; `none` is a NULL pointer. -/
def hostrangePrefixCmp : Option Hostrange → Option Hostrange → Int
  | none, _ => 1
  | some _, none => -1
  | some h1, some h2 =>
      let retval := strcmp h1.pfx h2.pfx
      if retval = 0 then h2.singlehost.toNat - h1.singlehost.toNat else retval

/-- `hostrange_within_range`: both go into one bracket. -/
def hostrangeWithinRange (h1 : Hostrange) (h2 : Option Hostrange) : Bool :=
  if hostrangePrefixCmp h1 h2 = 0 then !(h1.singlehost || h2.any (·.singlehost)) else false

/-- `hostrange_width_combine`: `some` with the adjusted ranges when the widths
go together. -/
def hostrangeWidthCombine (h0 h1 : Hostrange) : Option (Hostrange × Hostrange) :=
  (widthEquiv h0.lo h0.width h1.lo h1.width).map fun w =>
    ({ h0 with width := w.1 }, { h1 with width := w.2 })

/-- `hostrange_empty`. -/
def hostrangeEmpty (hr : Hostrange) : Bool := hr.hi < hr.lo ∨ hr.hi = ULONG_MAX

/-- The `size` the buffers of `hostrange_pop` and `hostrange_shift` have. -/
def hostrangePopSize (hr : Hostrange) : Nat := hr.pfx.length + hr.width + 16

/-- `hostrange_pop`. -/
def hostrangePop (hr : Hostrange) : Option CStr × Hostrange :=
  if hr.singlehost then (some hr.pfx, { hr with lo := hr.lo + 1 })
  else if hostrangeCount hr > 0 then
    (some (snprintf (hostrangePopSize hr) (hr.pfx ++ pad hr.width hr.hi.toNat)),
      { hr with hi := hr.hi - 1 })
  else (none, hr)

/-- `hostrange_shift`. -/
def hostrangeShift (hr : Hostrange) : Option CStr × Hostrange :=
  if hr.singlehost then (some hr.pfx, { hr with lo := hr.lo + 1 })
  else if hostrangeCount hr > 0 then
    (some (snprintf (hostrangePopSize hr) (hr.pfx ++ pad hr.width hr.lo.toNat)),
      { hr with lo := hr.lo + 1 })
  else (none, hr)

/-- The final test of `hostrange_hn_within`: equal prefixes, the number inside
the range, and widths that go together. -/
def hostrangeHnMatch (hr : Hostrange) (hn : Hostname) (width : Nat) : Int32 × Hostrange :=
  if hr.pfx.length = hn.pfx.length ∧ strcmp hn.pfx hr.pfx = 0 ∧ hn.num ≤ hr.hi ∧ hn.num ≥ hr.lo then
    match widthEquiv hr.lo hr.width hn.num width with
    | none => (-1, hr)
    | some w => (intOfUlong (hn.num - hr.lo), { hr with width := w.1 })
  else (-1, hr)

/-- `hostrange_hn_within`: the offset of `hn`, or -1, and the range with the
width the search may have rewritten. Each recursive call moves one digit from
the suffix of `hn` to its prefix, so `fuel` counts those digits. -/
def hostrangeHnWithinLoop : Nat → Hostrange → Hostname → Int32 × Hostrange
  | fuel, hr, hn =>
      if hr.singlehost then
        if strcmp hn.hostname hr.pfx = 0 then (0, hr) else (-1, hr)
      else
        match hn.suffix with
        | none => (-1, hr)
        | some suffix =>
            let lenHn := hn.pfx.length
            let lenHr := hr.pfx.length
            if hr.pfx.take lenHn ≠ hn.pfx then (-1, hr)
            else if lenHn < lenHr ∧ suffix.length > 1 ∧ hr.pfx.getLast?.any Char.isDigit ∧
                hr.pfx[lenHn]? = suffix.head? then
              match fuel with
              | 0 => (-1, hr)
              | fuel + 1 =>
                  hostrangeHnWithinLoop fuel hr (hostnameCreateWithSuffix hn.hostname (lenHn + 1))
            else hostrangeHnMatch hr hn suffix.length

/-- `hostrange_hn_within`. -/
def hostrangeHnWithin (hr : Hostrange) (hn : Hostname) : Int32 × Hostrange :=
  hostrangeHnWithinLoop hn.hostname.length hr hn

end Pdsh
