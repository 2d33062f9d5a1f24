import Pdsh.Libc
import Pdsh.Lib.Collect

/-!
# The header of `dshbak -c`

`compress` makes one header of the tags of all hosts with the same output. It cuts the text behind
the last digits off each tag, and for each such suffix `comp` sorts what is left by its last
digits and folds these into ranges, for each prefix on its own. `$i{$p}{$zp}{$n}` is the index, in
`@{$s{$p}}`, of the element that holds the number `$n` of zero-padded width `$zp`; a number joins
the element of the one before it.

`dshbak` reads bytes, so `\d` is one of the ten digits. What Perl leaves open is a parameter here:
the order of equal numbers behind a `sort`, the order of the keys of a hash, and the text of a
number from `2^64` on, which Perl holds as a floating-point number.
-/

namespace Pdsh.Dshbak

open Lib Lib.Decimal

/-- What a run of Perl decides. -/
structure Perl where
  /-- `sort {($$a[1]||0)<=>($$b[1]||0)}` on pairs of a tag and its last digits. -/
  sort : List (CStr × CStr) → List (CStr × CStr)
  sort_perm : ∀ l, (sort l).Perm l
  /-- Numbers that an integer holds are compared as integers. -/
  sort_ordered : ∀ l, (sort l).Pairwise fun a b =>
    value a.2 < 2 ^ 64 → value b.2 < 2 ^ 64 → value a.2 ≤ value b.2
  /-- The order of a hash. -/
  keys : List (CStr × List CStr) → List (CStr × List CStr)
  keys_perm : ∀ l, (keys l).Perm l
  /-- `$n - $k` as a text, where `$n` is not held by an integer. -/
  float : CStr → Nat → CStr

/-- The key of a hash that a number makes. -/
inductive Key where
  | int (n : Int)
  | float (text : CStr)
deriving DecidableEq, Repr

/-- `$n-$k`. No digits count as 0. -/
def Perl.minus (P : Perl) (n : CStr) (k : Nat) : Key :=
  if value n < 2 ^ 64 then .int (value n - k) else .float (P.float n k)

/-- `sortn`. -/
def sortn (P : Perl) (hosts : List CStr) : List CStr :=
  (P.sort (hosts.map fun host => (host, host.rtakeWhile Char.isDigit))).map Prod.fst

theorem sortn_perm (P : Perl) (hosts : List CStr) : (sortn P hosts).Perm hosts := by
  have hsort := P.sort_perm (hosts.map fun host => (host, host.rtakeWhile Char.isDigit))
  have hperm := hsort.map Prod.fst
  rw [List.map_map] at hperm
  exact hperm.trans (List.Perm.of_eq (List.map_id _))

/-- `zeropadwidth`. -/
def zeropadwidth (n : CStr) : Nat := if n.head? = some '0' ∧ n ≠ ['0'] then n.length else 1

/-- `/(.*?\d*)(\D*)$/`. -/
def splitSuffix (host : CStr) : CStr × CStr :=
  (host.rdropWhile fun c => !c.isDigit, host.rtakeWhile fun c => !c.isDigit)

/-- `/(.*?)(\d*)$/`. -/
def splitNumber (host : CStr) : CStr × CStr :=
  (host.rdropWhile Char.isDigit, host.rtakeWhile Char.isDigit)

/-! ## Folding numbers into ranges -/

/-- An element `[N_start]` or `[N_start, N_end]` of `@{$s{$p}}`. -/
structure Elem where
  start : CStr
  stop : Option CStr
deriving DecidableEq, Repr

/-- `$i{$p}` and `@{$s{$p}}` of one prefix. -/
structure Entry where
  i : Nat → Key → Option Nat
  s : List Elem

/-- Nothing is there yet. -/
def Entry.empty : Entry := ⟨fun _ _ => none, []⟩

/-- `$i{$p}{$zp}{$k} = $idx`. -/
def setIndex (i : Nat → Key → Option Nat) (zp : Nat) (k : Key) (idx : Nat) :
    Nat → Key → Option Nat :=
  fun zp' k' => if zp' = zp ∧ k' = k then some idx else i zp' k'

/-- The element the number before `$n` is in. -/
def prevIndex (P : Perl) (e : Entry) (n : CStr) : Option Nat :=
  match e.i (zeropadwidth n) (P.minus n 1) with
  | some idx => some idx
  | none => if zeropadwidth n = 1 then e.i n.length (P.minus n 1) else none

/-- The round of `comp` for one host, once its prefix and its digits are cut. -/
def compStep (P : Perl) (e : Entry) (n : CStr) : Entry :=
  match prevIndex P e n with
  | some idx =>
      { s := e.s.modify idx fun el => { el with stop := some n }
        i := setIndex e.i (zeropadwidth n) (P.minus n 0) idx }
  | none =>
      { s := e.s ++ [⟨n, none⟩]
        i := setIndex e.i (zeropadwidth n) (P.minus n 0) e.s.length }

/-- `"$$_[0]-$$_[$#$_]"` or `"$$_[0]"`. -/
def Elem.text (el : Elem) : CStr :=
  match el.stop with
  | some stop => el.start ++ '-' :: stop
  | none => el.start

/-- `comp`: the range elements of each prefix. -/
def comp (P : Perl) (hosts : List CStr) : List (CStr × List CStr) :=
  (collect Prod.fst (fun e x => compStep P e x.2) Entry.empty
    ((sortn P hosts).map splitNumber)).map fun x => (x.1, x.2.s.map Elem.text)

/-- `"[@{$rng{$_}}]"` when `@{$rng{$_}}>1` or there is a dash in `${$rng{$_}}[0]`, else
`"@{$rng{$_}}"`. -/
def bracketText (rng : List CStr) : CStr :=
  if 1 < rng.length ∨ '-' ∈ rng.headD [] then '[' :: List.intercalate [','] rng ++ [']']
  else List.intercalate [','] rng

/-- `compress_inner`. -/
def compressInner (P : Perl) (hosts : List CStr) : List CStr :=
  ((comp P hosts).insertionSort fun a b => strcmp a.1 b.1 ≤ 0).map fun x => x.1 ++ bracketText x.2

/-- `compress`. -/
def compress (P : Perl) (hosts : List CStr) : List CStr :=
  let suffixes := collect Prod.snd (fun names x => names ++ [x.1]) []
    ((sortn P hosts).map splitSuffix)
  (P.keys suffixes).flatMap fun x => (compressInner P x.2).map (· ++ x.1)

/-- `join (",", @_)` of `print_header`. -/
def printHeader (tags : List CStr) : CStr := List.intercalate [','] tags

end Pdsh.Dshbak
