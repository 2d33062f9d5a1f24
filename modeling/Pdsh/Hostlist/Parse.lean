import Pdsh.Err
import Pdsh.Hostlist.Ops

/-!
# Parsing host lists

`hostlist_create` cuts its argument into tokens at blanks and commas outside
brackets and turns each into ranges: a plain token is one host, the list
inside the first bracket of a token becomes ranges when the bracket ends the
token, and single names when something follows it.

Two things of the C code are parameters here. `slack` is what the local array
`cur_tok` holds from its last byte on: `strncpy` never writes that byte, so a
plain token of 1023 characters or more is followed by whatever is there.
`fuel` bounds the rounds of the loop over one range, which counts an
`unsigned long` up to an inclusive bound; `hostlistCreate` allows `2^64`
rounds, and a loop that needs more has come back to a value it had.
-/

namespace Pdsh

open Lib Lib.Decimal

/-- Largest number of ranges in one bracket. -/
def MAX_RANGES : Nat := 10240

/-- The separators of `hostlist_create`. -/
def hostlistSep (c : Char) : Bool := c = '\t' ∨ c = ',' ∨ c = ' '

/-! ## `_next_tok` -/

/-- The loop of `_next_tok` over one token, counting brackets in `level`. -/
def nextTokLoop (sep : Char → Bool) : Int → CStr → CStr × CStr
  | _, [] => ([], [])
  | level, c :: str =>
      if level ≠ 0 ∨ !sep c then
        let level := if c = '[' then level + 1 else if c = ']' then level - 1 else level
        let r := nextTokLoop sep level str
        (c :: r.1, r.2)
      else ([], c :: str)

/-- `_next_tok`: the next token and the string behind the separators after it. -/
def nextTok (sep : Char → Bool) (str : CStr) : Option (CStr × CStr) :=
  match str.dropWhile sep with
  | [] => none
  | c :: rest =>
      let r := nextTokLoop sep 0 (c :: rest)
      some (r.1, r.2.dropWhile sep)

/-- The tokens `while ((tok = _next_tok (sep, &str)) != NULL)` goes through.
Every token is at least one character long, so the length of the string is
fuel enough. -/
def tokensLoop (sep : Char → Bool) : Nat → CStr → List CStr
  | 0, _ => []
  | fuel + 1, str =>
      match nextTok sep str with
      | none => []
      | some (tok, rest) => tok :: tokensLoop sep fuel rest

/-- All tokens of a string. -/
def tokens (sep : Char → Bool) (str : CStr) : List CStr := tokensLoop sep str.length str

/-! ## The range parser -/

/-- `struct _range`. -/
structure Range where
  lo : UInt64
  hi : UInt64
  width : Nat
deriving DecidableEq, Repr

/-- The upper bound `_parse_single_range` reads behind the dash, if there is
text behind one; `none` when that text is not a number. `rest` is where the
lower bound stopped. -/
def parseUpperBound (lo : UInt64) (rest : CStr) : Option CStr → Option UInt64
  | some (c :: p) =>
      let hi := strtoul (c :: p)
      if hi.endptr = c :: p ∨ hi.endptr ≠ [] then none else some hi.value
  | _ => if rest ≠ [] then none else some lo

/-- `_parse_single_range`; a failure ends the process. -/
def parseSingleRange (str : CStr) : Proc Range :=
  let cut := strchr '-' str
  let first := (cut.map (·.1)).getD str
  let p := cut.map (·.2)
  if p.any (·.head? = some '-') then .exit (.invalidRange str)
  else
    let lo := strtoul first
    if lo.endptr = first then .exit (.invalidRange str)
    else
      match parseUpperBound lo.value lo.endptr p with
      | none => .exit (.invalidRange str)
      | some hi =>
          if lo.value > hi then .exit (.invalidRange str)
          else if hi - lo.value + 1 > MAX_RANGE then .exit (.tooManyHosts str)
          else .ret ⟨lo.value, hi, first.length⟩

/-- The loop of `_parse_range_list` over the comma-separated pieces; `len` is
the room left in the array of ranges. -/
def parseRangeListLoop : List CStr → Nat → Proc (Option (List Range))
  | [], _ => .ret (some [])
  | _ :: _, 0 => .ret none
  | str :: rest, len + 1 => do
      let range ← parseSingleRange str
      let ranges ← parseRangeListLoop rest len
      pure (ranges.map (range :: ·))

/-- `_parse_range_list`; `none` is a result of -1. -/
def parseRangeList (str : CStr) (len : Nat) : Proc (Option (List Range)) :=
  parseRangeListLoop (str.splitOn ',') len

/-! ## Pushing what a bracket holds -/

/-- `_push_range_list`. -/
def pushRangeList (hl : Hostlist) (pfx : CStr) (ranges : List Range) : Hostlist :=
  ranges.foldl (fun hl rng => hostlistPushHr hl pfx rng.lo rng.hi rng.width) hl

/-- The name `_push_range_list_with_suffix` formats into its 4096 bytes. -/
def suffixedHost (pfx sfx : CStr) (width : Nat) (j : UInt64) : CStr :=
  snprintf 4096 (pfx ++ pad width j.toNat ++ sfx)

/-- `for (j = rng->lo; j <= rng->hi; j++)`. -/
def pushSuffixedLoop (pfx sfx : CStr) (rng : Range) : Nat → UInt64 → Hostlist → Proc Hostlist
  | 0, _, _ => .hang
  | fuel + 1, j, hl =>
      if j ≤ rng.hi then
        let hr := hostrangeCreateSingle (suffixedHost pfx sfx rng.width j)
        pushSuffixedLoop pfx sfx rng fuel (j + 1) (hostlistPushRange hl hr).1
      else .ret hl

/-- `_push_range_list_with_suffix`. -/
def pushRangeListWithSuffix (fuel : Nat) (hl : Hostlist) (pfx sfx : CStr) :
    List Range → Proc Hostlist
  | [] => .ret hl
  | rng :: rest => do
      let hl ← pushSuffixedLoop pfx sfx rng fuel rng.lo hl
      pushRangeListWithSuffix fuel hl pfx sfx rest

/-! ## `hostlist_create` -/

/-- `cur_tok` after `strncpy (cur_tok, tok, sizeof (cur_tok) - 1)`. -/
def curTok (slack tok : CStr) : CStr := if tok.length < 1023 then tok else tok.take 1023 ++ slack

/-- One round of the loop of `_hostlist_create_bracketed`; `none` is a jump to
the error exits. -/
def createToken (fuel : Nat) (slack : CStr) (new : Hostlist) (tok : CStr) :
    Proc (Option Hostlist) :=
  match strchr '[' tok with
  | some (pfx, p) =>
      match strchr ']' p with
      | some (body, q) => do
          let nr ← parseRangeList body MAX_RANGES
          match nr with
          | none => pure none
          | some ranges =>
              if q ≠ [] then do
                let new ← pushRangeListWithSuffix fuel new pfx q ranges
                pure (some new)
              else pure (some (pushRangeList new pfx ranges))
      | none => .ret none
  | none =>
      if ']' ∈ tok then .ret none
      else .ret (some (hostlistPushHost new (curTok slack tok)))

/-- The loop of `_hostlist_create_bracketed` over the tokens. -/
def createLoop (fuel : Nat) (slack : CStr) : List CStr → Hostlist → Proc (Option Hostlist)
  | [], new => .ret (some new)
  | tok :: rest, new => do
      let new ← createToken fuel slack new tok
      match new with
      | none => pure none
      | some new => createLoop fuel slack rest new

/-- `hostlist_create` with at most `fuel` rounds for each range; `none` is NULL. -/
def hostlistCreateFuel (fuel : Nat) (slack : CStr) (str : CStr) : Proc (Option Hostlist) :=
  createLoop fuel slack (tokens hostlistSep str) hostlistNew

/-- `hostlist_create`. -/
def hostlistCreate (slack : CStr) (str : CStr) : Proc (Option Hostlist) :=
  hostlistCreateFuel (2 ^ 64) slack str

/-- `hostlist_push`: the result and the list. -/
def hostlistPush (slack : CStr) (hl : Hostlist) (hosts : CStr) : Proc (Int32 × Hostlist) := do
  let new ← hostlistCreate slack hosts
  match new with
  | none => pure (0, hl)
  | some new => pure (new.nhosts, (hostlistPushList hl new).1)

/-- `while ((hostname = hostlist_pop (hltmp)) != NULL)` of `hostlist_delete`. A
pop takes one off `nhosts`, so that many rounds are enough. -/
def hostlistDeleteLoop : Nat → Hostlist → Hostlist → Int32 → Int32 × Hostlist
  | 0, _, hl, n => (n, hl)
  | fuel + 1, hltmp, hl, n =>
      match hostlistPop hltmp with
      | (none, _) => (n, hl)
      | (some hostname, hltmp) =>
          let deleted := hostlistDeleteHost hl hostname
          hostlistDeleteLoop fuel hltmp deleted.2 (n + deleted.1)

/-- `hostlist_delete`: the result and the list. -/
def hostlistDelete (slack : CStr) (hl : Hostlist) (hosts : CStr) : Proc (Int32 × Hostlist) := do
  let hltmp ← hostlistCreate slack hosts
  match hltmp with
  | none => pure (0, hl)
  | some hltmp => pure (hostlistDeleteLoop hltmp.nhosts.toInt.toNat hltmp hl 0)

end Pdsh
