import Pdsh.Cbuf.Lines

/-!
# Bounded two-part lists

What a circular buffer is for: two lists, the bytes that were read and can be replayed and the
bytes still unread. Together they are at most `size` bytes long. A write grows the size up to
`maxsize` where it has to, and drops the oldest bytes where it cannot.
-/

namespace Pdsh

open Lib.Ring

/-- A buffer as its caller sees it. -/
structure TwoPart where
  replay : List Char
  unread : List Char
  size : Nat
  maxsize : Nat
  overwrite : CbufOverwrite
deriving DecidableEq, Repr

namespace TwoPart

/-- An empty buffer. -/
def new (minsize maxsize : Nat) : TwoPart :=
  { replay := [], unread := [], size := minsize, maxsize := max minsize maxsize,
    overwrite := .CBUF_WRAP_MANY }

/-- The first `n` unread bytes are read. -/
def drop (p : TwoPart) (n : Nat) : TwoPart :=
  { p with replay := p.replay ++ p.unread.take n, unread := p.unread.drop n }

/-- The last `n` bytes that were read are unread again. -/
def rewind (p : TwoPart) (n : Nat) : TwoPart :=
  { p with replay := p.replay.take (p.replay.length - n), unread := p.replay.rtake n ++ p.unread }

/-- Bytes are appended to a buffer of `size` bytes, which keeps the last ones. -/
def append (p : TwoPart) (size : Nat) (bs : List Char) : TwoPart :=
  { p with
    size := size
    unread := (p.unread ++ bs).rtake size
    replay := p.replay.rtake (size - (p.unread.length + bs.length)) }

/-- How many of `len` bytes are stored. -/
def accepted (p : TwoPart) (len : Nat) : Nat :=
  match p.overwrite with
  | .CBUF_NO_DROP => min len (p.maxsize - p.unread.length)
  | .CBUF_WRAP_ONCE => min len p.maxsize
  | .CBUF_WRAP_MANY => len

/-- The size may grow for `len` more unread bytes, but only for them. -/
structure GrowsTo (p : TwoPart) (len size : Nat) : Prop where
  le : p.size ≤ size
  le_max : size ≤ p.maxsize
  enough : p.unread.length + len ≤ size ∨ size = p.maxsize
  unneeded : p.unread.length + len ≤ p.size → size = p.size

/-- A write of `bs`, once the size is `size`. A buffer that may not drop bytes fails when it
can store none. -/
def writes (p : TwoPart) (bs : List Char) (size : Nat) : Cbuf.Answer × TwoPart :=
  if p.overwrite = .CBUF_NO_DROP ∧ p.accepted bs.length = 0 then
    (⟨.error .ENOSPC, [], 0⟩, { p with size := size })
  else
    (⟨.ok (p.accepted bs.length), [], (p.unread.length + p.accepted bs.length - size : Nat)⟩,
      p.append size (bs.take (p.accepted bs.length)))

/-- A length argument: `-1` stands for all. -/
def length (len : Int) (all : Nat) : Nat := if len = -1 then all else min len.toNat all

/-- The call on one buffer may give this answer and leave this buffer. -/
inductive Calls (p : TwoPart) : Cbuf.Call → Cbuf.Answer → TwoPart → Prop where
  | flush : Calls p .flush ⟨.ok 0, [], 0⟩ { p with replay := [], unread := [] }
  | opt_set {value : Int} {overwrite : CbufOverwrite} (h : Cbuf.overwriteOf value = some overwrite) :
      Calls p (.opt_set Cbuf.CBUF_OPT_OVERWRITE value) ⟨.ok 0, [], 0⟩ { p with overwrite := overwrite }
  | opt_set_invalid {name value : Int}
      (h : name ≠ Cbuf.CBUF_OPT_OVERWRITE ∨ Cbuf.overwriteOf value = none) :
      Calls p (.opt_set name value) ⟨.error .EINVAL, [], 0⟩ p
  | drop {len : Int} (h : -1 ≤ len) :
      Calls p (.drop len) ⟨.ok (length len p.unread.length), [], 0⟩ (p.drop (length len p.unread.length))
  | drop_invalid {len : Int} (h : len < -1) : Calls p (.drop len) ⟨.error .EINVAL, [], 0⟩ p
  | peek {len : Int} (h : 0 ≤ len) :
      Calls p (.peek false len)
        ⟨.ok (min len.toNat p.unread.length : Nat), p.unread.take len.toNat, 0⟩ p
  | peek_invalid {null : Bool} {len : Int} (h : null = true ∨ len < 0) :
      Calls p (.peek null len) ⟨.error .EINVAL, [], 0⟩ p
  | read {len : Int} (h : 0 ≤ len) :
      Calls p (.read false len)
        ⟨.ok (min len.toNat p.unread.length : Nat), p.unread.take len.toNat, 0⟩ (p.drop len.toNat)
  | read_invalid {null : Bool} {len : Int} (h : null = true ∨ len < 0) :
      Calls p (.read null len) ⟨.error .EINVAL, [], 0⟩ p
  | replay {len : Int} (h : 0 ≤ len) :
      Calls p (.replay false len)
        ⟨.ok (min len.toNat p.replay.length : Nat), p.replay.rtake len.toNat, 0⟩ p
  | replay_invalid {null : Bool} {len : Int} (h : null = true ∨ len < 0) :
      Calls p (.replay null len) ⟨.error .EINVAL, [], 0⟩ p
  | rewind {len : Int} (h : -1 ≤ len) :
      Calls p (.rewind len) ⟨.ok (length len p.replay.length), [], 0⟩
        (p.rewind (length len p.replay.length))
  | rewind_invalid {len : Int} (h : len < -1) : Calls p (.rewind len) ⟨.error .EINVAL, [], 0⟩ p
  | write {mem : Int → Char} {len : Int} {reallocs : Bool} {size : Nat} (h : 0 < len)
      (hgrow : GrowsTo p len.toNat size) :
      Calls p (.write (some mem) len reallocs) (p.writes (block mem 0 len.toNat) size).1
        (p.writes (block mem 0 len.toNat) size).2
  | write_nothing {mem : Int → Char} {reallocs : Bool} :
      Calls p (.write (some mem) 0 reallocs) ⟨.ok 0, [], 0⟩ p
  | write_invalid {srcbuf : Option (Int → Char)} {len : Int} {reallocs : Bool}
      (h : srcbuf = none ∨ len < 0) : Calls p (.write srcbuf len reallocs) ⟨.error .EINVAL, [], 0⟩ p

/-- Bytes of `p` are written to `q`: the answer, and `q` then. -/
inductive Copies (p q : TwoPart) (len : Int) : Cbuf.Answer → TwoPart → Prop where
  | invalid (h : len < -1) : Copies p q len ⟨.error .EINVAL, [], 0⟩ q
  | nothing (h : -1 ≤ len) (hzero : length len p.unread.length = 0) :
      Copies p q len ⟨.ok 0, [], 0⟩ q
  | bytes {size : Nat} (h : -1 ≤ len) (hpos : 0 < length len p.unread.length)
      (hgrow : GrowsTo q (length len p.unread.length) size) :
      Copies p q len (q.writes (p.unread.take (length len p.unread.length)) size).1
        (q.writes (p.unread.take (length len p.unread.length)) size).2

/-- The source after a move that gave this answer. -/
def moved (p : TwoPart) (a : Cbuf.Answer) : TwoPart :=
  match a.ret with
  | .ok n => p.drop n.toNat
  | .error _ => p

/-- The buffers that exist. -/
abbrev Store := Nat → Option TwoPart

/-- The call may give this answer and leave these buffers. -/
inductive Step (t : Store) : Cbuf.Op → Cbuf.Answer → Store → Prop where
  | create {ndebug : Bool} {heap : Int → Char} {minsize maxsize : Int} {h : Nat} (hpos : 0 < minsize)
      (hfree : t h = none) :
      Step t (.create ndebug true heap minsize maxsize h) ⟨.ok 0, [], 0⟩
        (Function.update t h (some (new minsize.toNat maxsize.toNat)))
  | create_nomem {ndebug : Bool} {heap : Int → Char} {minsize maxsize : Int} {h : Nat}
      (hpos : 0 < minsize) (hfree : t h = none) :
      Step t (.create ndebug false heap minsize maxsize h) ⟨.error .ENOMEM, [], 0⟩ t
  | create_invalid {ndebug mallocs : Bool} {heap : Int → Char} {minsize maxsize : Int} {h : Nat}
      (hneg : minsize ≤ 0) (hfree : t h = none) :
      Step t (.create ndebug mallocs heap minsize maxsize h) ⟨.error .EINVAL, [], 0⟩ t
  | destroy {h : Nat} {p : TwoPart} (hp : t h = some p) :
      Step t (.destroy h) ⟨.ok 0, [], 0⟩ (Function.update t h none)
  | on {h : Nat} {call : Cbuf.Call} {p p' : TwoPart} {a : Cbuf.Answer} (hp : t h = some p)
      (hcall : Calls p call a p') : Step t (.on h call) a (Function.update t h (some p'))
  | copy {h k : Nat} {len : Int} {reallocs : Bool} {p q q' : TwoPart} {a : Cbuf.Answer}
      (hne : h ≠ k) (hp : t h = some p) (hq : t k = some q) (hcopy : Copies p q len a q') :
      Step t (.copy h k len reallocs) a (Function.update t k (some q'))
  | copy_same {h : Nat} {len : Int} {reallocs : Bool} {p : TwoPart} (hp : t h = some p) :
      Step t (.copy h h len reallocs) ⟨.error .EINVAL, [], 0⟩ t
  | move {h k : Nat} {len : Int} {reallocs : Bool} {p q q' : TwoPart} {a : Cbuf.Answer}
      (hne : h ≠ k) (hp : t h = some p) (hq : t k = some q) (hcopy : Copies p q len a q') :
      Step t (.move h k len reallocs) a
        (Function.update (Function.update t h (some (p.moved a))) k (some q'))
  | move_same {h : Nat} {len : Int} {reallocs : Bool} {p : TwoPart} (hp : t h = some p) :
      Step t (.move h h len reallocs) ⟨.error .EINVAL, [], 0⟩ t

end TwoPart

end Pdsh
