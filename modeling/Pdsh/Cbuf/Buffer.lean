import Pdsh.Lib.Ring
import Pdsh.Libc

/-!
# Circular buffers

`cbuf.c` keeps bytes in a ring of `size + 1` slots: the unread ones from `i_out` up to
`i_in`, and in front of them, from `i_rep` on, bytes already read that can be replayed.
A `Cbuf` is `struct cbuf`; `data` is the memory around the pointer `cb->data`, with the
magic cookies of a build without `NDEBUG` on both sides. `int` arithmetic wraps.

What the environment decides is an argument: whether `malloc` and `realloc` succeed, and
what `read` and `write` on a descriptor return.
-/

namespace Pdsh

open Lib.Ring

/-- The value of an `int` expression. -/
def cint (n : Int) : Int := (Int32.ofInt n).toInt

/-- The largest `int`. -/
def INT_MAX : Int := 2147483647

/-- The values of `errno` that `cbuf.c` and its callers tell apart. -/
inductive Errno where
  | EINVAL | ENOMEM | ENOSPC | EINTR | EAGAIN
  | other (code : Nat)
deriving DecidableEq, Repr

/-- `cbuf_overwrite_t`. -/
inductive CbufOverwrite where
  | CBUF_NO_DROP | CBUF_WRAP_ONCE | CBUF_WRAP_MANY
deriving DecidableEq, Repr

/-- `CBUF_CHUNK`. -/
def CBUF_CHUNK : Int := 1000

/-- The bytes of `CBUF_MAGIC` as an `unsigned long`; no cookie is kept under `NDEBUG`. -/
def CBUF_MAGIC (ndebug : Bool) : List Char :=
  if ndebug then [] else
    [Char.ofNat 0xEF, Char.ofNat 0xBE, Char.ofNat 0xAD, Char.ofNat 0xDE, '\x00', '\x00', '\x00', '\x00']

/-- `struct cbuf`. -/
structure Cbuf where
  magic : List Char
  alloc : Int
  minsize : Int
  maxsize : Int
  size : Int
  used : Int
  overwrite : CbufOverwrite
  got_wrap : Bool
  i_in : Int
  i_out : Int
  i_rep : Int
  data : Int → Char

namespace Cbuf

/-! ## `cbuf_create`, `cbuf_flush` and the options -/

/-- `cbuf_create`; `heap` is what the allocated memory holds. -/
def create (ndebug mallocs : Bool) (heap : Int → Char) (minsize maxsize : Int) :
    Except Errno Cbuf :=
  if minsize ≤ 0 then .error .EINVAL
  else
    let magic := CBUF_MAGIC ndebug
    let alloc := cint (minsize + 1 + 2 * magic.length)
    -- a negative size is far more than there is memory
    if mallocs ∧ 0 ≤ alloc then
      .ok { magic := magic, alloc := alloc, minsize := minsize,
            maxsize := if maxsize > minsize then maxsize else minsize,
            size := minsize, used := 0, overwrite := .CBUF_WRAP_MANY, got_wrap := false,
            i_in := 0, i_out := 0, i_rep := 0,
            data := blit (blit heap (-magic.length) magic) (minsize + 1) magic }
    else .error .ENOMEM

/-- `cbuf_flush`. -/
def flush (cb : Cbuf) : Cbuf :=
  { cb with used := 0, got_wrap := false, i_in := 0, i_out := 0, i_rep := 0 }

/-- `CBUF_OPT_OVERWRITE`. -/
def CBUF_OPT_OVERWRITE : Int := 0

/-- The overwrite behavior an option value stands for. -/
def overwriteOf (value : Int) : Option CbufOverwrite :=
  if value = 0 then some .CBUF_NO_DROP
  else if value = 1 then some .CBUF_WRAP_ONCE
  else if value = 2 then some .CBUF_WRAP_MANY
  else none

/-- `cbuf_opt_set`. -/
def optSet (cb : Cbuf) (name value : Int) : Except Errno Int × Cbuf :=
  if name = CBUF_OPT_OVERWRITE then
    match overwriteOf value with
    | some overwrite => (.ok 0, { cb with overwrite := overwrite })
    | none => (.error .EINVAL, cb)
  else (.error .EINVAL, cb)

/-- The number of bytes that can be replayed. -/
def reused (cb : Cbuf) : Int := (cint (cb.i_out - cb.i_rep + (cb.size + 1))).tmod (cb.size + 1)

/-! ## `cbuf_is_valid` -/

/-- `cbuf_is_valid`. -/
structure IsValid (cb : Cbuf) : Prop where
  underflow : block cb.data (-cb.magic.length) cb.magic.length = cb.magic
  overflow : block cb.data (cb.size + 1) cb.magic.length = cb.magic
  alloc_pos : cb.alloc > 0
  alloc_gt : cb.alloc > cb.size
  size_pos : cb.size > 0
  size_min : cb.size ≥ cb.minsize
  size_max : cb.size ≤ cb.maxsize
  min_pos : cb.minsize > 0
  max_pos : cb.maxsize > 0
  used_nonneg : cb.used ≥ 0
  used_le : cb.used ≤ cb.size
  overwrite : cb.overwrite = .CBUF_NO_DROP ∨ cb.overwrite = .CBUF_WRAP_ONCE ∨
    cb.overwrite = .CBUF_WRAP_MANY
  wrap : cb.got_wrap = true ∨ cb.i_rep = 0
  in_nonneg : cb.i_in ≥ 0
  in_le : cb.i_in ≤ cb.size
  out_nonneg : cb.i_out ≥ 0
  out_le : cb.i_out ≤ cb.size
  rep_nonneg : cb.i_rep ≥ 0
  rep_le : cb.i_rep ≤ cb.size
  between : if cb.i_in ≥ cb.i_out then cb.i_rep > cb.i_in ∨ cb.i_rep ≤ cb.i_out
    else cb.i_rep > cb.i_in ∧ cb.i_rep ≤ cb.i_out
  nfree : cb.size - cb.used =
    (cint (cb.i_out - cb.i_in - 1 + (cb.size + 1))).tmod (cb.size + 1)

/-! ## Growing and dropping -/

/-- `cbuf_grow`: the number of bytes gained, and the buffer. -/
def grow (cb : Cbuf) (n : Int) (reallocs : Bool) : Int × Cbuf :=
  if cb.size = cb.maxsize then (0, cb)
  else
    let size_meta := cb.alloc - cb.size
    let m := cint (cb.alloc + n)
    let m := cint (m + (CBUF_CHUNK - m.tmod CBUF_CHUNK))
    let m := min m (cint (cb.maxsize + size_meta))
    if reallocs ∧ 0 < m then
      let size := m - size_meta
      let data := blit cb.data (size + 1) cb.magic
      let grown := { cb with alloc := m, size := size, data := data }
      if cb.i_rep > cb.i_in then
        let n := cb.size + 1 - cb.i_rep
        let m := size + 1 - n
        (size - cb.size,
          { grown with
            data := blit data m (block data cb.i_rep n.toNat)
            i_out := if cb.i_out ≥ cb.i_rep then cb.i_out + (m - cb.i_rep) else cb.i_out
            i_rep := m })
      else (size - cb.size, grown)
    else (0, cb)

/-- Attempt to grow the buffer if `len` bytes need it: the bytes free then, and the buffer. -/
def attemptGrow (dst : Cbuf) (len : Int) (reallocs : Bool) : Int × Cbuf :=
  let nfree := dst.size - dst.used
  if len > nfree ∧ dst.size < dst.maxsize then
    let g := dst.grow (len - nfree) reallocs
    (nfree + g.1, g.2)
  else (nfree, dst)

/-- `cbuf_shrink`, which is not implemented. -/
def shrink (cb : Cbuf) : Cbuf := cb

/-- `cbuf_dropper`. -/
def dropper (cb : Cbuf) (len : Int) : Cbuf :=
  let cb := { cb with
    used := cb.used - len, i_out := (cint (cb.i_out + len)).tmod (cb.size + 1) }
  if cb.size - cb.used > CBUF_CHUNK ∧ cb.size > cb.minsize then cb.shrink else cb

/-! ## `cbuf_iof` -/

/-- A function that copies up to `n` bytes out of an object: the bytes, and the object moved
forward. No byte is the end of a file. -/
abbrev Getf (σ : Type) := σ → Int → Except Errno (List Char) × σ

/-- A function that copies bytes into an object: the number of bytes taken. -/
abbrev Putf (δ : Type) := δ → List Char → Except Errno Int × δ

/-- `cbuf_get_mem`, on a pointer into the memory `mem`. -/
def getMem (mem : Int → Char) : Getf Int := fun srcbuf len =>
  (.ok (block mem srcbuf len.toNat), srcbuf + len)

/-- `cbuf_put_mem`. -/
def putMem : Putf (List Char) := fun dstbuf bytes => (.ok bytes.length, dstbuf ++ bytes)

/-- What a descriptor has for the next `read`. -/
inductive FdRead where
  | bytes (bs : List Char)
  | fails (e : Errno)
deriving DecidableEq, Repr

/-- `cbuf_get_fd`; the file ends where its script does. -/
def getFd : Getf (List FdRead)
  | [], _ => (.ok [], [])
  | .fails e :: reads, len => if e = .EINTR then getFd reads len else (.error e, reads)
  | .bytes bs :: reads, len =>
      (.ok (bs.take len.toNat),
        if bs.length ≤ len.toNat then reads else .bytes (bs.drop len.toNat) :: reads)

/-- What a descriptor does with the next `write`: how many bytes it takes at most. -/
inductive FdWrite where
  | takes (n : Nat)
  | fails (e : Errno)
deriving DecidableEq, Repr

/-- A descriptor that is written to: what it will do, and what it was given. -/
structure FdOut where
  writes : List FdWrite
  written : List Char
deriving DecidableEq, Repr

/-- `cbuf_put_fd`, for the script that is left. -/
def putFdFrom (written bytes : List Char) : List FdWrite → Except Errno Int × FdOut
  | [] => (.ok bytes.length, ⟨[], written ++ bytes⟩)
  | .fails e :: writes =>
      if e = .EINTR then putFdFrom written bytes writes else (.error e, ⟨writes, written⟩)
  | .takes n :: writes => (.ok (bytes.take n).length, ⟨writes, written ++ bytes.take n⟩)

/-- `cbuf_put_fd`. -/
def putFd : Putf FdOut := fun fd bytes => putFdFrom fd.written bytes fd.writes

/-! ## `cbuf_reader` and `cbuf_replayer` -/

/-- The variables of the loop that copies bytes out of a buffer. -/
structure Reading (δ : Type) where
  i_src : Int
  nleft : Int
  m : Except Errno Int
  dst : δ

/-- The loop of `cbuf_reader` and of `cbuf_replayer`. -/
def readerLoop {δ : Type} (src : Cbuf) (putf : Putf δ) : Nat → Reading δ → Reading δ
  | 0, r => r
  | fuel + 1, r =>
      if r.nleft > 0 then
        let n := min r.nleft (src.size + 1 - r.i_src)
        match putf r.dst (block src.data r.i_src n.toNat) with
        | (.error e, dst) => { r with m := .error e, dst := dst }
        | (.ok m, dst) =>
            let r : Reading δ :=
              if m > 0 then
                { r with nleft := r.nleft - m, i_src := (cint (r.i_src + m)).tmod (src.size + 1) }
              else r
            let r := { r with m := .ok m, dst := dst }
            if n ≠ m then r else readerLoop src putf fuel r
      else r

/-- Copy `len` bytes out of the buffer, from slot `i_src` on. Every pass of the loop but the
last takes a byte. -/
def copyOut {δ : Type} (src : Cbuf) (i_src len : Int) (putf : Putf δ) (dst : δ) :
    Except Errno Int × δ :=
  let r := src.readerLoop putf len.toNat ⟨i_src, len, .ok 0, dst⟩
  let n := len - r.nleft
  if n = 0 then (r.m, r.dst) else (.ok n, r.dst)

/-- `cbuf_reader`. -/
def reader {δ : Type} (src : Cbuf) (len : Int) (putf : Putf δ) (dst : δ) : Except Errno Int × δ :=
  let len := min len src.used
  if len = 0 then (.ok 0, dst) else src.copyOut src.i_out len putf dst

/-- `cbuf_replayer`. -/
def replayer {δ : Type} (src : Cbuf) (len : Int) (putf : Putf δ) (dst : δ) :
    Except Errno Int × δ :=
  let len := min len src.reused
  if len = 0 then (.ok 0, dst)
  else
    src.copyOut ((cint (src.i_out - len + (src.size + 1))).tmod (src.size + 1)) len putf dst

/-! ## `cbuf_writer` -/

/-- The variables of the loop that copies bytes into a buffer. -/
structure Writing (σ : Type) where
  data : Int → Char
  i_dst : Int
  nleft : Int
  m : Except Errno Int
  src : σ

/-- The loop of `cbuf_writer`, on a buffer of `size` bytes. -/
def writerLoop {σ : Type} (size : Int) (getf : Getf σ) : Nat → Writing σ → Writing σ
  | 0, w => w
  | fuel + 1, w =>
      if w.nleft > 0 then
        let n := min w.nleft (size + 1 - w.i_dst)
        match getf w.src n with
        | (.error e, src) => { w with m := .error e, src := src }
        | (.ok bytes, src) =>
            let m : Int := bytes.length
            let w : Writing σ :=
              if m > 0 then
                { w with
                  data := blit w.data w.i_dst bytes
                  nleft := w.nleft - m
                  i_dst := (cint (w.i_dst + m)).tmod (size + 1) }
              else w
            let w := { w with m := .ok m, src := src }
            if n ≠ m then w else writerLoop size getf fuel w
      else w

/-- How many of `len` bytes the overwrite behavior lets in. -/
def bound (dst : Cbuf) (len : Int) : Int :=
  match dst.overwrite with
  | .CBUF_NO_DROP => min len (dst.size - dst.used)
  | .CBUF_WRAP_ONCE => min len dst.size
  | .CBUF_WRAP_MANY => len

/-- Update the metadata after `n` bytes were put in up to slot `i_dst`; `nfree` were free. -/
def updateMetadata (dst : Cbuf) (n i_dst nfree : Int) : Cbuf :=
  let nrepl := dst.reused
  let dst := { dst with used := min (cint (dst.used + n)) dst.size, i_in := i_dst }
  let dst :=
    if n > nfree - nrepl then
      { dst with got_wrap := true, i_rep := (cint (dst.i_in + 1)).tmod (dst.size + 1) }
    else dst
  if n > nfree then { dst with i_out := dst.i_rep } else dst

/-- What `cbuf_writer` leaves behind: its value, `*ndropped` where it is set, the source moved
forward, and the buffer. -/
structure Written (σ : Type) where
  ret : Except Errno Int
  ndropped : Option Int
  src : σ
  dst : Cbuf

/-- `cbuf_writer`. -/
def writer {σ : Type} (dst : Cbuf) (len : Int) (getf : Getf σ) (src : σ) (reallocs : Bool) :
    Written σ :=
  let g := dst.attemptGrow len reallocs
  let nfree := g.1
  let dst := g.2
  let len := dst.bound len
  if dst.overwrite = .CBUF_NO_DROP ∧ len = 0 then ⟨.error .ENOSPC, none, src, dst⟩
  else
    let w := writerLoop dst.size getf len.toNat ⟨dst.data, dst.i_in, len, .ok 0, src⟩
    let n := len - w.nleft
    let dst := { dst with data := w.data }
    if n = 0 then ⟨w.m, none, w.src, dst⟩
    else
      let dst := if n > 0 then dst.updateMetadata n w.i_dst nfree else dst
      ⟨.ok n, some (max 0 (n - nfree)), w.src, dst⟩

/-! ## `cbuf_copier` -/

/-- The loop of `cbuf_copier`: the memory of the destination, and where the copy ends. -/
def copierLoop (src : Cbuf) (size : Int) :
    Nat → (data : Int → Char) → (i_src i_dst nleft : Int) → (Int → Char) × Int
  | 0, data, _, i_dst, _ => (data, i_dst)
  | fuel + 1, data, i_src, i_dst, nleft =>
      if nleft > 0 then
        let n := min (src.size + 1 - i_src) (size + 1 - i_dst)
        let n := min n nleft
        copierLoop src size fuel (blit data i_dst (block src.data i_src n.toNat))
          ((cint (i_src + n)).tmod (src.size + 1)) ((cint (i_dst + n)).tmod (size + 1)) (nleft - n)
      else (data, i_dst)

/-- `cbuf_copier`: its value, `*ndropped` where it is set, and the destination. -/
def copier (src dst : Cbuf) (len : Int) (reallocs : Bool) :
    Except Errno Int × Option Int × Cbuf :=
  let len := min len src.used
  if len = 0 then (.ok 0, none, dst)
  else
    let g := dst.attemptGrow len reallocs
    let nfree := g.1
    let dst := g.2
    let len := dst.bound len
    if dst.overwrite = .CBUF_NO_DROP ∧ len = 0 then (.error .ENOSPC, none, dst)
    else
      let ndropped := max 0 (cint (len - dst.size + dst.used))
      -- bytes that would be overwritten at once are not copied
      let n := len - dst.size
      let i_src :=
        if len > dst.size then (cint (src.i_out + n)).tmod (src.size + 1) else src.i_out
      let ncopy := if len > dst.size then len - n else len
      let c := copierLoop src dst.size ncopy.toNat dst.data i_src dst.i_in ncopy
      let dst := { dst with data := c.1 }
      let dst := if ncopy > 0 then dst.updateMetadata ncopy c.2 nfree else dst
      (.ok len, some ndropped, dst)

/-! ## Bytes in and out -/

/-- `cbuf_drop`. -/
def drop (src : Cbuf) (len : Int) : Except Errno Int × Cbuf :=
  if len < -1 then (.error .EINVAL, src)
  else if len = 0 then (.ok 0, src)
  else
    let len := if len = -1 then src.used else min len src.used
    (.ok len, if len > 0 then src.dropper len else src)

/-- `cbuf_peek`; `null` when there is no destination. -/
def peek (src : Cbuf) (null : Bool) (len : Int) : Except Errno Int × List Char :=
  if null ∨ len < 0 then (.error .EINVAL, [])
  else if len = 0 then (.ok 0, [])
  else src.reader len putMem []

/-- Drop what was read. -/
def dropRead (src : Cbuf) : Except Errno Int → Cbuf
  | .ok n => if n > 0 then src.dropper n else src
  | .error _ => src

/-- `cbuf_read`. -/
def read (src : Cbuf) (null : Bool) (len : Int) : Except Errno Int × List Char × Cbuf :=
  if null ∨ len < 0 then (.error .EINVAL, [], src)
  else if len = 0 then (.ok 0, [], src)
  else
    let r := src.reader len putMem []
    (r.1, r.2, src.dropRead r.1)

/-- `cbuf_replay`. -/
def replay (src : Cbuf) (null : Bool) (len : Int) : Except Errno Int × List Char :=
  if null ∨ len < 0 then (.error .EINVAL, [])
  else if len = 0 then (.ok 0, [])
  else src.replayer len putMem []

/-- Move the last `len` bytes that were read back. -/
def rewound (src : Cbuf) (len : Int) : Cbuf :=
  if len > 0 then
    { src with
      used := src.used + len
      i_out := (cint (src.i_out - len + (src.size + 1))).tmod (src.size + 1) }
  else src

/-- `cbuf_rewind`. -/
def rewind (src : Cbuf) (len : Int) : Except Errno Int × Cbuf :=
  if len < -1 then (.error .EINVAL, src)
  else if len = 0 then (.ok 0, src)
  else
    let reused := src.reused
    let len := if len = -1 then reused else min len reused
    (.ok len, src.rewound len)

/-- `cbuf_write`, from the memory at `srcbuf`. -/
def write (dst : Cbuf) (srcbuf : Option (Int → Char)) (len : Int) (reallocs : Bool) :
    Except Errno Int × Int × Cbuf :=
  match srcbuf with
  | none => (.error .EINVAL, 0, dst)
  | some mem =>
      if len < 0 then (.error .EINVAL, 0, dst)
      else if len = 0 then (.ok 0, 0, dst)
      else
        let w := dst.writer len (getMem mem) 0 reallocs
        (w.ret, w.ndropped.getD 0, w.dst)

/-! ## Descriptors -/

/-- `cbuf_peek_to_fd`. -/
def peekToFd (src : Cbuf) (dstfd : Int) (writes : List FdWrite) (len : Int) :
    Except Errno Int × List Char :=
  if dstfd < 0 ∨ len < -1 then (.error .EINVAL, [])
  else
    let len := if len = -1 then src.used else len
    if len > 0 then
      let r := src.reader len putFd ⟨writes, []⟩
      (r.1, r.2.written)
    else (.ok 0, [])

/-- `cbuf_read_to_fd`. -/
def readToFd (src : Cbuf) (dstfd : Int) (writes : List FdWrite) (len : Int) :
    Except Errno Int × List Char × Cbuf :=
  if dstfd < 0 ∨ len < -1 then (.error .EINVAL, [], src)
  else
    let len := if len = -1 then src.used else len
    if len > 0 then
      let r := src.reader len putFd ⟨writes, []⟩
      (r.1, r.2.written, src.dropRead r.1)
    else (.ok 0, [], src)

/-- `cbuf_replay_to_fd`. -/
def replayToFd (src : Cbuf) (dstfd : Int) (writes : List FdWrite) (len : Int) :
    Except Errno Int × List Char :=
  if dstfd < 0 ∨ len < -1 then (.error .EINVAL, [])
  else
    let len := if len = -1 then src.size - src.used else len
    if len > 0 then
      let r := src.replayer len putFd ⟨writes, []⟩
      (r.1, r.2.written)
    else (.ok 0, [])

/-- How much `cbuf_write_from_fd` asks for: all that is free, or else one more chunk. -/
def fdLength (dst : Cbuf) (len : Int) : Int :=
  if len = -1 then
    let len := dst.size - dst.used
    if len = 0 then min dst.size CBUF_CHUNK else len
  else len

/-- `cbuf_write_from_fd`: its value, `*ndropped`, what is left to read, and the buffer. -/
def writeFromFd (dst : Cbuf) (srcfd : Int) (reads : List FdRead) (len : Int) (reallocs : Bool) :
    Except Errno Int × Int × List FdRead × Cbuf :=
  if srcfd < 0 ∨ len < -1 then (.error .EINVAL, 0, reads, dst)
  else
    let len := dst.fdLength len
    if len > 0 then
      let w := dst.writer len getFd reads reallocs
      (w.ret, w.ndropped.getD 0, w.src, w.dst)
    else (.ok 0, 0, reads, dst)

/-! ## Two buffers -/

/-- `cbuf_copy`; `same` when the two pointers are equal. -/
def copy (same : Bool) (src dst : Cbuf) (len : Int) (reallocs : Bool) :
    Except Errno Int × Int × Cbuf :=
  if same then (.error .EINVAL, 0, dst)
  else if len < -1 then (.error .EINVAL, 0, dst)
  else if len = 0 then (.ok 0, 0, dst)
  else
    let len := if len = -1 then src.used else len
    if len > 0 then
      let c := copier src dst len reallocs
      (c.1, c.2.1.getD 0, c.2.2)
    else (.ok 0, 0, dst)

/-- `cbuf_move`: its value, `*ndropped`, the source and the destination. -/
def move (same : Bool) (src dst : Cbuf) (len : Int) (reallocs : Bool) :
    Except Errno Int × Int × Cbuf × Cbuf :=
  if same then (.error .EINVAL, 0, src, dst)
  else if len < -1 then (.error .EINVAL, 0, src, dst)
  else if len = 0 then (.ok 0, 0, src, dst)
  else
    let len := if len = -1 then src.used else len
    if len > 0 then
      let c := copier src dst len reallocs
      (c.1, c.2.1.getD 0, src.dropRead c.1, c.2.2)
    else (.ok 0, 0, src, dst)

end Cbuf

end Pdsh
