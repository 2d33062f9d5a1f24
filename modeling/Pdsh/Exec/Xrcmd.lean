import Pdsh.Err
import Pdsh.Lib.Supply

/-!
# The rsh connection

`xrcmd` opens a connection from a reserved port, makes the channel for standard error when
one is wanted, sends the users and the command and reads the answer: a NUL byte, or another byte
with the text of an error behind it. The text is read byte by byte into `tmpbuf`, up to a newline
or the end of the input; nothing looks at the size of the buffer.

What is stored is a call, with its place in the buffer, so that a run shows where `tmpbuf` is
written. The loops are unrolled to `fuel` rounds.
-/

namespace Pdsh.Exec.Xrcmd

open Lib.Process

/-! ## The calls -/

/-- The values of `errno` that `xrcmd` tells apart. -/
inductive SocketErrno where
  | EAGAIN | EADDRINUSE | ECONNREFUSED | EINTR
  | other (code : Nat)
deriving DecidableEq, Repr

/-- What `xpoll` gives: its result, whether `s` has an event, and `errno`, if it was set. -/
structure XpollResult where
  rv : Int
  revents : Bool
  errno : Option SocketErrno
deriving DecidableEq, Repr

/-- The other end of an accepted connection: whether its family is `AF_INET`, and its port. -/
structure Accepted where
  fd : Int
  inet : Bool
  sin_port : Nat
deriving DecidableEq, Repr

/-- The calls of `xrcmd`. `readErrno` is `errno` behind a read that gave nothing, if the read
failed; `errString` is `err` with `tmpbuf`, given as what has been stored in it. -/
inductive XrcmdCall where
  | sigBlock
  | sigRestore
  | rresvport (lport : Int)
  | setOwner (fd : Int)
  | connect (fd : Int) (addr : List Char) (port : Nat)
  | close (fd : Int)
  | sleep (timo : Nat)
  | listen (fd : Int)
  | xpoll (s s2 : Int)
  | accept (fd : Int)
  | readErrno
  | store (i : Nat) (c : Char)
  | err (format : String) (args : List MesgArg)
  | errString (format : String) (ahost : CStr) (tmpbuf : List Char)
deriving DecidableEq, Repr

/-- The answers: `rresvport` gives a socket and its port. -/
def XrcmdCall.Answer : XrcmdCall → Type
  | rresvport _ => Except SocketErrno (Int × Int)
  | connect .. => Except SocketErrno Unit
  | xpoll .. => XpollResult
  | accept _ => Option Accepted
  | readErrno => Option SocketErrno
  | _ => Unit

/-- The calls of `xrcmd`, as a signature. -/
def xrcmdSig : Sig := ⟨XrcmdCall, XrcmdCall.Answer⟩

instance : DecidableEq xrcmdSig.Call := inferInstanceAs (DecidableEq XrcmdCall)

/-- A program with the calls of `xrcmd`, over the connection `s`. -/
abbrev XrcmdM (α : Type) := Prog Char xrcmdSig α

/-- A call and its answer. -/
def call (c : XrcmdCall) : XrcmdM c.Answer := Prog.ask (S := xrcmdSig) c

/-- The arguments of `xrcmd` that it uses; `fd2p` says whether the pointer is there. -/
structure XrcmdArgs where
  ahost : CStr
  addr : List Char
  locuser : CStr
  remuser : CStr
  cmd : CStr
  fd2p : Bool
deriving DecidableEq, Repr

/-! ## `xrcmd` -/

/-- `IPPORT_RESERVED`. -/
def IPPORT_RESERVED : Nat := 1024

/-- `RSH_PORT`. -/
def RSH_PORT : Nat := 514

/-- The label `bad`. -/
def bad (s : Int) : XrcmdM Int := do
  call (.close s)
  call .sigRestore
  return -1

/-- The label `bad2`. -/
def bad2 (s lport efd : Int) : XrcmdM Int :=
  if lport ≠ 0 then do
    call (.close efd)
    bad s
  else bad s

/-- The loop that connects, and the socket with its port. -/
def connectLoop (x : XrcmdArgs) : Nat → Nat → Int → XrcmdM (Option (Int × Int))
  | 0, _, _ => .unfinished
  | fuel + 1, timo, lport => do
      match ← call (.rresvport lport) with
      | .error e =>
          call (.err (if e = .EAGAIN then "%p: %S: rcmd: socket: all ports in use\n"
            else "%p: %S: rcmd: socket: %m\n") [.str x.ahost])
          call .sigRestore
          return none
      | .ok (s, lport) =>
          call (.setOwner s)
          match ← call (.connect s x.addr RSH_PORT) with
          | .ok () => return some (s, lport)
          | .error e =>
              call (.close s)
              if e = .EADDRINUSE then
                connectLoop x fuel timo (lport - 1)
              else if e = .ECONNREFUSED ∧ timo ≤ 16 then
                call (.sleep timo)
                connectLoop x fuel (timo * 2) lport
              else
                call (.err (if e = .EINTR then "%p: %S: connect: timed out\n"
                  else "%p: %S: connect: %m\n") [.str x.ahost])
                call .sigRestore
                return none

/-- `*p++ = c`. -/
def put (tmpbuf : List Char) (c : Char) : XrcmdM (List Char) := do
  call (.store tmpbuf.length c)
  return tmpbuf ++ [c]

/-- The loop over the error string: the buffer and the last byte read. -/
def readLoop : Nat → List Char → Char → XrcmdM (List Char × Char)
  | 0, _, _ => .unfinished
  | fuel + 1, tmpbuf, c => do
      match ← Prog.recvByte with
      | none => return (tmpbuf, c)
      | some c =>
          let tmpbuf ← put tmpbuf c
          if c = '\n' then return (tmpbuf, c) else readLoop fuel tmpbuf c

/-- The end of the error string: a newline unless the last byte is one, and a NUL. -/
def finishString (tmpbuf : List Char) (c : Char) : XrcmdM (List Char) := do
  let tmpbuf ← if c ≠ '\n' then put tmpbuf '\n' else pure tmpbuf
  put tmpbuf NUL

/-- Retrieves the error string from the remote server. -/
def errorString (x : XrcmdArgs) (fuel : Nat) (c : Char) : XrcmdM Unit := do
  let r ← readLoop fuel [] c
  let tmpbuf ← finishString r.1 r.2
  call (.errString "%S: %s" x.ahost tmpbuf)

/-- The message for an answer that could not be read. -/
def readFailed (x : XrcmdArgs) : XrcmdM Unit := do
  match ← call .readErrno with
  | some .EINTR =>
      call (.err "%p: %S: read: protocol failure: %s\n" [.str x.ahost, .str "timed out".toList])
  | some _ => call (.err "%p: %S: read: protocol failure: %m\n" [.str x.ahost])
  | none =>
      call (.err "%p: %S: read: protocol failure: %s\n"
        [.str x.ahost, .str "invalid response".toList])

/-- Reads the answer to the command. -/
def readAnswer (x : XrcmdArgs) (fuel : Nat) (s lport efd : Int) : XrcmdM Int := do
  match ← Prog.recvByte with
  | none =>
      readFailed x
      bad2 s lport efd
  | some c =>
      if c ≠ NUL then
        errorString x fuel c
        bad2 s lport efd
      else
        call .sigRestore
        return s

/-- The three writes, up to the first that fails. -/
def sendStrings : List CStr → XrcmdM Bool
  | [] => return true
  | str :: rest => do
      let n ← Prog.send (str ++ [NUL])
      if n = 0 then return false else sendStrings rest

/-- Sends the users and the command and reads the answer. -/
def request (x : XrcmdArgs) (fuel : Nat) (s lport efd : Int) : XrcmdM Int := do
  if ← sendStrings [x.locuser, x.remuser, x.cmd] then
    readAnswer x fuel s lport efd
  else
    call (.err "%p: %S: write (user,cmd): %m\n" [.str x.ahost])
    bad2 s lport efd

/-- The channel for standard error. -/
def stderrChannel (x : XrcmdArgs) (fuel : Nat) (s lport : Int) : XrcmdM Int := do
  match ← call (.rresvport lport) with
  | .error _ => bad s
  | .ok (s2, lport) =>
      call (.listen s2)
      let num := snprintf 8 (intText 1 lport)
      let n ← Prog.send (num ++ [NUL])
      if n ≠ num.length + 1 then
        call (.err "%p: %S: rcmd: write (setting up stderr): %m\n" [.str x.ahost])
        call (.close s2)
        bad s
      else
        let r ← call (.xpoll s s2)
        if r.rv ≠ 1 ∨ r.revents then
          call (.err (if r.errno.isSome then "%p: %S: rcmd: xpoll (setting up stderr): %m\n"
            else "%p: %S: rcmd: xpoll: protocol failure in circuit setup\n") [.str x.ahost])
          call (.close s2)
          bad s
        else
          let s3 ← call (.accept s2)
          call (.close s2)
          match s3 with
          | none =>
              call (.err "%p: %S: rcmd: accept: %m\n" [.str x.ahost])
              bad s
          | some accepted =>
              if ¬ accepted.inet ∨ IPPORT_RESERVED ≤ accepted.sin_port ∨
                  accepted.sin_port < IPPORT_RESERVED / 2 then
                call (.err "%p: %S: socket: protocol failure in circuit setup\n" [.str x.ahost])
                bad2 s lport accepted.fd
              else request x fuel s lport accepted.fd

/-- `xrcmd`. -/
def xrcmd (x : XrcmdArgs) (fuel : Nat) : XrcmdM Int := do
  call .sigBlock
  match ← connectLoop x fuel 1 (IPPORT_RESERVED - 1) with
  | none => return -1
  | some (s, lport) =>
      if x.fd2p then stderrChannel x fuel s (lport - 1)
      else
        let n ← Prog.send [NUL]
        if n ≠ 1 then
          call (.err "%p: %S: write: %m\n" [.str x.ahost])
          bad s
        else request x fuel s 0 0

/-! ## What a host that sends `σ` can do to the buffer -/

/-- A store is inside of `tmpbuf`, and the string of the message ends inside of it. -/
def Inside : XrcmdCall → Prop
  | .store i _ => i < LINEBUFSIZE
  | .errString _ _ tmpbuf => NUL ∈ tmpbuf.take LINEBUFSIZE
  | _ => True

/-- No run with a host that sends `σ` writes outside of the buffer or prints a string that does not
end in it. -/
def KeepsBuffer (x : XrcmdArgs) (σ : Stream' (Option Char)) : Prop :=
  ∀ fuel, ((xrcmd x fuel).supply σ).EveryCall Inside

/-- The error string, if there is one, ends before the buffer does. -/
def ErrorEnds (σ : Stream' (Option Char)) : Prop :=
  ∀ c, σ.get 0 = some c → c ≠ NUL →
    ∃ n < LINEBUFSIZE - 1, σ.get (n + 1) = none ∨ σ.get (n + 1) = some '\n'

section Kept

variable {σ : Stream' (Option Char)} {α β : Type} {post : α × Stream' (Option Char) → Prop}

/-- Every call of the program is inside, for a host that sends `σ`. -/
abbrev Keeps (σ : Stream' (Option Char)) (p : XrcmdM α)
    (post : α × Stream' (Option Char) → Prop) : Prop :=
  (p.supply σ).Safe Inside (fun _ _ => True) post

theorem keeps_call {c : XrcmdCall} {f : c.Answer → XrcmdM α} :
    Keeps σ (call c >>= f) post ↔ Inside c ∧ ∀ a, Keeps σ (f a) post :=
  ⟨fun h => ⟨h.1, fun a => h.2 a trivial⟩, fun h => ⟨h.1, fun a _ => h.2 a⟩⟩

theorem keeps_send {bytes : List Char} {f : Nat → XrcmdM α} :
    Keeps σ (Prog.send bytes >>= f) post ↔ ∀ n, Keeps σ (f n) post := Iff.rfl

theorem keeps_recvByte {f : Option Char → XrcmdM α} :
    Keeps σ (Prog.recvByte >>= f) post ↔ Keeps σ.tail (f σ.head) post := by
  rw [Keeps, Prog.supply_bind, Prog.supply_recvByte]
  rfl

theorem keeps_pure {a : α} : Keeps σ (pure a) post ↔ post (a, σ) := Iff.rfl

theorem keeps_bind {p : XrcmdM β} {f : β → XrcmdM α} {Q : β × Stream' (Option Char) → Prop}
    (h : Keeps σ p Q) (hf : ∀ b σ', Q (b, σ') → Keeps σ' (f b) post) :
    Keeps σ (p >>= f) post := by
  rw [Keeps, Prog.supply_bind]
  exact h.bind fun r hr => hf r.1 r.2 hr

/-! ### The error string -/

theorem keeps_put {tmpbuf : List Char} {c : Char} {post : List Char × Stream' (Option Char) → Prop}
    (hlen : tmpbuf.length < LINEBUFSIZE) (hpost : post (tmpbuf ++ [c], σ)) :
    Keeps σ (put tmpbuf c) post :=
  keeps_call.mpr ⟨hlen, fun _ => keeps_pure.mpr hpost⟩

/-- There is room for what the loop leaves to do: a NUL, and a newline in front of it if the last
byte was none. -/
def Room (tmpbuf : List Char) (c : Char) : Prop :=
  tmpbuf.length + (if c = '\n' then 0 else 1) < LINEBUFSIZE

theorem keeps_readLoop {tmpbuf : List Char} {c : Char} {n : Nat} (fuel : Nat)
    (hroom : tmpbuf.length + n < LINEBUFSIZE - 1)
    (hstop : σ.get n = none ∨ σ.get n = some '\n') :
    Keeps σ (readLoop fuel tmpbuf c) fun r => Room r.1.1 r.1.2 := by
  induction fuel generalizing tmpbuf c n σ with
  | zero => trivial
  | succ fuel ih =>
      rw [readLoop, keeps_recvByte]
      have hlen : tmpbuf.length < LINEBUFSIZE - 1 := Nat.lt_of_le_of_lt (Nat.le_add_right _ n) hroom
      cases hhead : σ.head with
      | none =>
          refine keeps_pure.mpr ?_
          show tmpbuf.length + (if c = '\n' then 0 else 1) < LINEBUFSIZE
          split <;> omega
      | some d =>
          refine keeps_bind (Q := fun r => r = (tmpbuf ++ [d], σ.tail))
            (keeps_put (by omega) rfl) ?_
          rintro _ _ ⟨⟩
          split
          next hd =>
            refine keeps_pure.mpr ?_
            show (tmpbuf ++ [d]).length + (if d = '\n' then 0 else 1) < LINEBUFSIZE
            rw [if_pos hd, List.length_append, List.length_singleton]
            omega
          next hd =>
            -- the end is not here, so it is further on
            cases n with
            | zero =>
                rcases hstop with hnone | hnewline
                · exact absurd (hhead.symm.trans hnone) nofun
                · exact absurd (Option.some.inj (hhead.symm.trans hnewline)) hd
            | succ n =>
                refine ih (n := n) ?_ hstop
                rw [List.length_append, List.length_singleton]
                omega

theorem keeps_finishString {tmpbuf : List Char} {c : Char} (hroom : Room tmpbuf c) :
    Keeps σ (finishString tmpbuf c) fun r => NUL ∈ r.1.take LINEBUFSIZE := by
  have hend : ∀ buf : List Char, buf.length < LINEBUFSIZE →
      Keeps σ (put buf NUL) fun r => NUL ∈ r.1.take LINEBUFSIZE := by
    intro buf hlen
    refine keeps_put hlen ?_
    show NUL ∈ (buf ++ [NUL]).take LINEBUFSIZE
    rw [List.take_of_length_le (by rw [List.length_append, List.length_singleton]; exact hlen)]
    exact List.mem_append_right _ (List.mem_singleton_self NUL)
  rw [Room] at hroom
  rw [finishString]
  split
  next hc =>
    rw [if_neg hc] at hroom
    refine keeps_bind (Q := fun r => r = (tmpbuf ++ ['\n'], σ)) (keeps_put (by omega) rfl) ?_
    rintro _ _ ⟨⟩
    refine hend _ ?_
    rw [List.length_append, List.length_singleton]
    exact hroom
  next hc =>
    rw [if_pos (not_not.mp hc)] at hroom
    exact hend tmpbuf hroom

theorem keeps_errorString (x : XrcmdArgs) (fuel : Nat) {c : Char} {n : Nat}
    (hn : n < LINEBUFSIZE - 1) (hstop : σ.get n = none ∨ σ.get n = some '\n') :
    Keeps σ (errorString x fuel c) fun _ => True := by
  refine keeps_bind (keeps_readLoop fuel (by simpa using hn) hstop) ?_
  intro r σ' hroom
  refine keeps_bind (keeps_finishString hroom) ?_
  intro tmpbuf σ'' hterminated
  exact ⟨hterminated, fun _ _ => trivial⟩

/-! ### The rest of `xrcmd` -/

theorem keeps_bad (s : Int) : Keeps σ (bad s) fun _ => True :=
  keeps_call.mpr ⟨trivial, fun _ => keeps_call.mpr ⟨trivial, fun _ => trivial⟩⟩

theorem keeps_bad2 (s lport efd : Int) : Keeps σ (bad2 s lport efd) fun _ => True := by
  rw [bad2]
  split
  · exact keeps_call.mpr ⟨trivial, fun _ => keeps_bad s⟩
  · exact keeps_bad s

theorem keeps_err {format : String} {args : List MesgArg} {p : XrcmdM α} (h : Keeps σ p post) :
    Keeps σ (call (.err format args) >>= fun _ => p) post :=
  keeps_call.mpr ⟨trivial, fun _ => h⟩

theorem keeps_readFailed (x : XrcmdArgs) : Keeps σ (readFailed x) fun _ => True := by
  refine keeps_call.mpr ⟨trivial, fun e => ?_⟩
  rcases e with _ | _ | _ | _ | _ | _ <;> exact ⟨trivial, fun _ _ => trivial⟩

theorem keeps_readAnswer (x : XrcmdArgs) (fuel : Nat) (s lport efd : Int) (hends : ErrorEnds σ) :
    Keeps σ (readAnswer x fuel s lport efd) fun _ => True := by
  rw [readAnswer, keeps_recvByte]
  cases hhead : σ.head with
  | none => exact keeps_bind (keeps_readFailed x) fun _ _ _ => keeps_bad2 s lport efd
  | some c =>
      by_cases hc : c = NUL
      · simp only [hc, ne_eq, not_true_eq_false, if_false]
        exact keeps_call.mpr ⟨trivial, fun _ => trivial⟩
      · obtain ⟨n, hn, hstop⟩ := hends c hhead hc
        simp only [ne_eq, hc, not_false_eq_true, if_true]
        exact keeps_bind (keeps_errorString x fuel hn hstop) fun _ _ _ => keeps_bad2 s lport efd

theorem keeps_sendStrings (strs : List CStr) :
    Keeps σ (sendStrings strs) fun r => r.2 = σ := by
  induction strs with
  | nil => exact keeps_pure.mpr rfl
  | cons str strs ih =>
      refine keeps_send.mpr fun n => ?_
      split
      · exact keeps_pure.mpr rfl
      · exact ih

theorem keeps_request (x : XrcmdArgs) (fuel : Nat) (s lport efd : Int) (hends : ErrorEnds σ) :
    Keeps σ (request x fuel s lport efd) fun _ => True := by
  refine keeps_bind (keeps_sendStrings _) ?_
  rintro sent _ rfl
  split
  · exact keeps_readAnswer x fuel s lport efd hends
  · exact keeps_err (keeps_bad2 s lport efd)

theorem keeps_stderrChannel (x : XrcmdArgs) (fuel : Nat) (s lport : Int) (hends : ErrorEnds σ) :
    Keeps σ (stderrChannel x fuel s lport) fun _ => True := by
  refine keeps_call.mpr ⟨trivial, fun opened => ?_⟩
  rcases opened with _ | ⟨s2, lport⟩
  · exact keeps_bad s
  refine keeps_call.mpr ⟨trivial, fun _ => keeps_send.mpr fun n => ?_⟩
  split
  · exact keeps_err (keeps_call.mpr ⟨trivial, fun _ => keeps_bad s⟩)
  refine keeps_call.mpr ⟨trivial, fun r => ?_⟩
  split
  · exact keeps_err (keeps_call.mpr ⟨trivial, fun _ => keeps_bad s⟩)
  refine keeps_call.mpr ⟨trivial, fun s3 => keeps_call.mpr ⟨trivial, fun _ => ?_⟩⟩
  cases s3 with
  | none => exact keeps_err (keeps_bad s)
  | some accepted =>
      dsimp only
      split
      · exact keeps_err (keeps_bad2 s lport accepted.fd)
      · exact keeps_request x fuel s lport accepted.fd hends

theorem keeps_connectLoop (x : XrcmdArgs) (fuel timo : Nat) (lport : Int) :
    Keeps σ (connectLoop x fuel timo lport) fun r => r.2 = σ := by
  induction fuel generalizing timo lport with
  | zero => trivial
  | succ fuel ih =>
      refine keeps_call.mpr ⟨trivial, fun opened => ?_⟩
      rcases opened with e | ⟨s, lport⟩
      · exact keeps_err (keeps_call.mpr ⟨trivial, fun _ => keeps_pure.mpr rfl⟩)
      refine keeps_call.mpr ⟨trivial, fun _ => keeps_call.mpr ⟨trivial, fun connected => ?_⟩⟩
      rcases connected with e | ⟨⟩
      · refine keeps_call.mpr ⟨trivial, fun _ => ?_⟩
        split
        · exact ih timo (lport - 1)
        split
        · exact keeps_call.mpr ⟨trivial, fun _ => ih (timo * 2) lport⟩
        · exact keeps_err (keeps_call.mpr ⟨trivial, fun _ => keeps_pure.mpr rfl⟩)
      · exact keeps_pure.mpr rfl

theorem keeps_xrcmd (x : XrcmdArgs) (fuel : Nat) (hends : ErrorEnds σ) :
    Keeps σ (xrcmd x fuel) fun _ => True := by
  refine keeps_call.mpr ⟨trivial, fun _ => keeps_bind (keeps_connectLoop x fuel 1 _) ?_⟩
  rintro (_ | ⟨s, lport⟩) _ rfl
  · exact keeps_pure.mpr trivial
  dsimp only
  split
  · exact keeps_stderrChannel x fuel s _ hends
  · refine keeps_send.mpr fun n => ?_
    split
    · exact keeps_err (keeps_bad s)
    · exact keeps_request x fuel s 0 0 hends

end Kept

/-! ### An error string that is too long -/

section Overrun

variable {σ : Stream' (Option Char)} {α : Type} {g : List Char → XrcmdM α}

/-- Every call of every run is inside, for a host that sends `σ`. -/
abbrev RunsInside (σ : Stream' (Option Char)) (p : XrcmdM α) : Prop :=
  (p.supply σ).EveryCall Inside

theorem inside_call {c : XrcmdCall} {f : c.Answer → XrcmdM α} (h : RunsInside σ (call c >>= f))
    (a : c.Answer) : Inside c ∧ RunsInside σ (f a) :=
  h.of_call a

theorem inside_send {bytes : List Char} {f : Nat → XrcmdM α}
    (h : RunsInside σ (Prog.send bytes >>= f)) : RunsInside σ (f bytes.length) :=
  h.of_write (Nat.le_refl bytes.length)

theorem inside_recvByte {f : Option Char → XrcmdM α} (h : RunsInside σ (Prog.recvByte >>= f)) :
    RunsInside σ.tail (f σ.head) := by
  rw [RunsInside, Prog.supply_bind, Prog.supply_recvByte] at h
  exact h

theorem inside_put {tmpbuf : List Char} {c : Char} (h : RunsInside σ (put tmpbuf c >>= g)) :
    tmpbuf.length < LINEBUFSIZE ∧ RunsInside σ (g (tmpbuf ++ [c])) :=
  inside_call (f := fun _ => g (tmpbuf ++ [c])) h ()

/-- Behind the loop there is a NUL to store, and a newline if the last byte was none. -/
theorem room_of_finishString {tmpbuf : List Char} {c : Char}
    (h : RunsInside σ (finishString tmpbuf c >>= g)) : Room tmpbuf c := by
  rw [finishString] at h
  by_cases hc : c = '\n'
  · simp only [hc, ne_eq, not_true_eq_false, if_false] at h
    have hlen := (inside_put (g := g) h).1
    rw [Room, if_pos hc]
    exact hlen
  · simp only [hc, ne_eq, not_false_eq_true, if_true] at h
    have hlen := (inside_put (g := g) (inside_put (g := fun buf => put buf NUL >>= g) h).2).1
    rw [List.length_append, List.length_singleton] at hlen
    rw [Room, if_neg hc]
    exact hlen

/-- The loop and the end of the string. -/
abbrev readString (fuel : Nat) (tmpbuf : List Char) (c : Char) (g : List Char → XrcmdM α) :
    XrcmdM α :=
  readLoop fuel tmpbuf c >>= fun r => finishString r.1 r.2 >>= g

/-- One round of the loop. -/
theorem inside_readString {fuel : Nat} {tmpbuf : List Char} {c : Char}
    (h : RunsInside σ (readString (fuel + 1) tmpbuf c g)) :
    (σ.head = none ∧ Room tmpbuf c) ∨ ∃ d, σ.head = some d ∧ tmpbuf.length < LINEBUFSIZE ∧
      (d = '\n' → Room (tmpbuf ++ [d]) d) ∧
      (d ≠ '\n' → RunsInside σ.tail (readString fuel (tmpbuf ++ [d]) d g)) := by
  rw [readString, readLoop, Prog.bind_assoc] at h
  have hstep := inside_recvByte h
  cases hhead : σ.head with
  | none =>
      rw [hhead] at hstep
      exact .inl ⟨rfl, room_of_finishString hstep⟩
  | some d =>
      rw [hhead] at hstep
      dsimp only at hstep
      rw [Prog.bind_assoc] at hstep
      obtain ⟨hlen, hrest⟩ := inside_put hstep
      refine .inr ⟨d, rfl, hlen, fun hd => ?_, fun hd => ?_⟩
      · rw [if_pos hd] at hrest
        exact room_of_finishString hrest
      · rw [if_neg hd] at hrest
        exact hrest

/-- Where the bytes of the loop stay inside, they end early enough. -/
theorem stop_of_inside {fuel : Nat} {tmpbuf : List Char} {c : Char} (hc : c ≠ '\n' ∨ tmpbuf = [])
    (hlen : tmpbuf.length ≤ LINEBUFSIZE) (hfuel : LINEBUFSIZE < tmpbuf.length + fuel)
    (h : RunsInside σ (readString fuel tmpbuf c g)) :
    ∃ n, tmpbuf.length + n < LINEBUFSIZE - 1 ∧ (σ.get n = none ∨ σ.get n = some '\n') := by
  induction fuel generalizing tmpbuf c σ with
  | zero => omega
  | succ fuel ih =>
      rcases inside_readString h with ⟨hnone, hroom⟩ | ⟨d, hd, hlen', hnewline, hmore⟩
      · refine ⟨0, ?_, .inl hnone⟩
        rcases hc with hc | rfl
        · rw [Room, if_neg hc] at hroom
          omega
        · decide
      by_cases hdn : d = '\n'
      · refine ⟨0, ?_, .inr (hdn ▸ hd)⟩
        have hroom := hnewline hdn
        rw [Room, if_pos hdn, List.length_append, List.length_singleton] at hroom
        omega
      · have hlength : (tmpbuf ++ [d]).length = tmpbuf.length + 1 := List.length_append
        obtain ⟨n, hn, hstop⟩ := ih (.inl hdn) (by omega) (by omega) (hmore hdn)
        exact ⟨n + 1, by omega, hstop⟩

theorem inside_sendStrings {strs : List CStr} {f : Bool → XrcmdM α}
    (h : RunsInside σ (sendStrings strs >>= f)) : RunsInside σ (f true) := by
  induction strs with
  | nil => exact h
  | cons str strs ih =>
      have hrest :=
        inside_send (f := fun n => (if n = 0 then pure false else sendStrings strs) >>= f) h
      rw [if_neg (by simp)] at hrest
      exact ih hrest

/-- A request whose bytes stay inside has an error string that ends. -/
theorem ends_of_request {x : XrcmdArgs} {fuel : Nat} {s lport efd : Int}
    (hfuel : LINEBUFSIZE < fuel)
    (h : RunsInside σ (request x fuel s lport efd)) : ErrorEnds σ := by
  intro c hc hnul
  have hanswer := inside_sendStrings h
  rw [if_pos rfl, readAnswer] at hanswer
  have hbyte := inside_recvByte hanswer
  rw [show σ.head = some c from hc] at hbyte
  simp only [ne_eq, hnul, not_false_eq_true, if_true] at hbyte
  have hstring : (errorString x fuel c >>= fun _ => bad2 s lport efd) = readString fuel [] c
      fun tmpbuf => call (.errString "%S: %s" x.ahost tmpbuf) >>= fun _ => bad2 s lport efd := by
    rw [errorString, readString, Prog.bind_assoc]
    exact congrArg _ (funext fun r => Prog.bind_assoc _ _ _)
  rw [hstring] at hbyte
  obtain ⟨n, hn, hstop⟩ := stop_of_inside (.inr rfl) (Nat.zero_le _) (by simpa using hfuel) hbyte
  exact ⟨n, by simpa using hn, hstop⟩

/-- A first port and a connection are given. -/
theorem inside_connectLoop {x : XrcmdArgs} {fuel timo : Nat} {lport : Int}
    {f : Option (Int × Int) → XrcmdM α}
    (h : RunsInside σ (connectLoop x (fuel + 1) timo lport >>= f)) :
    RunsInside σ (f (some (3, lport))) := by
  have hport := (inside_call h (.ok (3, lport))).2
  have howner := (inside_call hport ()).2
  exact (inside_call howner (.ok ())).2

theorem inside_stderrChannel {x : XrcmdArgs} {fuel : Nat} {s lport : Int}
    (h : RunsInside σ (stderrChannel x fuel s lport)) :
    RunsInside σ (request x fuel s lport 5) := by
  have hport := (inside_call h (.ok (4, lport))).2
  have hnum := inside_send (inside_call hport ()).2
  rw [if_neg (by simp)] at hnum
  have hpoll := (inside_call hnum ⟨1, false, none⟩).2
  rw [if_neg (by simp)] at hpoll
  have haccept := (inside_call (inside_call hpoll (some ⟨5, true, 1000⟩)).2 ()).2
  exact haccept

/-- The host gets as far as its answer. -/
theorem inside_xrcmd {x : XrcmdArgs} {fuel : Nat} (h : RunsInside σ (xrcmd x (fuel + 1))) :
    ∃ s lport efd, RunsInside σ (request x (fuel + 1) s lport efd) := by
  have hloop := inside_connectLoop (inside_call h ()).2
  dsimp only at hloop
  split at hloop
  · exact ⟨_, _, _, inside_stderrChannel hloop⟩
  · have hsent := inside_send hloop
    rw [if_neg (by simp)] at hsent
    exact ⟨_, _, _, hsent⟩

theorem ends_of_keepsBuffer {x : XrcmdArgs} (h : KeepsBuffer x σ) : ErrorEnds σ := by
  obtain ⟨s, lport, efd, hrequest⟩ := inside_xrcmd (h (LINEBUFSIZE + 1))
  exact ends_of_request (Nat.lt_succ_self LINEBUFSIZE) hrequest

end Overrun

/-- The error string stays in the buffer exactly when it ends within the 2047 bytes behind the
answer, by a newline or with the input. -/
theorem error_string_inside_iff (x : XrcmdArgs) (σ : Stream' (Option Char)) :
    KeepsBuffer x σ ↔ ErrorEnds σ :=
  ⟨ends_of_keepsBuffer, fun hends fuel => .of_safe (keeps_xrcmd x fuel hends)⟩

/-- A byte 1, 2047 times `x` and the end of the input. -/
def longError : Stream' (Option Char) := fun n =>
  if n = 0 then some '\x01' else if n < LINEBUFSIZE then some 'x' else none

theorem longError_overruns :
    ¬ KeepsBuffer ⟨"foo".toList, [], "me".toList, "me".toList, "date".toList, true⟩ longError := by
  intro h
  obtain ⟨n, hn, hstop⟩ := ends_of_keepsBuffer h '\x01' rfl (by decide)
  have hx : longError.get (n + 1) = some 'x' := by
    rw [Stream'.get, longError, if_neg (Nat.succ_ne_zero n), if_pos (by omega)]
  rw [hx] at hstop
  rcases hstop with hnone | hnewline
  · cases hnone
  · cases hnewline

end Pdsh.Exec.Xrcmd
