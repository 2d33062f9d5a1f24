import Pdsh.Libc
import Pdsh.Lib.Observed

/-!
# The server of reserved ports

A socket with a reserved port takes root's privileges. `privsep_init` forks a child that keeps
them and gives them up itself; the threads of the parent then ask the child for a socket over a
socket pair, one thread at a time under `privsep_mutex`, and the child sends the socket back.
Where nothing was forked, `client_fd` is negative and a thread makes the socket itself.

This is the step function of the threads and the child, for any number of threads. A request and
a reply are one message each: four bytes, with the socket beside them in a reply. A socket is its
number among the sockets made. The kernel says which ports it gives (`grants`). `write`,
`recvmsg` and `sendmsg` may fail.
-/

namespace Pdsh.Privsep

def AF_INET : Int32 := 2

/-- `privsep_get_family`: the family, and `lport` without it. -/
def privsepGetFamily (lport : Int32) : Int32 × Int32 :=
  let family := (lport >>> 16) &&& 0xffff
  (if family ≠ 0 then family else AF_INET, lport &&& 0xffff)

/-- `privsep_set_family`: `lport` with the family, where it fits. -/
def privsepSetFamily (lport family : Int32) : Option Int32 :=
  if family > 0xffff then none else some (lport ||| (family <<< 16))

/-- What `rresvport_af` does: it makes a socket with a port, or fails and leaves something
in its argument. -/
inductive Answer where
  | port (p : UInt16)
  | failed (left : Int32)
deriving DecidableEq, Repr

/-- A message of the child: `lport`, and the socket if there is one. -/
structure Reply where
  lport : Int32
  fd : Option Nat
deriving DecidableEq, Repr

/-- How far a thread has come in `privsep_rresvport_af`. -/
inductive ClientPc where
  | idle
  /-- at the test of `client_fd` -/
  | called (lport family : Int32)
  /-- before it has the mutex -/
  | waiting (lport : Int32)
  /-- before `write` -/
  | locked (lport : Int32)
  /-- before `recvmsg` -/
  | written (lport : Int32)
  /-- before it gives the mutex back -/
  | received (s : Option Nat) (lport : Int32)
  | returning (s : Option Nat) (lport : Int32)
deriving DecidableEq, Repr

/-- How far the child has come in the loop of `privsep_server`. -/
inductive ServerPc where
  | reading
  | reserving (lport family : Int32)
  | sending (s : Option Nat) (lport : Int32)
  | closing (s : Option Nat)
  | exited
deriving DecidableEq, Repr

/-- The socket pair and the child. -/
structure Link where
  toServer : List Int32
  toClient : List Reply
  server : ServerPc
deriving DecidableEq, Repr

/-- The threads and the child. -/
structure System where
  /-- `client_fd >= 0` -/
  client_fd : Bool
  clients : List ClientPc
  mutex : Option Nat
  link : Link
  /-- the sockets made so far, by family and port -/
  sockets : List (Int32 × UInt16)
  /-- behind `privsep_fini` -/
  fini : Bool
deriving DecidableEq, Repr

/-- The steps of a thread behind the call. -/
inductive ClientAction where
  /-- `p_rresvport_af`, where there is no child -/
  | direct (answer : Answer)
  | setFamily
  | lock
  | write (ok : Bool)
  | recv
  /-- `recvmsg` fails; `fd` is what stands where the socket would -/
  | recvFails (fd : Option Nat)
  | unlock
  | ret
deriving DecidableEq, Repr

inductive ServerAction where
  | read
  | reserve (answer : Answer)
  | send (ok : Bool)
  | close
deriving DecidableEq, Repr

inductive Action where
  | call (k : Nat) (lport family : Int32)
  | client (k : Nat) (a : ClientAction)
  | server (a : ServerAction)
  | fini
deriving DecidableEq, Repr

/-- The kernel: from the sockets made, the port and the family to whether it may answer so. -/
abbrev Kernel := List (Int32 × UInt16) → Int32 → Int32 → Answer → Bool

/-- A kernel that gives each port once. -/
def onePort : Kernel := fun sockets _ _ answer =>
  match answer with
  | .port p => sockets.all fun made => made.2 ≠ p
  | .failed _ => true

/-! ## The calls -/

/-- `p_rresvport_af`: the socket, what stands in `port` behind it, and the sockets made. -/
def pRresvportAf (sockets : List (Int32 × UInt16)) (family : Int32) :
    Answer → Option Nat × Int32 × List (Int32 × UInt16)
  | .port p => (some sockets.length, Int32.ofNat p.toNat, sockets ++ [(family, p)])
  | .failed left => (none, left, sockets)

/-- `send_rresvport`. -/
def sendRresvport (fd : Option Nat) (lport : Int32) : Reply :=
  ⟨if fd.isSome then lport else -1, fd⟩

/-- `recv_rresvport` behind `recvmsg`: the socket, and what stands in `lptr`. -/
def recvRresvport (reply : Reply) : Option Nat × Int32 :=
  (if reply.lport < 0 then none else reply.fd, reply.lport)

/-! ## The steps -/

/-- A step of the thread `k` in `privsep_rresvport_af`. -/
def clientStep (grants : Kernel) (s : System) (k : Nat) (pc : ClientPc) : ClientAction → Option System
  | .direct answer =>
      match pc with
      | .called lport family =>
          if ¬s.client_fd ∧ grants s.sockets lport family answer then
            let (fd, port, sockets) := pRresvportAf s.sockets family answer
            some { s with clients := s.clients.set k (.returning fd port), sockets := sockets }
          else none
      | _ => none
  | .setFamily =>
      match pc with
      | .called lport family =>
          if s.client_fd then
            match privsepSetFamily lport family with
            | none => some { s with clients := s.clients.set k (.returning none lport) }
            | some lport => some { s with clients := s.clients.set k (.waiting lport) }
          else none
      | _ => none
  | .lock =>
      match pc with
      | .waiting lport =>
          if s.mutex = none then
            some { s with clients := s.clients.set k (.locked lport), mutex := some k }
          else none
      | _ => none
  | .write ok =>
      match pc with
      | .locked lport =>
          if ok then
            some { s with clients := s.clients.set k (.written lport),
                          link := { s.link with toServer := s.link.toServer ++ [lport] } }
          else some { s with clients := s.clients.set k (.received none lport) }
      | _ => none
  | .recv =>
      match pc, s.link.toClient with
      | .written _, reply :: rest =>
          let (fd, lport) := recvRresvport reply
          some { s with clients := s.clients.set k (.received fd lport),
                        link := { s.link with toClient := rest } }
      | _, _ => none
  | .recvFails fd =>
      match pc with
      | .written lport =>
          let fd := if lport < 0 then none else fd
          some { s with clients := s.clients.set k (.received fd lport) }
      | _ => none
  | .unlock =>
      match pc with
      | .received fd lport =>
          some { s with clients := s.clients.set k (.returning fd lport), mutex := none }
      | _ => none
  | .ret =>
      match pc with
      | .returning _ _ => some { s with clients := s.clients.set k .idle }
      | _ => none

/-- A step of the child in `privsep_server`. -/
def serverStep (grants : Kernel) (s : System) (a : ServerAction) : Option System :=
  match a, s.link.server with
  | .read, .reading =>
      match s.link.toServer with
      | [] => if s.fini then some { s with link := { s.link with server := .exited } } else none
      | lport :: rest =>
          let (family, lport) := privsepGetFamily lport
          some { s with link := { s.link with toServer := rest, server := .reserving lport family } }
  | .reserve answer, .reserving lport family =>
      if grants s.sockets lport family answer then
        let (fd, port, sockets) := pRresvportAf s.sockets family answer
        some { s with link := { s.link with server := .sending fd port }, sockets := sockets }
      else none
  | .send ok, .sending fd lport =>
      if ok then
        some { s with link := { s.link with toClient := s.link.toClient ++ [sendRresvport fd lport],
                                            server := .closing fd } }
      else some { s with link := { s.link with server := .closing fd } }
  | .close, .closing _ => some { s with link := { s.link with server := .reading } }
  | _, _ => none

/-- One step. `main` calls `privsep_fini` when the threads are done. -/
def step (grants : Kernel) (s : System) : Action → Option System
  | .call k lport family =>
      if s.clients[k]? = some .idle ∧ ¬s.fini then
        some { s with clients := s.clients.set k (.called lport family) }
      else none
  | .client k a => s.clients[k]?.bind fun pc => clientStep grants s k pc a
  | .server a => if s.client_fd then serverStep grants s a else none
  | .fini => if ¬s.fini ∧ ∀ pc ∈ s.clients, pc = .idle then some { s with fini := true } else none

/-- `n` threads behind `privsep_init`, which forks the child where the program is set-user-id. -/
def privsepInit (n : Nat) (setuid : Bool) : System :=
  ⟨setuid, List.replicate n .idle, none, ⟨[], [], .reading⟩, [], false⟩

/-! ## What a step does -/

variable {grants : Kernel} {s s' : System} {a : Action}

/-- The steps, one constructor for each thing a step can do. -/
inductive Stepped (grants : Kernel) (s : System) : Action → System → Prop where
  | call (k : Nat) (lport family : Int32) (hpc : s.clients[k]? = some .idle) (hfini : s.fini = false) :
      Stepped grants s (.call k lport family)
        { s with clients := s.clients.set k (.called lport family) }
  | direct (k : Nat) (answer : Answer) (lport family : Int32) (fd : Option Nat) (port : Int32)
      (sockets : List (Int32 × UInt16)) (hpc : s.clients[k]? = some (.called lport family))
      (hfd : s.client_fd = false) (hgrants : grants s.sockets lport family answer = true)
      (hanswer : pRresvportAf s.sockets family answer = (fd, port, sockets)) :
      Stepped grants s (.client k (.direct answer))
        { s with clients := s.clients.set k (.returning fd port), sockets := sockets }
  /-- the family does not fit -/
  | refused (k : Nat) (lport family : Int32) (hpc : s.clients[k]? = some (.called lport family))
      (hfd : s.client_fd = true) (hset : privsepSetFamily lport family = none) :
      Stepped grants s (.client k .setFamily)
        { s with clients := s.clients.set k (.returning none lport) }
  | setFamily (k : Nat) (lport family p : Int32) (hpc : s.clients[k]? = some (.called lport family))
      (hfd : s.client_fd = true) (hset : privsepSetFamily lport family = some p) :
      Stepped grants s (.client k .setFamily) { s with clients := s.clients.set k (.waiting p) }
  | lock (k : Nat) (p : Int32) (hpc : s.clients[k]? = some (.waiting p)) (hmutex : s.mutex = none) :
      Stepped grants s (.client k .lock)
        { s with clients := s.clients.set k (.locked p), mutex := some k }
  | write (k : Nat) (p : Int32) (hpc : s.clients[k]? = some (.locked p)) :
      Stepped grants s (.client k (.write true))
        { s with clients := s.clients.set k (.written p),
                 link := { s.link with toServer := s.link.toServer ++ [p] } }
  | writeFails (k : Nat) (p : Int32) (hpc : s.clients[k]? = some (.locked p)) :
      Stepped grants s (.client k (.write false))
        { s with clients := s.clients.set k (.received none p) }
  | recv (k : Nat) (p : Int32) (reply : Reply) (rest : List Reply)
      (hpc : s.clients[k]? = some (.written p)) (hreply : s.link.toClient = reply :: rest) :
      Stepped grants s (.client k .recv)
        { s with clients := s.clients.set k (.received (recvRresvport reply).1 (recvRresvport reply).2),
                 link := { s.link with toClient := rest } }
  | recvFails (k : Nat) (p : Int32) (fd : Option Nat) (hpc : s.clients[k]? = some (.written p)) :
      Stepped grants s (.client k (.recvFails fd))
        { s with clients := s.clients.set k (.received (if p < 0 then none else fd) p) }
  | unlock (k : Nat) (fd : Option Nat) (p : Int32) (hpc : s.clients[k]? = some (.received fd p)) :
      Stepped grants s (.client k .unlock)
        { s with clients := s.clients.set k (.returning fd p), mutex := none }
  | ret (k : Nat) (fd : Option Nat) (p : Int32) (hpc : s.clients[k]? = some (.returning fd p)) :
      Stepped grants s (.client k .ret) { s with clients := s.clients.set k .idle }
  | eof (hfd : s.client_fd = true) (hserver : s.link.server = .reading) (hempty : s.link.toServer = [])
      (hfini : s.fini = true) :
      Stepped grants s (.server .read) { s with link := { s.link with server := .exited } }
  | read (p : Int32) (rest : List Int32) (hfd : s.client_fd = true) (hserver : s.link.server = .reading)
      (hrequest : s.link.toServer = p :: rest) :
      Stepped grants s (.server .read)
        { s with link := { s.link with toServer := rest,
                                       server := .reserving (privsepGetFamily p).2 (privsepGetFamily p).1 } }
  | reserve (answer : Answer) (lport family : Int32) (fd : Option Nat) (port : Int32)
      (sockets : List (Int32 × UInt16)) (hfd : s.client_fd = true)
      (hserver : s.link.server = .reserving lport family)
      (hgrants : grants s.sockets lport family answer = true)
      (hanswer : pRresvportAf s.sockets family answer = (fd, port, sockets)) :
      Stepped grants s (.server (.reserve answer))
        { s with link := { s.link with server := .sending fd port }, sockets := sockets }
  | send (fd : Option Nat) (p : Int32) (hfd : s.client_fd = true)
      (hserver : s.link.server = .sending fd p) :
      Stepped grants s (.server (.send true))
        { s with link := { s.link with toClient := s.link.toClient ++ [sendRresvport fd p],
                                       server := .closing fd } }
  | sendFails (fd : Option Nat) (p : Int32) (hfd : s.client_fd = true)
      (hserver : s.link.server = .sending fd p) :
      Stepped grants s (.server (.send false)) { s with link := { s.link with server := .closing fd } }
  | close (fd : Option Nat) (hfd : s.client_fd = true) (hserver : s.link.server = .closing fd) :
      Stepped grants s (.server .close) { s with link := { s.link with server := .reading } }
  | fini (hfini : s.fini = false) (hidle : ∀ pc ∈ s.clients, pc = .idle) :
      Stepped grants s .fini { s with fini := true }

theorem stepped_of_clientStep {k : Nat} {pc : ClientPc} {c : ClientAction} (hpc : s.clients[k]? = some pc)
    (h : clientStep grants s k pc c = some s') : Stepped grants s (.client k c) s' := by
  cases c with
  | direct answer =>
      cases pc <;> simp only [clientStep, reduceCtorEq] at h
      obtain ⟨⟨hfd, hgrants⟩, h⟩ := Option.ite_none_right_eq_some.mp h
      cases h
      exact .direct k answer _ _ _ _ _ hpc (by simpa using hfd) hgrants rfl
  | setFamily =>
      cases pc <;> simp only [clientStep, reduceCtorEq] at h
      obtain ⟨hfd, h⟩ := Option.ite_none_right_eq_some.mp h
      split at h
      · rename_i hset
        cases h
        exact .refused k _ _ hpc hfd hset
      · rename_i hset
        cases h
        exact .setFamily k _ _ _ hpc hfd hset
  | lock =>
      cases pc <;> simp only [clientStep, reduceCtorEq] at h
      obtain ⟨hmutex, h⟩ := Option.ite_none_right_eq_some.mp h
      cases h
      exact .lock k _ hpc hmutex
  | write ok =>
      cases pc <;> simp only [clientStep, reduceCtorEq] at h
      cases ok with
      | true =>
          cases h
          exact .write k _ hpc
      | false =>
          cases h
          exact .writeFails k _ hpc
  | recv =>
      cases pc <;> simp only [clientStep, reduceCtorEq] at h
      cases hreply : s.link.toClient with
      | nil => simp [hreply] at h
      | cons reply rest =>
          simp only [hreply] at h
          cases h
          exact .recv k _ reply rest hpc hreply
  | recvFails fd =>
      cases pc <;> simp only [clientStep, reduceCtorEq] at h
      cases h
      exact .recvFails k _ fd hpc
  | unlock =>
      cases pc <;> simp only [clientStep, reduceCtorEq] at h
      cases h
      exact .unlock k _ _ hpc
  | ret =>
      cases pc <;> simp only [clientStep, reduceCtorEq] at h
      cases h
      exact .ret k _ _ hpc

theorem stepped_of_serverStep {c : ServerAction} (hfd : s.client_fd = true)
    (h : serverStep grants s c = some s') : Stepped grants s (.server c) s' := by
  unfold serverStep at h
  split at h
  · rename_i hserver
    split at h
    · rename_i hempty
      obtain ⟨hfini, h⟩ := Option.ite_none_right_eq_some.mp h
      cases h
      exact .eof hfd hserver hempty hfini
    · rename_i hrequest
      cases h
      exact .read _ _ hfd hserver hrequest
  · rename_i hserver
    obtain ⟨hgrants, h⟩ := Option.ite_none_right_eq_some.mp h
    cases h
    exact .reserve _ _ _ _ _ _ hfd hserver hgrants rfl
  · rename_i ok fd p hserver
    cases ok with
    | true =>
        cases h
        exact .send fd p hfd hserver
    | false =>
        cases h
        exact .sendFails fd p hfd hserver
  · rename_i hserver
    cases h
    exact .close _ hfd hserver
  · cases h

theorem stepped_of_step (h : step grants s a = some s') : Stepped grants s a s' := by
  cases a with
  | call k lport family =>
      obtain ⟨⟨hpc, hfini⟩, h⟩ := Option.ite_none_right_eq_some.mp h
      cases h
      exact .call k lport family hpc (by simpa using hfini)
  | client k c =>
      obtain ⟨pc, hpc, h⟩ := Option.bind_eq_some_iff.mp h
      exact stepped_of_clientStep hpc h
  | server c =>
      obtain ⟨hfd, h⟩ := Option.ite_none_right_eq_some.mp h
      exact stepped_of_serverStep hfd h
  | fini =>
      obtain ⟨⟨hfini, hidle⟩, h⟩ := Option.ite_none_right_eq_some.mp h
      cases h
      exact .fini (by simpa using hfini) hidle

/-! ## The mutex -/

/-- The thread is between the lock and the unlock. -/
def ClientPc.Inside : ClientPc → Prop
  | .locked _ | .written _ | .received .. => True
  | _ => False

/-- A thread is inside when the mutex is its own. -/
def Exclusive (s : System) : Prop :=
  ∀ (k : Nat) (pc : ClientPc), s.clients[k]? = some pc → (pc.Inside ↔ s.mutex = some k)

theorem exclusive_init (n : Nat) (setuid : Bool) : Exclusive (privsepInit n setuid) := by
  intro k pc h
  obtain rfl := List.eq_of_mem_replicate (List.mem_of_getElem? h)
  exact ⟨False.elim, fun hmutex => by cases hmutex⟩

/-- The entries behind a change of one. -/
theorem getElem?_set_update {ts : List ClientPc} {k : Nat} {x : ClientPc} (hk : ts[k]? = some x)
    (new : ClientPc) :
    (ts.set k new)[k]? = some new ∧ ∀ j : Nat, j ≠ k → (ts.set k new)[j]? = ts[j]? := by
  have hlt := (List.getElem?_eq_some_iff.mp hk).1
  exact ⟨List.getElem?_set_self hlt, fun _ hj => List.getElem?_set_ne (Ne.symm hj)⟩

theorem sum_map_set {ts : List ClientPc} {x : ClientPc} (f : ClientPc → Nat) (hk : ts[k]? = some x)
    (new : ClientPc) :
    ((ts.set k new).map f).sum + f x = (ts.map f).sum + f new := by
  induction ts generalizing k with
  | nil => cases hk
  | cons y ts ih =>
      cases k with
      | zero =>
          cases hk
          simp only [List.set_cons_zero, List.map_cons, List.sum_cons]
          omega
      | succ k =>
          have htail := ih hk
          simp only [List.set_cons_succ, List.map_cons, List.sum_cons]
          omega

/-- Two threads are not both inside. -/
theorem Exclusive.alone (h : Exclusive s) {j k : Nat} {pc pc' : ClientPc} (hk : s.clients[k]? = some pc)
    (hin : pc.Inside) (hj : s.clients[j]? = some pc') (hin' : pc'.Inside) : j = k := by
  have hmine := (h k pc hk).mp hin
  have hother := (h j pc' hj).mp hin'
  rw [hmine] at hother
  exact (Option.some.inj hother).symm

theorem Exclusive.update (h : Exclusive s) {k : Nat} {pc new : ClientPc} {mutex : Option Nat} {link : Link}
    {sockets : List (Int32 × UInt16)} (hpc : s.clients[k]? = some pc)
    (hlock : new.Inside ↔ mutex = some k) (hlocks : ∀ j, j ≠ k → (s.mutex = some j ↔ mutex = some j)) :
    Exclusive { s with clients := s.clients.set k new, mutex := mutex, link := link, sockets := sockets } := by
  intro j x hj
  have hset := getElem?_set_update hpc new
  by_cases hjk : j = k
  · subst hjk
    have hx : (s.clients.set j new)[j]? = some x := hj
    rw [hset.1] at hx
    cases hx
    exact hlock
  · have hx : (s.clients.set k new)[j]? = some x := hj
    rw [hset.2 j hjk] at hx
    exact (h j x hx).trans (hlocks j hjk)

/-- A thread goes on and keeps the mutex as it is. -/
theorem Exclusive.keep (h : Exclusive s) {k : Nat} {pc new : ClientPc} {link : Link}
    {sockets : List (Int32 × UInt16)} (hpc : s.clients[k]? = some pc) (hin : new.Inside ↔ pc.Inside) :
    Exclusive { s with clients := s.clients.set k new, link := link, sockets := sockets } :=
  h.update hpc (hin.trans (h k pc hpc)) fun _ _ => Iff.rfl

theorem Exclusive.step (h : Exclusive s) (hstep : Stepped grants s a s') : Exclusive s' := by
  cases hstep with
  | call k lport family hpc => exact h.keep hpc Iff.rfl
  | direct k answer lport family fd port sockets hpc => exact h.keep hpc Iff.rfl
  | refused k lport family hpc => exact h.keep hpc Iff.rfl
  | setFamily k lport family p hpc => exact h.keep hpc Iff.rfl
  | lock k p hpc hmutex =>
      have hlock : (ClientPc.locked p).Inside ↔ some k = some k := ⟨fun _ => rfl, fun _ => trivial⟩
      apply h.update hpc hlock
      intro j hj
      simp [hmutex, Ne.symm hj]
  | write k p hpc => exact h.keep hpc Iff.rfl
  | writeFails k p hpc => exact h.keep hpc Iff.rfl
  | recv k p reply rest hpc => exact h.keep hpc Iff.rfl
  | recvFails k p fd hpc => exact h.keep hpc Iff.rfl
  | unlock k fd p hpc =>
      have hmutex : s.mutex = some k := (h k _ hpc).mp trivial
      have hlock : (ClientPc.returning fd p).Inside ↔ none = some k := ⟨False.elim, fun hn => by cases hn⟩
      apply h.update hpc hlock
      intro j hj
      simp [hmutex, Ne.symm hj]
  | ret k fd p hpc => exact h.keep hpc Iff.rfl
  | eof | read | reserve | send | sendFails | close | fini => exact h

end Pdsh.Privsep
