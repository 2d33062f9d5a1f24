import Pdsh.Privsep.Protocol

/-!
# Which reply a thread takes

`recvmsg` can fail while the reply is under way, as the watchdog interrupts a thread that takes
too long to connect. The reply then stays in the socket pair, and from there on every thread takes
a reply that was meant for another: the answer to the request that came as many places before
its own as calls of `recvmsg` have failed.
-/

namespace Pdsh.Privsep

open Lib.Transition Lib.Observed

/-! ## The traffic -/

/-- A socket made for a port and a family, or none, with what stands in `port` behind it. -/
structure Made where
  lport : Int32
  family : Int32
  fd : Option Nat
  port : Int32
deriving DecidableEq, Repr

/-- What is seen at the socket pair. -/
inductive Traffic where
  /-- the thread `k` writes a request -/
  | asked (k : Nat) (p : Int32)
  | made (m : Made)
  /-- `recvmsg` succeeds -/
  | taken (k : Nat)
  | failed (k : Nat)
deriving DecidableEq, Repr

def traffic (s : System) : Action → List Traffic
  | .client k (.write true) =>
      match s.clients[k]? with
      | some (.locked p) => [.asked k p]
      | _ => []
  | .client k .recv => [.taken k]
  | .client k (.recvFails _) => [.failed k]
  | .server (.reserve answer) =>
      match s.link.server with
      | .reserving lport family =>
          let (fd, port, _) := pRresvportAf s.sockets family answer
          [.made ⟨lport, family, fd, port⟩]
      | _ => []
  | _ => []

/-- The requests, with the threads that wrote them. -/
def asked (obs : List Traffic) : List (Nat × Int32) :=
  obs.filterMap fun
    | .asked k p => some (k, p)
    | _ => none

def made (obs : List Traffic) : List Made :=
  obs.filterMap fun
    | .made m => some m
    | _ => none

def taken (obs : List Traffic) : Nat :=
  obs.countP fun
    | .taken _ => true
    | _ => false

def failures (obs : List Traffic) : Nat :=
  obs.countP fun
    | .failed _ => true
    | _ => false

/-- `sendmsg` does not fail. -/
def Sends (_ : System) : Action → Prop
  | .server (.send ok) => ok = true
  | _ => True

instance (s : System) (a : Action) : Decidable (Sends s a) := by
  unfold Sends
  split <;> infer_instance

/-! ## The ledger -/

/-- The port and the family of a request. -/
def unpacked (p : Int32) : Int32 × Int32 := ((privsepGetFamily p).2, (privsepGetFamily p).1)

def Made.request (m : Made) : Int32 × Int32 := (m.lport, m.family)

def Made.reply (m : Made) : Reply := sendRresvport m.fd m.port

/-- The request the child works on. -/
def ServerPc.inHand : ServerPc → List (Int32 × Int32)
  | .reserving lport family => [(lport, family)]
  | _ => []

/-- The reply the child is about to send. -/
def ServerPc.ready : ServerPc → List Reply
  | .sending fd p => [sendRresvport fd p]
  | _ => []

/-- Whether the thread waits for a reply, as a number. -/
def ClientPc.waits : ClientPc → Nat
  | .written _ => 1
  | _ => 0

/-- How many threads wait for a reply. -/
def System.waits (s : System) : Nat := (s.clients.map ClientPc.waits).sum

/-- Requests and replies against the traffic so far: both queues keep their order, and a request
has had its reply, has been given up or is waited for. -/
structure Ledger (obs : List Traffic) (s : System) : Prop where
  requests : (asked obs).map (unpacked ·.2) =
    (made obs).map Made.request ++ s.link.server.inHand ++ s.link.toServer.map unpacked
  replies : ((made obs).map Made.reply).drop (taken obs) = s.link.toClient ++ s.link.server.ready
  taken_le : taken obs ≤ (made obs).length
  count : (asked obs).length = taken obs + failures obs + s.waits
  last : ∀ (k : Nat) (p : Int32), s.clients[k]? = some (.written p) → (asked obs).getLast? = some (k, p)

variable {grants : Kernel} {s s' : System} {a : Action} {k : Nat} {pc : ClientPc} {p : Int32}
  {obs : List Traffic}

theorem ledger_init (n : Nat) (setuid : Bool) : Ledger [] (privsepInit n setuid) where
  requests := rfl
  replies := rfl
  taken_le := Nat.le_refl _
  count := by
    have hnone : ((privsepInit n setuid).clients.map ClientPc.waits).sum = 0 := by
      apply List.sum_eq_zero
      intro x hx
      obtain ⟨pc, hpc, rfl⟩ := List.mem_map.mp hx
      rw [List.eq_of_mem_replicate hpc]
      rfl
    rw [System.waits, hnone]
    rfl
  last := fun k p h => by cases List.eq_of_mem_replicate (List.mem_of_getElem? h)

theorem waits_set (hpc : s.clients[k]? = some pc) (new : ClientPc) :
    ((s.clients.set k new).map ClientPc.waits).sum + pc.waits = s.waits + new.waits :=
  sum_map_set ClientPc.waits hpc new

theorem waits_of_ne_written (h : ∀ p, pc ≠ .written p) : pc.waits = 0 := by
  cases pc with
  | written p => exact absurd rfl (h p)
  | _ => rfl

/-- The thread that waits is the only one. -/
theorem waits_of_written (hx : Exclusive s) (hpc : s.clients[k]? = some (.written p)) : s.waits = 1 := by
  have hothers : ((s.clients.set k .idle).map ClientPc.waits).sum = 0 := by
    apply List.sum_eq_zero
    intro x hx'
    obtain ⟨pc, hmem, rfl⟩ := List.mem_map.mp hx'
    obtain ⟨j, hj⟩ := List.getElem?_of_mem hmem
    apply waits_of_ne_written
    rintro q rfl
    have hset := getElem?_set_update hpc .idle
    by_cases hjk : j = k
    · subst hjk
      rw [hset.1] at hj
      cases hj
    · rw [hset.2 j hjk] at hj
      exact hjk (hx.alone hpc trivial hj trivial)
  have hsum := waits_set hpc .idle
  rw [hothers] at hsum
  simp only [ClientPc.waits] at hsum
  omega

/-- A thread goes on, and neither asks nor waited. -/
theorem Ledger.client (h : Ledger obs s) (hpc : s.clients[k]? = some pc) {new : ClientPc}
    {mutex : Option Nat} {sockets : List (Int32 × UInt16)} (hpcw : ∀ p, pc ≠ .written p)
    (hneww : ∀ p, new ≠ .written p) :
    Ledger obs { s with clients := s.clients.set k new, mutex := mutex, sockets := sockets } where
  requests := h.requests
  replies := h.replies
  taken_le := h.taken_le
  count := by
    have hsum := waits_set hpc new
    rw [waits_of_ne_written hpcw, waits_of_ne_written hneww] at hsum
    have hcount := h.count
    show _ = _ + ((s.clients.set k new).map ClientPc.waits).sum
    omega
  last := fun j q hj => by
    have hset := getElem?_set_update hpc new
    by_cases hjk : j = k
    · subst hjk
      have hq : (s.clients.set j new)[j]? = some (.written q) := hj
      rw [hset.1] at hq
      exact absurd (Option.some.inj hq) (hneww q)
    · have hq : (s.clients.set k new)[j]? = some (.written q) := hj
      rw [hset.2 j hjk] at hq
      exact h.last j q hq

/-- A thread that waited goes on, with its reply or without. -/
theorem Ledger.answered (h : Ledger obs s) (hx : Exclusive s) {obs' : List Traffic} {link : Link}
    (hpc : s.clients[k]? = some (.written p)) {new : ClientPc} (hneww : ∀ p, new ≠ .written p)
    (hasked : asked obs' = asked obs) (hmade : made obs' = made obs)
    (hrequests : link.server.inHand ++ link.toServer.map unpacked =
      s.link.server.inHand ++ s.link.toServer.map unpacked)
    (hreplies : ((made obs).map Made.reply).drop (taken obs') = link.toClient ++ link.server.ready)
    (htaken : taken obs' ≤ (made obs).length)
    (hcount : taken obs' + failures obs' = taken obs + failures obs + 1) :
    Ledger obs' { s with clients := s.clients.set k new, link := link } where
  requests := by
    rw [hasked, hmade, List.append_assoc, hrequests, ← List.append_assoc]
    exact h.requests
  replies := by
    rw [hmade]
    exact hreplies
  taken_le := by
    rw [hmade]
    exact htaken
  count := by
    have hsum := waits_set hpc new
    rw [waits_of_ne_written hneww, waits_of_written hx hpc] at hsum
    have hold := h.count
    rw [waits_of_written hx hpc] at hold
    rw [hasked]
    show _ = _ + ((s.clients.set k new).map ClientPc.waits).sum
    simp only [ClientPc.waits] at hsum
    omega
  last := fun j q hj => by
    have hset := getElem?_set_update hpc new
    by_cases hjk : j = k
    · subst hjk
      have hq : (s.clients.set j new)[j]? = some (.written q) := hj
      rw [hset.1] at hq
      exact absurd (Option.some.inj hq) (hneww q)
    · have hq : (s.clients.set k new)[j]? = some (.written q) := hj
      rw [hset.2 j hjk] at hq
      exact absurd (hx.alone hpc trivial hq trivial) hjk

/-- The child goes on. -/
theorem Ledger.server (h : Ledger obs s) {obs' : List Traffic} {link : Link}
    {sockets : List (Int32 × UInt16)} (hasked : asked obs' = asked obs) (htaken : taken obs' = taken obs)
    (hfailures : failures obs' = failures obs)
    (hrequests : (asked obs).map (unpacked ·.2) =
      (made obs').map Made.request ++ link.server.inHand ++ link.toServer.map unpacked)
    (hreplies : ((made obs').map Made.reply).drop (taken obs) = link.toClient ++ link.server.ready)
    (hle : taken obs ≤ (made obs').length) :
    Ledger obs' { s with link := link, sockets := sockets } where
  requests := by
    rw [hasked]
    exact hrequests
  replies := by
    rw [htaken]
    exact hreplies
  taken_le := by
    rw [htaken]
    exact hle
  count := by
    rw [hasked, htaken, hfailures]
    exact h.count
  last := fun j q hj => by
    rw [hasked]
    exact h.last j q hj

theorem Ledger.write (h : Ledger obs s) (hx : Exclusive s) (hpc : s.clients[k]? = some (.locked p)) :
    Ledger (obs ++ [.asked k p])
      { s with clients := s.clients.set k (.written p),
               link := { s.link with toServer := s.link.toServer ++ [p] } } := by
  have hasked : asked (obs ++ [.asked k p]) = asked obs ++ [(k, p)] := by simp [asked]
  have hmade : made (obs ++ [.asked k p]) = made obs := by simp [made]
  have htaken : taken (obs ++ [.asked k p]) = taken obs := by simp [taken]
  have hfailures : failures (obs ++ [.asked k p]) = failures obs := by simp [failures]
  refine ⟨?_, ?_, ?_, ?_, ?_⟩
  · rw [hasked, hmade, List.map_append, List.map_append, h.requests]
    exact List.append_assoc _ _ _
  · rw [hmade, htaken]
    exact h.replies
  · rw [hmade, htaken]
    exact h.taken_le
  · have hsum := waits_set hpc (.written p)
    have hcount := h.count
    rw [hasked, htaken, hfailures, List.length_append]
    show _ = _ + ((s.clients.set k (.written p)).map ClientPc.waits).sum
    simp only [ClientPc.waits] at hsum
    simp only [List.length_singleton]
    omega
  · intro j q hj
    have hset := getElem?_set_update hpc (.written p)
    rw [hasked, List.getLast?_concat]
    by_cases hjk : j = k
    · subst hjk
      have hq : (s.clients.set j (.written p))[j]? = some (.written q) := hj
      rw [hset.1] at hq
      cases hq
      rfl
    · have hq : (s.clients.set k (.written p))[j]? = some (.written q) := hj
      rw [hset.2 j hjk] at hq
      exact absurd (hx.alone hpc trivial hq trivial) hjk

theorem Ledger.recv (h : Ledger obs s) (hx : Exclusive s) {reply : Reply} {rest : List Reply}
    {new : ClientPc} (hpc : s.clients[k]? = some (.written p)) (hneww : ∀ p, new ≠ .written p)
    (hreply : s.link.toClient = reply :: rest) :
    Ledger (obs ++ [.taken k])
      { s with clients := s.clients.set k new, link := { s.link with toClient := rest } } := by
  have htaken : taken (obs ++ [.taken k]) = taken obs + 1 := by simp [taken]
  have hreplies := h.replies
  rw [hreply, List.cons_append] at hreplies
  refine h.answered hx hpc hneww (by simp [asked]) (by simp [made]) rfl ?_ ?_ ?_
  · rw [htaken, ← List.tail_drop, hreplies]
    rfl
  · have hlength := congrArg List.length hreplies
    rw [List.length_drop, List.length_map, List.length_cons] at hlength
    rw [htaken]
    omega
  · simp [taken, failures]
    omega

theorem Ledger.step (h : Ledger obs s) (hx : Exclusive s) (hok : Sends s a) (hstep : Stepped grants s a s') :
    Ledger (obs ++ traffic s a) s' := by
  cases hstep with
  | call k lport family hpc =>
      show Ledger (obs ++ []) _
      rw [List.append_nil]
      exact h.client hpc (by simp) (by simp)
  | direct k answer lport family fd port sockets hpc =>
      show Ledger (obs ++ []) _
      rw [List.append_nil]
      exact h.client hpc (by simp) (by simp)
  | refused k lport family hpc =>
      show Ledger (obs ++ []) _
      rw [List.append_nil]
      exact h.client hpc (by simp) (by simp)
  | setFamily k lport family p hpc =>
      show Ledger (obs ++ []) _
      rw [List.append_nil]
      exact h.client hpc (by simp) (by simp)
  | lock k p hpc hmutex =>
      show Ledger (obs ++ []) _
      rw [List.append_nil]
      exact h.client hpc (by simp) (by simp)
  | write k p hpc =>
      have hsee : traffic s (.client k (.write true)) = [.asked k p] := by simp [traffic, hpc]
      rw [hsee]
      exact h.write hx hpc
  | writeFails k p hpc =>
      show Ledger (obs ++ []) _
      rw [List.append_nil]
      exact h.client hpc (by simp) (by simp)
  | recv k p reply rest hpc hreply => exact h.recv hx hpc (by simp) hreply
  | recvFails k p fd hpc =>
      show Ledger (obs ++ [.failed k]) _
      have htaken : taken (obs ++ [.failed k]) = taken obs := by simp [taken]
      refine h.answered hx hpc (by simp) (by simp [asked]) (by simp [made]) rfl ?_ ?_ ?_
      · rw [htaken]
        exact h.replies
      · rw [htaken]
        exact h.taken_le
      · simp [taken, failures]
        omega
  | unlock k fd p hpc =>
      show Ledger (obs ++ []) _
      rw [List.append_nil]
      exact h.client hpc (by simp) (by simp)
  | ret k fd p hpc =>
      show Ledger (obs ++ []) _
      rw [List.append_nil]
      exact h.client hpc (by simp) (by simp)
  | eof hfd hserver hempty hfini =>
      show Ledger (obs ++ []) _
      rw [List.append_nil]
      have hrequests := h.requests
      have hreplies := h.replies
      rw [hserver] at hrequests hreplies
      exact h.server rfl rfl rfl hrequests hreplies h.taken_le
  | read p rest hfd hserver hrequest =>
      show Ledger (obs ++ []) _
      rw [List.append_nil]
      have hrequests := h.requests
      have hreplies := h.replies
      rw [hserver, hrequest] at hrequests
      rw [hserver] at hreplies
      apply h.server rfl rfl rfl _ hreplies h.taken_le
      simpa [ServerPc.inHand, unpacked] using hrequests
  | reserve answer lport family fd port sockets hfd hserver hgrants hanswer =>
      have hsee : traffic s (.server (.reserve answer)) = [.made ⟨lport, family, fd, port⟩] := by
        simp [traffic, hserver, hanswer]
      rw [hsee]
      have hmade : made (obs ++ [.made ⟨lport, family, fd, port⟩]) = made obs ++ [⟨lport, family, fd, port⟩] := by
        simp [made]
      have hrequests := h.requests
      have hreplies := h.replies
      rw [hserver] at hrequests hreplies
      apply h.server (by simp [asked]) (by simp [taken]) (by simp [failures])
      · rw [hmade, hrequests]
        simp [ServerPc.inHand, Made.request]
      · rw [hmade, List.map_append, List.drop_append_of_le_length (by simpa using h.taken_le), hreplies]
        simp [ServerPc.ready, Made.reply]
      · rw [hmade, List.length_append]
        exact Nat.le_add_right_of_le h.taken_le
  | send fd p hfd hserver =>
      show Ledger (obs ++ []) _
      rw [List.append_nil]
      have hrequests := h.requests
      have hreplies := h.replies
      rw [hserver] at hrequests hreplies
      apply h.server rfl rfl rfl hrequests _ h.taken_le
      rw [hreplies]
      simp [ServerPc.ready]
  | sendFails => cases hok
  | close fd hfd hserver =>
      show Ledger (obs ++ []) _
      rw [List.append_nil]
      have hrequests := h.requests
      have hreplies := h.replies
      rw [hserver] at hrequests hreplies
      exact h.server rfl rfl rfl hrequests hreplies h.taken_le
  | fini =>
      show Ledger (obs ++ []) _
      rw [List.append_nil]
      exact { h with }

/-! ## Every run -/

theorem ledger_of_seen {n : Nat} {setuid : Bool}
    (h : Seen (step grants) Sends traffic (privsepInit n setuid) obs s) : Ledger obs s ∧ Exclusive s := by
  apply h.invariant (I := fun obs s => Ledger obs s ∧ Exclusive s)
    ⟨ledger_init n setuid, exclusive_init n setuid⟩
  rintro obs s a s' ⟨hledger, hx⟩ hok hstep
  exact ⟨hledger.step hx hok (stepped_of_step hstep), hx.step (stepped_of_step hstep)⟩

/-- A thread takes the answer to the request that came as many places before its own, which is
the last, as calls of `recvmsg` have failed. -/
theorem reply_behind {n : Nat} (h : Seen (step grants) Sends traffic (privsepInit n true) obs s)
    (hpc : s.clients[k]? = some (.written p)) {reply : Reply} {rest : List Reply}
    (hreply : s.link.toClient = reply :: rest) :
    (asked obs).getLast? = some (k, p) ∧
      ∃ i q m, i + failures obs + 1 = (asked obs).length ∧ (asked obs)[i]? = some q ∧
        (made obs)[i]? = some m ∧ m.request = unpacked q.2 ∧ m.reply = reply := by
  obtain ⟨hledger, hx⟩ := ledger_of_seen h
  refine ⟨hledger.last k p hpc, taken obs, ?_⟩
  have hcount := hledger.count
  rw [waits_of_written hx hpc] at hcount
  have hreplies := hledger.replies
  rw [hreply, List.cons_append] at hreplies
  have hmine : ((made obs).map Made.reply)[taken obs]? = some reply := by
    rw [← List.head?_drop, hreplies]
    rfl
  rw [List.getElem?_map] at hmine
  obtain ⟨m, hm, hmreply⟩ := Option.map_eq_some_iff.mp hmine
  have hrequest : ((asked obs).map (unpacked ·.2))[taken obs]? = some m.request := by
    have hlt : taken obs < ((made obs).map Made.request).length := by
      rw [List.length_map]
      exact (List.getElem?_eq_some_iff.mp hm).1
    rw [hledger.requests, List.append_assoc, List.getElem?_append_left hlt, List.getElem?_map, hm]
    rfl
  rw [List.getElem?_map] at hrequest
  obtain ⟨q, hq, hmrequest⟩ := Option.map_eq_some_iff.mp hrequest
  exact ⟨q, m, by omega, hq, hm, hmrequest.symm, hmreply⟩

/-- `recvmsg` fails for the thread 0, and the thread 1 finds its reply. -/
def failedRead : List Action :=
  [.call 0 1023 2, .client 0 .setFamily, .client 0 .lock, .client 0 (.write true),
   .client 0 (.recvFails none), .client 0 .unlock, .server .read, .server (.reserve (.port 1023)),
   .server (.send true), .call 1 1022 2, .client 1 .setFamily, .client 1 .lock, .client 1 (.write true)]

def failedReadTraffic : List Traffic :=
  [.asked 0 132095, .failed 0, .made ⟨1023, 2, some 0, 1023⟩, .asked 1 132094]

theorem reply_behind_failed :
    (asked failedReadTraffic).getLast? = some (1, 132094) ∧
      ∃ i q m, i + failures failedReadTraffic + 1 = (asked failedReadTraffic).length ∧
        (asked failedReadTraffic)[i]? = some q ∧ (made failedReadTraffic)[i]? = some m ∧
        m.request = unpacked q.2 ∧ m.reply = ⟨1023, some 0⟩ := by
  have hreplay : replay (checked (step onePort) Sends) (privsepInit 2 true) failedRead =
      some ⟨true, [.returning none 132095, .written 132094], some 1,
        ⟨[132094], [⟨1023, some 0⟩], .closing (some 0)⟩, [(2, 1023)], false⟩ := by
    decide +kernel
  have hshown : shown (step onePort) traffic (privsepInit 2 true) failedRead = failedReadTraffic := by
    decide +kernel
  rw [← hshown]
  exact reply_behind (Seen.of_checked hreplay) rfl rfl

end Pdsh.Privsep
