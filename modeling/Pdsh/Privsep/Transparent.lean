import Pdsh.Privsep.Protocol

/-!
# The child is not seen

Where the child works and no call on the socket pair fails, the threads see what they would see
if each made its sockets itself, in some order: a run with the child shows the calls and the
results of a run without it. The place where a call takes effect is the child's `rresvport_af`.
-/

namespace Pdsh.Privsep

open Lib.Transition Lib.Observed

variable {grants : Kernel} {s s' t : System} {a : Action} {link link' : Link} {k : Nat}
  {pc pc' : ClientPc} {lport family p : Int32} {fd : Option Nat}

/-! ## A port with its family -/

/-- A port and a family of 16 bits each, the family not zero. -/
structure Proper (lport family : Int32) : Prop where
  lport_nonneg : 0 ≤ lport
  lport_le : lport ≤ 0xffff
  family_pos : 0 < family
  family_le : family ≤ 0xffff

instance : Decidable (Proper lport family) :=
  decidable_of_iff (0 ≤ lport ∧ lport ≤ 0xffff ∧ 0 < family ∧ family ≤ 0xffff)
    ⟨fun ⟨h1, h2, h3, h4⟩ => ⟨h1, h2, h3, h4⟩, fun ⟨h1, h2, h3, h4⟩ => ⟨h1, h2, h3, h4⟩⟩

/-- What has 16 bits has no other. -/
theorem getLsbD_short {x : Int32} (h0 : 0 ≤ x) (h : x ≤ 0xffff) {i : Nat} (hi : 16 ≤ i) :
    x.toBitVec.getLsbD i = false := by
  rw [Int32.le_iff_toInt_le] at h0 h
  have hzero : (0 : Int32).toInt = 0 := rfl
  have hmask : (0xffff : Int32).toInt = 65535 := rfl
  rw [hzero] at h0
  rw [hmask] at h
  have hlt : x.toBitVec.toNat < 2 ^ 16 := by
    have htoInt : x.toInt = x.toBitVec.toInt := rfl
    have hcond := x.toBitVec.toInt_eq_toNat_cond
    have hbound := x.toBitVec.isLt
    split at hcond <;> omega
  exact Nat.testBit_lt_two_pow (Nat.lt_of_lt_of_le hlt (Nat.pow_le_pow_right (by decide) hi))

theorem getLsbD_mask (i : Nat) : (0xffff : Int32).toBitVec.getLsbD i = decide (i < 16) := by
  show Nat.testBit (2 ^ 16 - 1) i = _
  exact Nat.testBit_two_pow_sub_one 16 i

theorem toBitVec_shiftLeft_16 (x : Int32) : (x <<< 16).toBitVec = x.toBitVec <<< 16 := rfl

theorem toBitVec_shiftRight_16 (x : Int32) : (x >>> 16).toBitVec = x.toBitVec.sshiftRight 16 := rfl

/-- The upper half of a port with its family. -/
theorem family_of_packed (h : Proper lport family) :
    ((lport ||| (family <<< 16)) >>> 16) &&& 0xffff = family := by
  apply Int32.toBitVec_inj.mp
  apply BitVec.eq_of_getLsbD_eq
  intro i hi
  rw [Int32.toBitVec_and, BitVec.getLsbD_and, getLsbD_mask, toBitVec_shiftRight_16,
    BitVec.getLsbD_sshiftRight, Int32.toBitVec_or, toBitVec_shiftLeft_16]
  by_cases h16 : i < 16
  · have hport := getLsbD_short h.lport_nonneg h.lport_le (Nat.le_add_right 16 i)
    have hor : (lport.toBitVec ||| family.toBitVec <<< 16).getLsbD (16 + i) = family.toBitVec.getLsbD i := by
      rw [BitVec.getLsbD_or, hport, Bool.false_or, BitVec.getLsbD_shiftLeft, Nat.add_sub_cancel_left]
      have hin : 16 + i < 32 := by omega
      simp [hin]
    have hin : 16 + i < 32 := by omega
    rw [if_pos hin, hor]
    simp [h16, hi]
  · have hupper := getLsbD_short (Int32.le_of_lt h.family_pos) h.family_le (Nat.le_of_not_lt h16)
    simp [h16, hupper]

/-- The lower half. -/
theorem lport_of_packed (h : Proper lport family) :
    (lport ||| (family <<< 16)) &&& 0xffff = lport := by
  apply Int32.toBitVec_inj.mp
  apply BitVec.eq_of_getLsbD_eq
  intro i hi
  rw [Int32.toBitVec_and, BitVec.getLsbD_and, getLsbD_mask, Int32.toBitVec_or, toBitVec_shiftLeft_16]
  by_cases h16 : i < 16
  · simp [h16, BitVec.getLsbD_or]
  · simp [h16, getLsbD_short h.lport_nonneg h.lport_le (Nat.le_of_not_lt h16)]

theorem setFamily_of_proper (h : Proper lport family) :
    privsepSetFamily lport family = some (lport ||| (family <<< 16)) :=
  if_neg (Int32.not_lt.mpr h.family_le)

/-- The child finds the family and the port that were packed. -/
theorem getFamily_setFamily (h : Proper lport family) (hset : privsepSetFamily lport family = some p) :
    privsepGetFamily p = (family, lport) := by
  rw [setFamily_of_proper h] at hset
  cases hset
  have hne : family ≠ 0 := by
    intro hzero
    exact absurd h.family_pos (by rw [hzero]; decide)
  simp only [privsepGetFamily, family_of_packed h, lport_of_packed h, if_pos hne]

/-! ## What is seen -/

/-- What a program sees of `privsep_rresvport_af`: the calls, and the sockets with their ports. -/
inductive Event where
  | call (k : Nat) (lport family : Int32)
  | ret (k : Nat) (s : Option (Nat × Int32))
deriving DecidableEq, Repr

def see (s : System) : Action → List Event
  | .call k lport family => [.call k lport family]
  | .client k .ret =>
      match s.clients[k]? with
      | some (.returning fd lport) => [.ret k (fd.map (·, lport))]
      | _ => []
  | _ => []

/-- A port and a family that fit are asked for, and no call on the socket pair fails. -/
def Undisturbed (_ : System) : Action → Prop
  | .call _ lport family => Proper lport family
  | .client _ (.write ok) => ok = true
  | .client _ (.recvFails _) => False
  | .server (.send ok) => ok = true
  | _ => True

instance (s : System) : (a : Action) → Decidable (Undisturbed s a)
  | .call _ lport family => inferInstanceAs (Decidable (Proper lport family))
  | .client _ (.write ok) | .server (.send ok) => inferInstanceAs (Decidable (ok = true))
  | .client _ (.recvFails _) => .isFalse id
  | .client _ (.direct _) | .client _ .setFamily | .client _ .lock | .client _ .recv | .client _ .unlock
  | .client _ .ret | .server .read | .server (.reserve _) | .server .close | .fini => .isTrue trivial

/-! ## The socket pair -/

/-- Whatever the child has to do is done. -/
inductive ServerPc.Free : ServerPc → Prop where
  | reading : Free .reading
  | closing (fd : Option Nat) : Free (.closing fd)
  | exited : Free .exited

inductive Link.Quiet : Link → Prop where
  | intro {server : ServerPc} (h : server.Free) : Quiet ⟨[], [], server⟩

theorem Link.Quiet.free (h : link.Quiet) : link.server.Free := by
  cases h with
  | intro hfree => exact hfree

/-- A request for `lport` and `family` is under way. -/
inductive Link.Asked (lport family : Int32) : Link → Prop where
  | sent {p : Int32} {server : ServerPc} (hp : privsepGetFamily p = (family, lport)) (h : server.Free) :
      Asked lport family ⟨[p], [], server⟩
  | taken : Asked lport family ⟨[], [], .reserving lport family⟩

/-- A reply with the socket `fd` and the port `lport` is under way. -/
inductive Link.Answered (fd : Option Nat) (lport : Int32) : Link → Prop where
  | made (h : fd.isSome → 0 ≤ lport) : Answered fd lport ⟨[], [], .sending fd lport⟩
  | sent {reply : Reply} {server : ServerPc} (hfd : (recvRresvport reply).1 = fd)
      (hlport : fd.isSome → (recvRresvport reply).2 = lport) (h : server.Free) :
      Answered fd lport ⟨[], [reply], server⟩

/-- The reply that is sent for a socket is read as that socket. -/
theorem Link.Answered.send {fd' : Option Nat} {l : Int32} (h : link.Answered fd l)
    (hserver : link.server = .sending fd' p) :
    Answered fd l { link with toClient := link.toClient ++ [sendRresvport fd' p], server := .closing fd' } := by
  cases h with
  | made hport =>
      cases hserver
      refine .sent ?_ ?_ (.closing fd)
      · cases fd with
        | none => rfl
        | some n =>
            have hnonneg : ¬p < 0 := Int32.not_lt.mpr (hport rfl)
            simp [recvRresvport, sendRresvport, hnonneg]
      · intro hfd
        simp [recvRresvport, sendRresvport, hfd]
  | sent hfd hlport hfree =>
      cases hserver
      cases hfree

/-! ## The run with the child beside the run without it -/

/-- How far a thread is with the child, and how far it is without. -/
inductive Shows (link : Link) : ClientPc → ClientPc → Prop where
  | idle : Shows link .idle .idle
  | called {lport family : Int32} (h : Proper lport family) :
      Shows link (.called lport family) (.called lport family)
  | waiting {lport family p : Int32} (hp : privsepGetFamily p = (family, lport)) :
      Shows link (.waiting p) (.called lport family)
  | locked {lport family p : Int32} (hp : privsepGetFamily p = (family, lport)) :
      Shows link (.locked p) (.called lport family)
  | asked {lport family p : Int32} (h : link.Asked lport family) :
      Shows link (.written p) (.called lport family)
  | answered {fd : Option Nat} {lport p : Int32} (h : link.Answered fd lport) :
      Shows link (.written p) (.returning fd lport)
  | received {fd : Option Nat} {lport p : Int32} (h : fd.isSome → p = lport) :
      Shows link (.received fd p) (.returning fd lport)
  | returning {fd : Option Nat} {lport p : Int32} (h : fd.isSome → p = lport) :
      Shows link (.returning fd p) (.returning fd lport)

/-- Only a thread that waits for its reply looks at the socket pair. -/
theorem Shows.relink (h : Shows link pc pc') (hasked : ∀ l f, link.Asked l f → link'.Asked l f)
    (hanswered : ∀ fd l, link.Answered fd l → link'.Answered fd l) : Shows link' pc pc' := by
  cases h with
  | idle => exact .idle
  | called h => exact .called h
  | waiting hp => exact .waiting hp
  | locked hp => exact .locked hp
  | asked h => exact .asked (hasked _ _ h)
  | answered h => exact .answered (hanswered _ _ h)
  | received h => exact .received h
  | returning h => exact .returning h

theorem Shows.relink_of_not_written (h : Shows link pc pc') (hpc : ∀ p, pc ≠ .written p) :
    Shows link' pc pc' := by
  cases h with
  | idle => exact .idle
  | called h => exact .called h
  | waiting hp => exact .waiting hp
  | locked hp => exact .locked hp
  | asked h => exact absurd rfl (hpc _)
  | answered h => exact absurd rfl (hpc _)
  | received h => exact .received h
  | returning h => exact .returning h

/-- The run with the child is at `s`, the run without it at `t`. -/
structure Mirrors (s t : System) : Prop where
  fd : s.client_fd = true
  direct : t.client_fd = false
  fini : t.fini = s.fini
  sockets : t.sockets = s.sockets
  length : t.clients.length = s.clients.length
  shows : ∀ (k : Nat) (pc : ClientPc), s.clients[k]? = some pc → ∃ pc', t.clients[k]? = some pc' ∧ Shows s.link pc pc'
  quiet : (∀ (k : Nat) (p : Int32), s.clients[k]? ≠ some (.written p)) → s.link.Quiet

theorem mirrors_init (n : Nat) : Mirrors (privsepInit n true) (privsepInit n false) where
  fd := rfl
  direct := rfl
  fini := rfl
  sockets := rfl
  length := rfl
  shows := fun k pc h => by
    obtain rfl := List.eq_of_mem_replicate (List.mem_of_getElem? h)
    exact ⟨.idle, h, .idle⟩
  quiet := fun _ => .intro .reading

/-- The thread `k` goes on, with the child to `new` and without it to `new'`. -/
theorem Mirrors.update (h : Mirrors s t) {new new' : ClientPc} {mutex : Option Nat}
    {sockets sockets' : List (Int32 × UInt16)} {ts : List ClientPc} (hpc : s.clients[k]? = some pc)
    (hsockets : sockets' = sockets) (hlen : ts.length = t.clients.length) (hnew : ts[k]? = some new')
    (hold : ∀ j : Nat, j ≠ k → ts[j]? = t.clients[j]?) (hshow : Shows link new new')
    (hothers : ∀ (j : Nat) pc pc', j ≠ k → s.clients[j]? = some pc → Shows s.link pc pc' → Shows link pc pc')
    (hquiet : (∀ (j : Nat) p, (s.clients.set k new)[j]? ≠ some (.written p)) → link.Quiet) :
    Mirrors { s with clients := s.clients.set k new, mutex := mutex, link := link, sockets := sockets }
      { t with clients := ts, sockets := sockets' } where
  fd := h.fd
  direct := h.direct
  fini := h.fini
  sockets := hsockets
  length := by
    rw [hlen, h.length]
    exact List.length_set.symm
  shows := fun j x hj => by
    have hset := getElem?_set_update hpc new
    by_cases hjk : j = k
    · subst hjk
      have hx : (s.clients.set j new)[j]? = some x := hj
      rw [hset.1] at hx
      cases hx
      exact ⟨new', hnew, hshow⟩
    · have hx : (s.clients.set k new)[j]? = some x := hj
      rw [hset.2 j hjk] at hx
      obtain ⟨x', hx', hshows⟩ := h.shows j x hx
      exact ⟨x', (hold j hjk).trans hx', hothers j x x' hjk hx hshows⟩
  quiet := hquiet

theorem set_same {ts : List ClientPc} {x : ClientPc} (hk : ts[k]? = some x) : ts.set k x = ts := by
  obtain ⟨hlt, hget⟩ := List.getElem?_eq_some_iff.mp hk
  rw [← hget]
  exact List.set_getElem_self hlt

/-- Where a thread that waited for no reply goes on and waits for none, nothing was under way. -/
theorem Mirrors.quiet_of_set (h : Mirrors s t) {new : ClientPc} (hpc : s.clients[k]? = some pc)
    (hpcw : ∀ p, pc ≠ .written p) (hnone : ∀ (j : Nat) p, (s.clients.set k new)[j]? ≠ some (.written p)) :
    s.link.Quiet := by
  apply h.quiet
  intro j p hj
  by_cases hjk : j = k
  · subst hjk
    rw [hpc] at hj
    exact hpcw p (Option.some.inj hj)
  · rw [← (getElem?_set_update hpc new).2 j hjk] at hj
    exact hnone j p hj

/-- A thread takes a step that the run without the child does not see. -/
theorem Mirrors.hidden (h : Mirrors s t) {new pc' : ClientPc} {mutex : Option Nat}
    (hpc : s.clients[k]? = some pc) (hpcw : ∀ p, pc ≠ .written p) (hpc' : t.clients[k]? = some pc')
    (hshow : Shows s.link new pc') :
    Mirrors { s with clients := s.clients.set k new, mutex := mutex } t :=
  h.update hpc h.sockets rfl hpc' (fun _ _ => rfl) hshow (fun _ _ _ _ _ hs => hs)
    (h.quiet_of_set hpc hpcw)

/-- A thread takes the same step in both runs. -/
theorem Mirrors.both (h : Mirrors s t) {new new' pc' : ClientPc} (hpc : s.clients[k]? = some pc)
    (hpcw : ∀ p, pc ≠ .written p) (hpc' : t.clients[k]? = some pc') (hshow : Shows s.link new new') :
    Mirrors { s with clients := s.clients.set k new } { t with clients := t.clients.set k new' } :=
  have hset := getElem?_set_update hpc' new'
  h.update hpc h.sockets List.length_set hset.1 hset.2 hshow (fun _ _ _ _ _ hs => hs)
    (h.quiet_of_set hpc hpcw)

/-- The child takes a step that leaves the threads where they are. -/
theorem Mirrors.relink (h : Mirrors s t) (hasked : ∀ l f, s.link.Asked l f → link'.Asked l f)
    (hanswered : ∀ fd l, s.link.Answered fd l → link'.Answered fd l)
    (hquiet : s.link.Quiet → link'.Quiet) : Mirrors { s with link := link' } t :=
  { h with
    shows := fun k pc hpc => by
      obtain ⟨pc', hpc', hshow⟩ := h.shows k pc hpc
      exact ⟨pc', hpc', hshow.relink hasked hanswered⟩
    quiet := fun hnone => hquiet (h.quiet hnone) }

/-- The child goes from one state with nothing to do to another. -/
theorem Mirrors.free (h : Mirrors s t) {server : ServerPc} (hfree : s.link.server.Free)
    (hfree' : server.Free) : Mirrors { s with link := { s.link with server := server } } t := by
  apply h.relink
  · intro l f hasked
    cases hlink : s.link with
    | mk toServer toClient old =>
        rw [hlink] at hasked hfree
        cases hasked with
        | sent hp _ => exact .sent hp hfree'
        | taken => cases hfree
  · intro fd l hanswered
    cases hlink : s.link with
    | mk toServer toClient old =>
        rw [hlink] at hanswered hfree
        cases hanswered with
        | made => cases hfree
        | sent hfd hl _ => exact .sent hfd hl hfree'
  · intro hquiet
    cases hlink : s.link with
    | mk toServer toClient old =>
        rw [hlink] at hquiet
        cases hquiet
        exact .intro hfree'

/-- What is under way is under way for a thread. -/
theorem Mirrors.exists_written (h : Mirrors s t) (hbusy : ¬s.link.Quiet) :
    ∃ (k : Nat) (p : Int32), s.clients[k]? = some (.written p) := by
  by_contra hnone
  apply hbusy
  apply h.quiet
  intro k p hk
  exact hnone ⟨k, p, hk⟩

/-! ## One step -/

theorem Mirrors.write (h : Mirrors s t) (hx : Exclusive s) (hpc : s.clients[k]? = some (.locked p)) :
    Mirrors { s with clients := s.clients.set k (.written p),
                     link := { s.link with toServer := s.link.toServer ++ [p] } } t := by
  obtain ⟨pc', hpc', hshow⟩ := h.shows k _ hpc
  have hquiet : s.link.Quiet := by
    apply h.quiet
    intro j q hj
    obtain rfl := hx.alone hpc trivial hj trivial
    rw [hpc] at hj
    cases hj
  cases hshow with
  | locked hp =>
      apply h.update hpc h.sockets rfl hpc' (fun _ _ => rfl)
      · cases hlink : s.link with
        | mk toServer toClient server =>
            rw [hlink] at hquiet
            cases hquiet with
            | intro hfree => exact .asked (.sent hp hfree)
      · intro j pc pc' hjk hj hs
        apply hs.relink_of_not_written
        rintro q rfl
        exact hjk (hx.alone hpc trivial hj trivial)
      · intro hnone
        exact absurd (getElem?_set_update hpc _).1 (hnone k p)

theorem Mirrors.recv (h : Mirrors s t) (hx : Exclusive s) {reply : Reply} {rest : List Reply}
    (hpc : s.clients[k]? = some (.written p)) (hreply : s.link.toClient = reply :: rest) :
    Mirrors { s with clients := s.clients.set k (.received (recvRresvport reply).1 (recvRresvport reply).2),
                     link := { s.link with toClient := rest } } t := by
  obtain ⟨pc', hpc', hshow⟩ := h.shows k _ hpc
  cases hlink : s.link with
  | mk toServer toClient server =>
      rw [hlink] at hreply hshow
      cases hshow with
      | asked hasked =>
          cases hasked <;> cases hreply
      | answered hanswered =>
          cases hanswered with
          | made => cases hreply
          | sent hfd hl hfree =>
              cases hreply
              apply h.update hpc h.sockets rfl hpc' (fun _ _ => rfl)
              · rw [hfd]
                exact .received hl
              · intro j pc pc' hjk hj hs
                apply hs.relink_of_not_written
                rintro q rfl
                exact hjk (hx.alone hpc trivial hj trivial)
              · exact fun _ => .intro hfree

/-- A port is not negative. -/
theorem port_nonneg {sockets sockets' : List (Int32 × UInt16)} {answer : Answer} {port : Int32}
    (hanswer : pRresvportAf sockets family answer = (fd, port, sockets')) (hfd : fd.isSome) : 0 ≤ port := by
  cases answer with
  | port p =>
      cases hanswer
      have hlt : p.toNat < 2 ^ 16 := p.toNat_lt
      rw [Int32.le_iff_toInt_le, Int32.toInt_ofNat_of_lt (by omega)]
      exact Int.natCast_nonneg _
  | failed left =>
      cases hanswer
      cases hfd

/-- The child's `rresvport_af` is the one of the thread that asked. -/
theorem Mirrors.reserve (h : Mirrors s t) (hx : Exclusive s) {answer : Answer} {port : Int32}
    {sockets : List (Int32 × UInt16)} (hserver : s.link.server = .reserving lport family)
    (hgrants : grants s.sockets lport family answer = true)
    (hanswer : pRresvportAf s.sockets family answer = (fd, port, sockets)) :
    ∃ t', Seen (step grants) Undisturbed see t [] t' ∧
      Mirrors { s with link := { s.link with server := .sending fd port }, sockets := sockets } t' := by
  have hbusy : ¬s.link.server.Free := by
    intro hfree
    rw [hserver] at hfree
    cases hfree
  obtain ⟨k, p, hpc⟩ := h.exists_written fun hquiet => hbusy hquiet.free
  obtain ⟨pc', hpc', hshow⟩ := h.shows k _ hpc
  cases hlink : s.link with
  | mk toServer toClient server =>
      rw [hlink] at hserver hbusy hshow
      cases hserver
      cases hshow with
      | asked hasked =>
          cases hasked with
          | sent _ hfree => exact absurd hfree hbusy
          | taken =>
              refine ⟨{ t with clients := t.clients.set k (.returning fd port), sockets := sockets }, ?_, ?_⟩
              · have hstep : step grants t (.client k (.direct answer)) =
                    some { t with clients := t.clients.set k (.returning fd port), sockets := sockets } := by
                  simp [step, hpc', clientStep, h.direct, h.sockets, hgrants, hanswer]
                show Seen (Privsep.step grants) Undisturbed see t (see t (.client k (.direct answer))) _
                exact Seen.single trivial hstep
              · have hset := getElem?_set_update hpc' (.returning fd port)
                have hshow : Shows ⟨[], [], .sending fd port⟩ (.written p) (.returning fd port) :=
                  .answered (.made (port_nonneg hanswer))
                have hothers : ∀ (j : Nat) pc pc', j ≠ k → s.clients[j]? = some pc →
                    Shows s.link pc pc' → Shows ⟨[], [], .sending fd port⟩ pc pc' := by
                  intro j pc pc' hjk hj hs
                  apply hs.relink_of_not_written
                  rintro q rfl
                  exact hjk (hx.alone hpc trivial hj trivial)
                rw [← set_same hpc]
                exact h.update hpc rfl List.length_set hset.1 hset.2 hshow hothers
                  fun hnone => absurd (getElem?_set_update hpc _).1 (hnone k p)
      | answered hanswered =>
          cases hanswered with
          | sent _ _ hfree => exact absurd hfree hbusy

theorem Mirrors.send (h : Mirrors s t) (hserver : s.link.server = .sending fd p) :
    Mirrors { s with link := { s.link with toClient := s.link.toClient ++ [sendRresvport fd p],
                                           server := .closing fd } } t := by
  have hbusy : ¬s.link.server.Free := by
    intro hfree
    rw [hserver] at hfree
    cases hfree
  apply h.relink
  · intro l f hasked
    cases hlink : s.link with
    | mk toServer toClient server =>
        rw [hlink] at hserver hbusy hasked
        cases hasked with
        | sent _ hfree => exact absurd hfree hbusy
        | taken => cases hserver
  · exact fun _ _ hanswered => hanswered.send hserver
  · exact fun hquiet => absurd hquiet.free hbusy

theorem Mirrors.read (h : Mirrors s t) {rest : List Int32} (hserver : s.link.server = .reading)
    (hrequest : s.link.toServer = p :: rest) :
    Mirrors { s with link := { s.link with
      toServer := rest, server := .reserving (privsepGetFamily p).2 (privsepGetFamily p).1 } } t := by
  apply h.relink
  · intro l f hasked
    cases hlink : s.link with
    | mk toServer toClient server =>
        rw [hlink] at hrequest hserver hasked
        cases hasked with
        | sent hp _ =>
            cases hrequest
            rw [hp]
            exact .taken
        | taken => cases hserver
  · intro fd l hanswered
    cases hlink : s.link with
    | mk toServer toClient server =>
        rw [hlink] at hrequest hanswered
        cases hanswered <;> cases hrequest
  · intro hquiet
    cases hlink : s.link with
    | mk toServer toClient server =>
        rw [hlink] at hrequest hquiet
        cases hquiet
        cases hrequest

/-- When the threads of one run are done, those of the other are. -/
theorem Mirrors.all_idle (h : Mirrors s t) (hidle : ∀ pc ∈ s.clients, pc = .idle) :
    ∀ pc ∈ t.clients, pc = .idle := by
  intro pc' hpc'
  obtain ⟨k, hlt, hk⟩ := List.getElem_of_mem hpc'
  have hlt' : k < s.clients.length := by
    rw [← h.length]
    exact hlt
  obtain ⟨x, hx, hshow⟩ := h.shows k _ (List.getElem?_eq_getElem hlt')
  rw [List.getElem?_eq_getElem hlt, hk] at hx
  cases hx
  rw [hidle _ (List.getElem_mem hlt')] at hshow
  cases hshow
  rfl

/-- What a step with the child shows, a run without it shows. -/
theorem Mirrors.step (h : Mirrors s t) (hx : Exclusive s) (hok : Undisturbed s a) (hstep : Stepped grants s a s') :
    ∃ t', Seen (step grants) Undisturbed see t (see s a) t' ∧ Mirrors s' t' := by
  cases hstep with
  | call k lport family hpc hfini =>
      obtain ⟨pc', hpc', hshow⟩ := h.shows k _ hpc
      cases hshow
      refine ⟨_, ?_, h.both hpc (by simp) hpc' (.called hok)⟩
      show Seen (Privsep.step grants) Undisturbed see t (see t (.call k lport family)) _
      exact Seen.single hok (if_pos ⟨hpc', by simp [h.fini, hfini]⟩)
  | direct k answer lport family fd port sockets hpc hfd =>
      rw [h.fd] at hfd
      cases hfd
  | refused k lport family hpc hfd hset =>
      obtain ⟨pc', hpc', hshow⟩ := h.shows k _ hpc
      cases hshow with
      | called hproper =>
          rw [setFamily_of_proper hproper] at hset
          cases hset
  | setFamily k lport family p hpc hfd hset =>
      obtain ⟨pc', hpc', hshow⟩ := h.shows k _ hpc
      cases hshow with
      | called hproper =>
          have hp := getFamily_setFamily hproper hset
          exact ⟨t, .refl, h.hidden hpc (by simp) hpc' (.waiting hp)⟩
  | lock k p hpc hmutex =>
      obtain ⟨pc', hpc', hshow⟩ := h.shows k _ hpc
      cases hshow with
      | waiting hp => exact ⟨t, .refl, h.hidden hpc (by simp) hpc' (.locked hp)⟩
  | write k p hpc => exact ⟨t, .refl, h.write hx hpc⟩
  | writeFails => cases hok
  | recv k p reply rest hpc hreply => exact ⟨t, .refl, h.recv hx hpc hreply⟩
  | recvFails => cases hok
  | unlock k fd p hpc =>
      obtain ⟨pc', hpc', hshow⟩ := h.shows k _ hpc
      cases hshow with
      | received hl => exact ⟨t, .refl, h.hidden hpc (by simp) hpc' (.returning hl)⟩
  | ret k fd p hpc =>
      obtain ⟨pc', hpc', hshow⟩ := h.shows k _ hpc
      cases hshow with
      | @returning _ l _ hl =>
          refine ⟨_, ?_, h.both hpc (by simp) hpc' .idle⟩
          have hsee : see s (.client k .ret) = see t (.client k .ret) := by
            simp only [see, hpc, hpc']
            cases fd with
            | none => rfl
            | some n => rw [hl rfl]
          rw [hsee]
          exact Seen.single trivial (by simp [Privsep.step, hpc', clientStep])
  | eof hfd hserver hempty hfini => exact ⟨t, .refl, h.free (by rw [hserver]; exact .reading) .exited⟩
  | read p rest hfd hserver hrequest => exact ⟨t, .refl, h.read hserver hrequest⟩
  | reserve answer lport family fd port sockets hfd hserver hgrants hanswer =>
      exact h.reserve hx hserver hgrants hanswer
  | send fd p hfd hserver => exact ⟨t, .refl, h.send hserver⟩
  | sendFails => cases hok
  | close fd hfd hserver => exact ⟨t, .refl, h.free (by rw [hserver]; exact .closing fd) .reading⟩
  | fini hfini hidle =>
      refine ⟨{ t with fini := true }, ?_, { h with fini := rfl }⟩
      show Seen (Privsep.step grants) Undisturbed see t (see t .fini) _
      exact Seen.single trivial (if_pos ⟨by simp [h.fini, hfini], h.all_idle hidle⟩)

/-! ## Every run -/

/-- What the threads of a set-user-id program see, those of one that runs as root can see. -/
theorem child_transparent {n : Nat} {obs : List Event}
    (h : Seen (step grants) Undisturbed see (privsepInit n true) obs s) :
    ∃ t, Seen (step grants) Undisturbed see (privsepInit n false) obs t ∧ t.sockets = s.sockets := by
  have hmatch : ∀ s a s' t, Exclusive s ∧ Mirrors s t → Undisturbed s a → step grants s a = some s' →
      ∃ t', Seen (step grants) Undisturbed see t (see s a) t' ∧ Exclusive s' ∧ Mirrors s' t' := by
    rintro s a s' t ⟨hx, hmirrors⟩ hok hstep
    obtain ⟨t', hrun, hmirrors'⟩ := hmirrors.step hx hok (stepped_of_step hstep)
    exact ⟨t', hrun, hx.step (stepped_of_step hstep), hmirrors'⟩
  obtain ⟨t, hrun, -, hmirrors⟩ := h.simulate hmatch ⟨exclusive_init n true, mirrors_init n⟩
  exact ⟨t, hrun, hmirrors.sockets⟩

/-- Two threads ask, the second comes first; the first finds its port taken. -/
def twoCalls : List Action :=
  [.call 0 1023 2, .call 1 1023 2, .client 0 .setFamily, .client 1 .setFamily, .client 1 .lock,
   .client 1 (.write true), .server .read, .server (.reserve (.port 1023)), .server (.send true),
   .client 1 .recv, .client 1 .unlock, .client 0 .lock, .client 0 (.write true), .server .close,
   .server .read, .server (.reserve (.port 1022)), .server (.send true), .client 0 .recv,
   .client 0 .unlock, .client 0 .ret, .client 1 .ret]

theorem child_transparent_two :
    ∃ t, Seen (step onePort) Undisturbed see (privsepInit 2 false)
        [.call 0 1023 2, .call 1 1023 2, .ret 0 (some (1, 1022)), .ret 1 (some (0, 1023))] t ∧
      t.sockets = [(2, 1023), (2, 1022)] := by
  have hreplay : replay (checked (step onePort) Undisturbed) (privsepInit 2 true) twoCalls =
      some ⟨true, [.idle, .idle], none, ⟨[], [], .closing (some 1)⟩, [(2, 1023), (2, 1022)], false⟩ := by
    decide +kernel
  have hshown : shown (step onePort) see (privsepInit 2 true) twoCalls =
      [.call 0 1023 2, .call 1 1023 2, .ret 0 (some (1, 1022)), .ret 1 (some (0, 1023))] := by
    decide +kernel
  rw [← hshown]
  exact child_transparent (Seen.of_checked hreplay)

end Pdsh.Privsep
