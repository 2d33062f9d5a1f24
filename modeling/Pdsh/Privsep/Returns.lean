import Pdsh.Privsep.Transparent

/-!
# Every call returns

From any state of an undisturbed run: when no thread starts another call, every schedule comes
to the end of `privsep_fini`, with every call returned, the mutex free, the socket pair empty and
the child gone. What goes down is the work that is left, counted over the threads and the child.
-/

namespace Pdsh.Privsep

open Lib.Transition Lib.Observed

variable {grants : Kernel} {s s' t : System} {a : Action} {k : Nat} {pc : ClientPc}

/-- A step that is no call. -/
def Continues (grants : Kernel) (s s' : System) : Prop :=
  ∃ a, (∀ k lport family, a ≠ .call k lport family) ∧ Undisturbed s a ∧ step grants s a = some s'

/-- The kernel makes a socket or says that it cannot. -/
def Answering (grants : Kernel) : Prop :=
  ∀ sockets lport family, ∃ answer, grants sockets lport family answer = true

/-- Behind `privsep_fini`, when the child is gone. -/
structure Ended (s : System) : Prop where
  idle : ∀ pc ∈ s.clients, pc = .idle
  mutex : s.mutex = none
  fini : s.fini = true
  link : s.link = ⟨[], [], .exited⟩

/-! ## The end of the child, and the holder of the mutex -/

/-- `privsep_fini` comes behind the calls, and the end of the child behind it. -/
structure Orderly (s : System) : Prop where
  exited : s.link.server = .exited → s.fini = true
  fini : s.fini = true → ∀ (k : Nat) (pc : ClientPc), s.clients[k]? = some pc → pc = .idle
  holder : ∀ k, s.mutex = some k → ∃ pc, s.clients[k]? = some pc

theorem orderly_init (n : Nat) (setuid : Bool) : Orderly (privsepInit n setuid) where
  exited := fun h => by cases h
  fini := fun h => by cases h
  holder := fun _ h => by cases h

/-- A thread in a call goes on. -/
theorem Orderly.client (h : Orderly s) (hpc : s.clients[k]? = some pc) (hbusy : pc ≠ .idle)
    {new : ClientPc} {mutex : Option Nat} {link : Link} {sockets : List (Int32 × UInt16)}
    (hserver : link.server = s.link.server) (hmutex : ∀ j, mutex = some j → s.mutex = some j ∨ j = k) :
    Orderly { s with clients := s.clients.set k new, mutex := mutex, link := link, sockets := sockets } where
  exited := fun hexited => h.exited (hserver.symm.trans hexited)
  fini := fun hfini => absurd (h.fini hfini k pc hpc) hbusy
  holder := fun j hj => by
    have hlt : j < s.clients.length := by
      rcases hmutex j hj with hold | rfl
      · obtain ⟨x, hx⟩ := h.holder j hold
        exact (List.getElem?_eq_some_iff.mp hx).1
      · exact (List.getElem?_eq_some_iff.mp hpc).1
    have hlt' : j < (s.clients.set k new).length := by
      rw [List.length_set]
      exact hlt
    exact ⟨_, List.getElem?_eq_getElem hlt'⟩

/-- The child goes on. -/
theorem Orderly.server (h : Orderly s) {link : Link} {sockets : List (Int32 × UInt16)}
    (hexited : link.server = .exited → s.fini = true) : Orderly { s with link := link, sockets := sockets } where
  exited := hexited
  fini := h.fini
  holder := h.holder

theorem Orderly.step (h : Orderly s) (hstep : Stepped grants s a s') : Orderly s' := by
  cases hstep with
  | call k lport family hpc hfini =>
      refine ⟨h.exited, fun hf => ?_, fun j hj => ?_⟩
      · rw [hfini] at hf
        cases hf
      · obtain ⟨x, hx⟩ := h.holder j hj
        have hlt : j < (s.clients.set k (.called lport family)).length := by
          rw [List.length_set]
          exact (List.getElem?_eq_some_iff.mp hx).1
        exact ⟨_, List.getElem?_eq_getElem hlt⟩
  | direct k answer lport family fd port sockets hpc => exact h.client hpc (by simp) rfl (fun _ hj => .inl hj)
  | refused k lport family hpc => exact h.client hpc (by simp) rfl (fun _ hj => .inl hj)
  | setFamily k lport family p hpc => exact h.client hpc (by simp) rfl (fun _ hj => .inl hj)
  | lock k p hpc => exact h.client hpc (by simp) rfl (fun _ hj => .inr (Option.some.inj hj).symm)
  | write k p hpc => exact h.client hpc (by simp) rfl (fun _ hj => .inl hj)
  | writeFails k p hpc => exact h.client hpc (by simp) rfl (fun _ hj => .inl hj)
  | recv k p reply rest hpc => exact h.client hpc (by simp) rfl (fun _ hj => .inl hj)
  | recvFails k p fd hpc => exact h.client hpc (by simp) rfl (fun _ hj => .inl hj)
  | unlock k fd p hpc => exact h.client hpc (by simp) rfl (fun _ hj => by cases hj)
  | ret k fd p hpc => exact h.client hpc (by simp) rfl (fun _ hj => .inl hj)
  | eof hfd hserver hempty hfini => exact h.server fun _ => hfini
  | read p rest => exact h.server fun hexited => by cases hexited
  | reserve answer lport family fd port sockets => exact h.server fun hexited => by cases hexited
  | send fd p => exact h.server fun hexited => by cases hexited
  | sendFails fd p => exact h.server fun hexited => by cases hexited
  | close fd => exact h.server fun hexited => by cases hexited
  | fini hfini hidle =>
      exact ⟨fun _ => rfl, fun _ k pc hpc => hidle pc (List.mem_of_getElem? hpc), h.holder⟩

/-! ## What goes down -/

def ClientPc.work : ClientPc → Nat
  | .idle => 0
  | .called .. => 6
  | .waiting _ => 5
  | .locked _ => 4
  | .written _ => 3
  | .received .. => 2
  | .returning .. => 1

def ServerPc.work : ServerPc → Nat
  | .exited => 0
  | .reading => 1
  | .closing _ => 2
  | .sending .. => 3
  | .reserving .. => 4

/-- The work left: the steps of the threads, the requests and the steps of the child. A thread's
step weighs more than the request it may add. -/
def work (s : System) : Nat :=
  (s.clients.map fun pc => 5 * pc.work).sum + 4 * s.link.toServer.length + s.link.server.work +
    if s.fini then 0 else 1

/-- A thread goes on, and adds one request at most. -/
theorem work_client (hpc : s.clients[k]? = some pc) {new : ClientPc} {mutex : Option Nat} {link : Link}
    {sockets : List (Int32 × UInt16)} (hless : new.work < pc.work)
    (hlen : link.toServer.length ≤ s.link.toServer.length + 1) (hserver : link.server = s.link.server) :
    work { s with clients := s.clients.set k new, mutex := mutex, link := link, sockets := sockets } <
      work s := by
  have hsum := sum_map_set (fun pc => 5 * pc.work) hpc new
  simp only [work, hserver]
  omega

theorem work_server {link : Link} {sockets : List (Int32 × UInt16)}
    (hless : 4 * link.toServer.length + link.server.work <
      4 * s.link.toServer.length + s.link.server.work) :
    work { s with link := link, sockets := sockets } < work s := by
  simp only [work]
  omega

theorem work_decreases (hcall : ∀ k lport family, a ≠ .call k lport family)
    (hstep : Stepped grants s a s') : work s' < work s := by
  cases hstep with
  | call k lport family => exact absurd rfl (hcall k lport family)
  | direct k answer lport family fd port sockets hpc =>
      exact work_client hpc (by simp [ClientPc.work]) (Nat.le_succ _) rfl
  | refused k lport family hpc => exact work_client hpc (by simp [ClientPc.work]) (Nat.le_succ _) rfl
  | setFamily k lport family p hpc => exact work_client hpc (by simp [ClientPc.work]) (Nat.le_succ _) rfl
  | lock k p hpc => exact work_client hpc (by simp [ClientPc.work]) (Nat.le_succ _) rfl
  | write k p hpc => exact work_client hpc (by simp [ClientPc.work]) (Nat.le_of_eq List.length_append) rfl
  | writeFails k p hpc => exact work_client hpc (by simp [ClientPc.work]) (Nat.le_succ _) rfl
  | recv k p reply rest hpc => exact work_client hpc (by simp [ClientPc.work]) (Nat.le_succ _) rfl
  | recvFails k p fd hpc => exact work_client hpc (by simp [ClientPc.work]) (Nat.le_succ _) rfl
  | unlock k fd p hpc => exact work_client hpc (by simp [ClientPc.work]) (Nat.le_succ _) rfl
  | ret k fd p hpc => exact work_client hpc (by simp [ClientPc.work]) (Nat.le_succ _) rfl
  | eof hfd hserver =>
      apply work_server
      rw [hserver]
      exact Nat.lt_succ_self _
  | read p rest hfd hserver hrequest =>
      apply work_server
      rw [hserver, hrequest]
      simp only [ServerPc.work, List.length_cons]
      omega
  | reserve answer lport family fd port sockets hfd hserver =>
      apply work_server
      rw [hserver]
      exact Nat.lt_succ_self _
  | send fd p hfd hserver =>
      apply work_server
      rw [hserver]
      exact Nat.lt_succ_self _
  | sendFails fd p hfd hserver =>
      apply work_server
      rw [hserver]
      exact Nat.lt_succ_self _
  | close fd hfd hserver =>
      apply work_server
      rw [hserver]
      exact Nat.lt_succ_self _
  | fini hfini =>
      simp only [work, hfini]
      exact Nat.lt_succ_self _

/-! ## No state is stuck -/

theorem continues_client {c : ClientAction} (hok : Undisturbed s (.client k c))
    (hpc : s.clients[k]? = some pc) (hstep : clientStep grants s k pc c = some s') :
    ∃ s', Continues grants s s' :=
  ⟨s', .client k c, fun _ _ _ h => (by cases h), hok, Option.bind_eq_some_iff.mpr ⟨pc, hpc, hstep⟩⟩

theorem continues_server {c : ServerAction} (hok : Undisturbed s (.server c)) (hfd : s.client_fd = true)
    (hstep : serverStep grants s c = some s') : ∃ s', Continues grants s s' :=
  ⟨s', .server c, fun _ _ _ h => (by cases h), hok, (if_pos hfd).trans hstep⟩

/-- The child goes on, unless it is gone or waits for a request. -/
theorem child_continues (hgrants : Answering grants)
    (hfd : s.client_fd = true) (hexited : s.link.server ≠ .exited)
    (hrequest : s.link.server = .reading → s.link.toServer ≠ []) : ∃ s', Continues grants s s' := by
  cases hserver : s.link.server with
  | exited => exact absurd hserver hexited
  | reading =>
      cases hlist : s.link.toServer with
      | nil => exact absurd hlist (hrequest hserver)
      | cons p rest =>
          exact continues_server (c := .read) trivial hfd (by simp only [serverStep, hserver, hlist]; rfl)
  | reserving lport family =>
      obtain ⟨answer, hanswer⟩ := hgrants s.sockets lport family
      exact continues_server (c := .reserve answer) trivial hfd
        (by simp only [serverStep, hserver, hanswer, if_true]; rfl)
  | sending fd p =>
      exact continues_server (c := .send true) rfl hfd (by simp only [serverStep, hserver, if_true]; rfl)
  | closing fd =>
      exact continues_server (c := .close) trivial hfd (by simp only [serverStep, hserver]; rfl)

theorem Orderly.not_exited (h : Orderly s) (hpc : s.clients[k]? = some pc) (hbusy : pc ≠ .idle) :
    s.link.server ≠ .exited := by
  intro hexited
  exact hbusy (h.fini (h.exited hexited) k pc hpc)

/-- Where a thread waits for its reply, the reply is there or the child goes on. -/
theorem written_continues (hgrants : Answering grants) (h : Mirrors s t) (ho : Orderly s) {p : Int32}
    (hpc : s.clients[k]? = some (.written p)) : ∃ s', Continues grants s s' := by
  obtain ⟨pc', hpc', hshow⟩ := h.shows k _ hpc
  have hexited := ho.not_exited hpc (by simp)
  cases hshow with
  | asked hasked =>
      apply child_continues hgrants h.fd hexited
      intro hserver
      cases hlink : s.link with
      | mk toServer toClient server =>
          rw [hlink] at hasked hserver
          cases hasked with
          | sent => exact List.cons_ne_nil _ _
          | taken => cases hserver
  | @answered fd l _ hanswered =>
      cases hlink : s.link with
      | mk toServer toClient server =>
          rw [hlink] at hanswered
          cases hanswered with
          | made =>
              apply child_continues hgrants h.fd hexited
              intro hserver
              rw [hlink] at hserver
              cases hserver
          | sent =>
              exact continues_client (c := .recv) trivial hpc (by simp only [clientStep, hlink]; rfl)

/-- The holder of the mutex is never stuck. -/
theorem holder_continues (hgrants : Answering grants) (h : Mirrors s t) (ho : Orderly s)
    (hpc : s.clients[k]? = some pc) (hin : pc.Inside) : ∃ s', Continues grants s s' := by
  cases pc with
  | locked p => exact continues_client (c := .write true) rfl hpc (by simp only [clientStep, if_true]; rfl)
  | written p => exact written_continues hgrants h ho hpc
  | received fd p => exact continues_client (c := .unlock) trivial hpc rfl
  | idle | called | waiting | returning => cases hin

/-- A thread in a call is never stuck, or waits for one that is not. -/
theorem thread_continues (hgrants : Answering grants) (h : Mirrors s t) (hx : Exclusive s) (ho : Orderly s)
    (hpc : s.clients[k]? = some pc) (hbusy : pc ≠ .idle) : ∃ s', Continues grants s s' := by
  cases pc with
  | idle => exact absurd rfl hbusy
  | called lport family =>
      obtain ⟨pc', -, hshow⟩ := h.shows k _ hpc
      cases hshow with
      | called hproper =>
          exact continues_client (c := .setFamily) trivial hpc
            (by simp only [clientStep, h.fd, if_true, setFamily_of_proper hproper]; rfl)
  | waiting p =>
      cases hmutex : s.mutex with
      | none => exact continues_client (c := .lock) trivial hpc (by simp only [clientStep, hmutex, if_true]; rfl)
      | some j =>
          obtain ⟨x, hj⟩ := ho.holder j hmutex
          exact holder_continues hgrants h ho hj ((hx j x hj).mpr hmutex)
  | locked | written | received => exact holder_continues hgrants h ho hpc trivial
  | returning fd p => exact continues_client (c := .ret) trivial hpc rfl

/-- When no thread is in a call, what is left is `privsep_fini` and the end of the child. -/
theorem idle_continues (h : Mirrors s t) (hx : Exclusive s) (ho : Orderly s) (hidle : ∀ pc ∈ s.clients, pc = .idle) :
    Ended s ∨ ∃ s', Continues grants s s' := by
  cases hfini : s.fini with
  | false =>
      exact .inr ⟨_, .fini, fun _ _ _ hcall => (by cases hcall), trivial, if_pos ⟨by simp [hfini], hidle⟩⟩
  | true =>
      have hquiet : s.link.Quiet := by
        apply h.quiet
        intro j p hj
        cases hidle _ (List.mem_of_getElem? hj)
      have hmutex : s.mutex = none := by
        cases hm : s.mutex with
        | none => rfl
        | some j =>
            obtain ⟨x, hj⟩ := ho.holder j hm
            obtain rfl := hidle x (List.mem_of_getElem? hj)
            exact ((hx j _ hj).mpr hm).elim
      cases hlink : s.link with
      | mk toServer toClient server =>
          rw [hlink] at hquiet
          cases hquiet with
          | intro hfree =>
              cases hfree with
              | reading =>
                  right
                  exact continues_server (c := .read) trivial h.fd
                    (by simp only [serverStep, hlink, hfini, if_true]; rfl)
              | closing fd =>
                  right
                  exact continues_server (c := .close) trivial h.fd (by simp only [serverStep, hlink]; rfl)
              | exited => exact .inl ⟨hidle, hmutex, hfini, hlink⟩

theorem progress (hgrants : Answering grants)
    (h : Mirrors s t) (hx : Exclusive s) (ho : Orderly s) : Ended s ∨ ∃ s', Continues grants s s' := by
  by_cases hidle : ∀ pc ∈ s.clients, pc = .idle
  · exact idle_continues h hx ho hidle
  · push Not at hidle
    obtain ⟨pc, hmem, hbusy⟩ := hidle
    obtain ⟨k, hk⟩ := List.getElem?_of_mem hmem
    exact .inr (thread_continues hgrants h hx ho hk hbusy)

/-! ## Every schedule -/

/-- What holds in every state of an undisturbed run. -/
structure Sound (s : System) : Prop where
  mirrored : ∃ t, Mirrors s t
  exclusive : Exclusive s
  orderly : Orderly s

/-- With a kernel that always answers, all calls return and the child ends. -/
theorem calls_return (hgrants : Answering grants)
    {n : Nat} (h : Steps (step grants) Undisturbed (privsepInit n true) s) :
    Inevitable (Continues grants) Ended s := by
  have hkeep : ∀ s a s', Sound s → Undisturbed s a → step grants s a = some s' → Sound s' := by
    rintro s a s' ⟨⟨t, hmirrors⟩, hx, horderly⟩ hok hstep
    obtain ⟨t', -, hmirrors'⟩ := hmirrors.step hx hok (stepped_of_step hstep)
    exact ⟨⟨t', hmirrors'⟩, hx.step (stepped_of_step hstep), horderly.step (stepped_of_step hstep)⟩
  have hstart : Sound s :=
    h.invariant ⟨⟨_, mirrors_init n⟩, exclusive_init n true, orderly_init n true⟩ hkeep
  apply Inevitable.of_wf (measure work).wf _ _ hstart
  · rintro s ⟨⟨t, hmirrors⟩, hx, horderly⟩
    exact progress hgrants hmirrors hx horderly
  · rintro s s' hsound ⟨a, hcall, hok, hstep⟩
    exact ⟨hkeep s a s' hsound hok hstep, work_decreases hcall (stepped_of_step hstep)⟩

/-- The program of `twoCalls`, when one thread has the mutex and the other waits for it. -/
theorem calls_return_two :
    Inevitable (Continues onePort) Ended
      ⟨true, [.waiting 132095, .written 132095], some 1, ⟨[132095], [], .reading⟩, [], false⟩ := by
  have hreplay : replay (checked (step onePort) Undisturbed) (privsepInit 2 true) (twoCalls.take 6) =
      some ⟨true, [.waiting 132095, .written 132095], some 1, ⟨[132095], [], .reading⟩, [], false⟩ := by
    decide +kernel
  exact calls_return (fun _ _ _ => ⟨.failed 0, rfl⟩) (Steps.of_checked hreplay)

end Pdsh.Privsep
