import Pdsh.Dsh.Threads

/-!
# Cancellation

^Z cancels the hosts that have not connected yet. A host whose worker was not created
stays canceled: the main loop passes over it. The worker of any other host sets its
state without a look at what the state is, first to `DSH_RCMD` and at the end to its
result, and so takes a cancellation back. The states change as they should in every
run in which a cancellation comes before the worker (`state_changes`).
-/

namespace Pdsh.Dsh

open Lib.Transition

/-- The changes of state a host may make. -/
inductive Allowed : HostState → HostState → Prop where
  | newRcmd : Allowed .new .rcmd
  | newCanceled : Allowed .new .canceled
  | rcmdCanceled : Allowed .rcmd .canceled
  | rcmdReading : Allowed .rcmd .reading
  | rcmdFailed : Allowed .rcmd .failed
  | readingDone : Allowed .reading .done
  | readingFailed : Allowed .reading .failed

/-- The entry of every host changes its state as it may. -/
def StateChanges (s s' : Threads) : Prop :=
  ∀ (k : Nat) (th th' : Thd), s.t[k]? = some th → s'.t[k]? = some th' →
    th'.state = th.state ∨ Allowed th.state th'.state

/-- A host that is canceled stays so, and is not connected to when it has no worker
yet. -/
def StaysCanceled (s s' : Threads) : Prop :=
  ∀ (k : Nat) (th th' : Thd), s.t[k]? = some th → s'.t[k]? = some th' → th.state = .canceled →
    th'.state = .canceled ∧ (th.pc = .absent → th'.connected = false)

/-- A cancellation is about to find a pending host that has a worker. -/
def findsWorker (s : Threads) : Bool :=
  match s.cancel with
  | some (.check k) => (s.t[k]?).any fun th => pending th ∧ th.pc ≠ .absent
  | _ => false

/-- A cancellation finds no pending host that has a worker. -/
def CancelsUnstarted (s : Threads) (a : Action) : Prop := a = .cancelStep → findsWorker s = false

instance (s : Threads) (a : Action) : Decidable (CancelsUnstarted s a) := by
  unfold CancelsUnstarted
  infer_instance

/-! ## The invariant -/

variable {fanout : Int32} {s s' s'' : Threads} {a : Action} {k : Nat} {th th' : Thd}

/-- The state of a host goes with how far its worker has come. -/
def Thd.Consistent (th : Thd) : Prop :=
  match th.pc with
  | .absent => (th.state = .new ∨ th.state = .canceled) ∧ th.connected = false
  | .created => th.state = .new
  | .connecting => th.state = .rcmd
  | .connected => th.state = .rcmd
  | .updated => th.state = .reading
  | .running => th.state = .reading
  | .result r => r = .failed ∧ (th.state = .rcmd ∨ th.state = .reading) ∨ r = .done ∧ th.state = .reading
  | .finishing => th.state = .done ∨ th.state = .failed
  | .exited => th.state = .done ∨ th.state = .failed

/-- Each host is consistent, and one that is about to be marked has no worker. -/
structure CancelInv (s : Threads) : Prop where
  fresh : Fresh s
  consistent : ∀ (k : Nat) (th : Thd), s.t[k]? = some th → th.Consistent
  marking : ∀ k, s.cancel = some (.mark k) → ∀ th, s.t[k]? = some th → th.pc = .absent

theorem Started.cancelInv (h : Started s) : CancelInv s := by
  refine ⟨h.fresh_of, ?_, ?_⟩
  · intro k th hth
    obtain ⟨hstate, hpc, hconnected⟩ := h.fresh th (List.mem_of_getElem? hth)
    rw [Thd.Consistent, hpc]
    exact ⟨hstate, hconnected⟩
  · rw [h.cancel]
    simp

/-- Only a host without a worker is canceled. -/
theorem Thd.Consistent.absent (h : th.Consistent) (hstate : th.state = .canceled) :
    th.pc = .absent := by
  cases hpc : th.pc with
  | absent => rfl
  | _ => simp [Thd.Consistent, hpc, hstate] at h

/-- A worker keeps its entry consistent and changes the state as it may. -/
theorem Thd.Consistent.worker {a : WorkerAction} (h : th.Consistent)
    (hw : workerStep th a = some th') :
    th'.Consistent ∧ (th'.state = th.state ∨ Allowed th.state th'.state) := by
  cases a with
  | rcmd =>
      obtain ⟨hpc, hw⟩ := Option.ite_none_right_eq_some.mp hw
      cases hw
      rw [Thd.Consistent, hpc] at h
      refine ⟨rfl, .inr ?_⟩
      rw [h]
      exact .newRcmd
  | connect fd =>
      obtain ⟨hpc, hw⟩ := Option.ite_none_right_eq_some.mp hw
      cases hw
      rw [Thd.Consistent, hpc] at h
      refine ⟨?_, .inl rfl⟩
      cases fd with
      | true => exact h
      | false => exact .inl ⟨rfl, .inl h⟩
  | update =>
      obtain ⟨hpc, hw⟩ := Option.ite_none_right_eq_some.mp hw
      cases hw
      rw [Thd.Consistent, hpc] at h
      have hstate : (if th.state = .canceled then HostState.canceled else .reading) = .reading := by
        simp [h]
      refine ⟨hstate, .inr ?_⟩
      show Allowed th.state (if th.state = .canceled then HostState.canceled else .reading)
      rw [hstate, h]
      exact .rcmdReading
  | decide =>
      obtain ⟨hpc, hw⟩ := Option.ite_none_right_eq_some.mp hw
      cases hw
      rw [Thd.Consistent, hpc] at h
      have hrun : (if th.state = .canceled then WorkerPc.result .done else .running) = .running := by
        simp [h]
      refine ⟨?_, .inl rfl⟩
      rw [Thd.Consistent]
      simp only [hrun]
      exact h
  | work result =>
      obtain ⟨hpc, hw⟩ := Option.ite_none_right_eq_some.mp hw
      cases hw
      rw [Thd.Consistent, hpc] at h
      refine ⟨?_, .inl rfl⟩
      cases result with
      | true => exact .inr ⟨rfl, h⟩
      | false => exact .inl ⟨rfl, .inr h⟩
  | status =>
      simp only [workerStep] at hw
      split at hw
      · rename_i r hpc
        cases hw
        rw [Thd.Consistent, hpc] at h
        rcases h with ⟨rfl, hstate | hstate⟩ | ⟨rfl, hstate⟩
        · refine ⟨.inr rfl, .inr ?_⟩
          rw [hstate]
          exact .rcmdFailed
        · refine ⟨.inr rfl, .inr ?_⟩
          rw [hstate]
          exact .readingFailed
        · refine ⟨.inl rfl, .inr ?_⟩
          rw [hstate]
          exact .readingDone
      · cases hw

/-- What a step may do to the entry of a host. -/
structure Kept (th th' : Thd) : Prop where
  consistent : th'.Consistent
  state : th'.state = th.state ∨ Allowed th.state th'.state
  canceled : th.state = .canceled → th'.state = .canceled

theorem Kept.refl (h : th.Consistent) : Kept th th := ⟨h, .inl rfl, id⟩

/-- A change of one entry. -/
theorem CancelInv.set (h : CancelInv s) (hth : s.t[k]? = some th) (hkept : Kept th th') (j : Nat)
    (x x' : Thd) (hx : s.t[j]? = some x) (hx' : (s.t.set k th')[j]? = some x') : Kept x x' := by
  rcases getElem?_set_cases hx' with ⟨rfl, rfl⟩ | ⟨-, hsame⟩
  · rw [hth] at hx
    cases hx
    exact hkept
  · rw [hx] at hsame
    cases hsame
    exact .refl (h.consistent j x hx)

/-- What a step does to each entry, if no cancellation comes too late. -/
theorem CancelInv.kept (h : CancelInv s) (hstep : Stepped fanout s a s') (j : Nat) (x x' : Thd)
    (hx : s.t[j]? = some x) (hx' : s'.t[j]? = some x') : Kept x x' := by
  have hrefl : s'.t = s.t → Kept x x' := by
    intro ht
    rw [ht, hx] at hx'
    cases hx'
    exact .refl (h.consistent j x hx)
  cases hstep with
  | start hmutex th hmain hth =>
      have hnot := skipCanceled_state hth
      have hcons := h.consistent _ th hth
      rw [Thd.Consistent, h.fresh _ th (skipCanceled_le _ _) hth] at hcons
      have hcreated : Kept th { th with pc := .created } :=
        ⟨hcons.1.resolve_right hnot, .inl rfl, fun hcanceled => absurd hcanceled hnot⟩
      exact h.set hth hcreated j x x' hx hx'
  | worker k a th th' hth hw =>
      have hcons := h.consistent k th hth
      obtain ⟨hcons', hstate⟩ := hcons.worker hw
      refine h.set hth ⟨hcons', hstate, ?_⟩ j x x' hx hx'
      intro hcanceled
      exact absurd (hcons.absent hcanceled) (workerStep_pc hw).1
  | finish hmutex k th hth hpc =>
      have hcons := h.consistent k th hth
      unfold Thd.Consistent at hcons
      rw [hpc] at hcons
      have hexited : ({ th with pc := .exited } : Thd).Consistent := hcons
      exact h.set hth ⟨hexited, .inl rfl, id⟩ j x x' hx hx'
  | mark k th hcancel hth =>
      have habsent := h.marking k hcancel th hth
      have hcons := h.consistent k th hth
      unfold Thd.Consistent at hcons
      rw [habsent] at hcons
      refine h.set hth ⟨?_, ?_, fun _ => rfl⟩ j x x' hx hx'
      · unfold Thd.Consistent
        simp only [habsent]
        exact ⟨.inr trivial, hcons.2⟩
      · rcases hcons.1 with hstate | hstate
        · rw [hstate]
          exact .inr .newCanceled
        · exact .inl hstate.symm
  | _ => exact hrefl rfl

theorem CancelInv.step (h : CancelInv s) (hok : CancelsUnstarted s a)
    (hstep : Stepped fanout s a s') : CancelInv s' := by
  refine ⟨h.fresh.step hstep, ?_, ?_⟩
  · intro k th' hth'
    have hk : k < s.t.length := by
      rw [← hstep.length]
      exact (List.getElem?_eq_some_iff.mp hth').1
    exact (h.kept hstep k s.t[k] th' (List.getElem?_eq_getElem hk) hth').consistent
  · intro k hmark th hth
    cases hstep with
    | check j x hcancel hx =>
        simp only [Option.some.injEq] at hmark
        split at hmark
        · rename_i hpending
          cases hmark
          have hnone := hok rfl
          rw [hx] at hth
          cases hth
          simpa [findsWorker, hcancel, hx, hpending] using hnone
        · cases hmark
    | start hmutex x hmain hx =>
        rw [hmutex] at hmark
        cases hmark
    | worker j b x x' hx hw =>
        rcases getElem?_set_cases hth with ⟨rfl, rfl⟩ | ⟨-, hth⟩
        · exact absurd (h.marking k hmark x hx) (workerStep_pc hw).1
        · exact h.marking k hmark th hth
    | finish hmutex j x hx hpc =>
        have hnone : s.cancel = some (.mark k) := hmark
        rw [hmutex] at hnone
        cases hnone
    | cancelLock => cases hmark
    | cancelUnlock => cases hmark
    | mark => cases hmark
    | _ => exact h.marking k hmark th hth

theorem CancelInv.steps (h : CancelInv s) (hrun : Steps (Dsh.step fanout) CancelsUnstarted s s') :
    CancelInv s' :=
  hrun.invariant h fun _ _ _ h hok hstep => h.step hok (stepped_of_step hstep)

/-- A canceled host stays canceled in a whole run. -/
theorem CancelInv.stays (h : CancelInv s) (hrun : Steps (Dsh.step fanout) CancelsUnstarted s s')
    (hth : s.t[k]? = some th) (hth' : s'.t[k]? = some th') (hcanceled : th.state = .canceled) :
    th'.state = .canceled := by
  induction hrun generalizing th' with
  | refl =>
      rw [hth] at hth'
      cases hth'
      exact hcanceled
  | @tail u u' a hrun hok hstep ih =>
      have hstepped := stepped_of_step hstep
      have hk : k < u.t.length := by
        rw [← hstepped.length]
        exact (List.getElem?_eq_some_iff.mp hth').1
      have hget := List.getElem?_eq_getElem hk
      exact ((h.steps hrun).kept hstepped k _ th' hget hth').canceled (ih hget)

/-- While every cancellation comes before the worker of its host, the states of the
hosts change as they should. -/
theorem state_changes (h0 : Started s) (hrun : Steps (Dsh.step fanout) CancelsUnstarted s s') :
    (∀ a s'', CancelsUnstarted s' a → Dsh.step fanout s' a = some s'' → StateChanges s' s'') ∧
      ∀ s'', Steps (Dsh.step fanout) CancelsUnstarted s' s'' → StaysCanceled s' s'' := by
  have h := h0.cancelInv.steps hrun
  constructor
  · intro a s'' _ hstep k th th' hth hth'
    exact (h.kept (stepped_of_step hstep) k th th' hth hth').state
  · intro s'' hrun' k th th' hth hth' hcanceled
    have hstays := h.stays hrun' hth hth' hcanceled
    refine ⟨hstays, ?_⟩
    intro _
    have hcons := (h.steps hrun').consistent k th' hth'
    have habsent := hcons.absent hstays
    rw [Thd.Consistent, habsent] at hcons
    exact hcons.2

/-- Two hosts at a fanout of 1; the second one is canceled while the first one
connects, and the first one once it has connected is let alone. -/
def cancelSecond : List Action :=
  [.mainLock, .worker 0 .rcmd, .worker 0 (.connect true), .worker 0 .update, .cancelLock, .cancelStep,
    .cancelStep, .cancelStep]

theorem state_changes_two : ∃ s', replay (checked (Dsh.step 1) CancelsUnstarted) (startHosts 2)
      cancelSecond = some s' ∧ s'.t.map Thd.state = [.reading, .canceled] ∧
    (∀ a s'', CancelsUnstarted s' a → Dsh.step 1 s' a = some s'' → StateChanges s' s'') ∧
    ∀ s'', Steps (Dsh.step 1) CancelsUnstarted s' s'' → StaysCanceled s' s'' :=
  ⟨_, rfl, rfl, state_changes (startHosts_started 2) (Steps.of_checked (rfl :
    replay (checked (Dsh.step 1) CancelsUnstarted) (startHosts 2) cancelSecond = some _))⟩

/-- A worker that was created before the cancellation sets its state all the same. -/
theorem cancellation_lost :
    ∃ s s' s'', replay (Dsh.step 1) (startHosts 1) [.mainLock, .cancelLock, .cancelStep, .cancelStep] = some s ∧
      (s.t.map Thd.state = [.canceled] ∧ s.t.map Thd.connected = [false]) ∧
      Dsh.step 1 s (.worker 0 .rcmd) = some s' ∧ ¬ StateChanges s s' ∧
      Dsh.step 1 s' (.worker 0 (.connect true)) = some s'' ∧ s''.t.map Thd.connected = [true] := by
  refine ⟨_, _, _, rfl, ⟨rfl, rfl⟩, rfl, ?_, rfl, rfl⟩
  intro h
  rcases h 0 _ _ rfl rfl with hsame | hallowed
  · cases hsame
  · cases hallowed

end Pdsh.Dsh
