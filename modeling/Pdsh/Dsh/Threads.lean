import Pdsh.Libc
import Pdsh.Lib.Transition

/-!
# The threads of `dsh`

`dsh` starts one worker thread a host and keeps the number of workers at the fanout:
its main loop waits on `threadcount_cond`, and a worker that ends counts itself off
and signals. A third thread cancels hosts on ^Z. This is the step function of the
three, for any number of hosts.

What happens under `threadcount_mutex` in the main loop and at the end of a worker is
one step, since nothing else touches its data. A cancellation holds the same mutex,
but a worker changes its own state under `thd_mutex`, so the cancellation goes host
by host, and looks at a host and marks it in two steps. `rcmd_connect`, the poll loop
and the copy are single steps that end as they may. A call that ends the process ends
the run.
-/

namespace Pdsh.Dsh

open Lib.Transition

/-- `state_t`, the state of a host. -/
inductive HostState where
  | new
  | rcmd
  | reading
  | done
  | failed
  | canceled
deriving DecidableEq, Repr

/-- How far the worker of a host has come in `_rsh_thread` or `_rcp_thread`. -/
inductive WorkerPc where
  /-- there is no worker -/
  | absent
  /-- before it sets `DSH_RCMD` -/
  | created
  /-- before `rcmd_connect` -/
  | connecting
  /-- connected, before `_update_connect_state` -/
  | connected
  /-- in `_update_connect_state`, behind its critical section -/
  | updated
  /-- reading output or copying files -/
  | running
  /-- before it sets its last state -/
  | result (r : HostState)
  /-- before it counts itself off -/
  | finishing
  | exited
deriving DecidableEq, Repr

/-- What the steps use of `thd_t`, and whether `rcmd_connect` was called. -/
structure Thd where
  state : HostState
  pc : WorkerPc
  connected : Bool
deriving DecidableEq, Repr

/-- How far the main thread has come. -/
inductive MainPc where
  /-- at the head of the loop that starts the workers -/
  | loop
  /-- in the `pthread_cond_wait` of that loop -/
  | waiting
  /-- woken there, before it has the mutex again -/
  | woken
  /-- before the test that waits for the remaining workers -/
  | drain
  | drainWaiting
  | finished
deriving DecidableEq, Repr

/-- How far `_cancel_pending_threads` has come. -/
inductive CancelPc where
  | check (i : Nat)
  | mark (i : Nat)
deriving DecidableEq, Repr

/-- What the threads share. `threadcount` counts at most the hosts, so it does not
wrap. -/
structure Threads where
  t : List Thd
  threadcount : Int
  main : MainPc
  i : Nat
  /-- a cancellation under way, which holds `threadcount_mutex` -/
  cancel : Option CancelPc
deriving DecidableEq, Repr

/-- The steps of a worker but its last. -/
inductive WorkerAction where
  | rcmd
  | connect (fd : Bool)
  | update
  | decide
  | work (result : Bool)
  | status
deriving DecidableEq, Repr

/-- The steps of all threads. -/
inductive Action where
  /-- the main thread takes `threadcount_mutex` -/
  | mainLock
  /-- `pthread_cond_wait` wakes without a signal -/
  | spurious
  | worker (k : Nat) (a : WorkerAction)
  /-- a worker counts itself off -/
  | finish (k : Nat)
  | cancelLock
  | cancelStep
deriving DecidableEq, Repr

/-! ## The main thread -/

/-- `while ((t[i].state == DSH_CANCELED) && (i < rshcount)) ++i;` -/
def skipCanceled (t : List Thd) (i : Nat) : Nat :=
  i + (t.drop i).findIdx fun th => th.state ≠ .canceled

/-- The rest of a round of the main loop, behind the wait. -/
def startNext (s : Threads) : Threads :=
  let i := skipCanceled s.t s.i
  match s.t[i]? with
  | none => { s with i := i, main := .drain }
  | some th =>
      { s with t := s.t.set i { th with pc := .created }, threadcount := s.threadcount + 1,
               i := i + 1, main := .loop }

/-- The main thread has the mutex. -/
def mainStep (fanout : Int32) (s : Threads) : Option Threads :=
  match s.main with
  | .loop =>
      if s.i < s.t.length then
        if fanout.toInt = s.threadcount then some { s with main := .waiting } else some (startNext s)
      else some { s with main := .drain }
  | .woken => some (startNext s)
  | .drain =>
      some { s with main := if s.threadcount > 0 then .drainWaiting else .finished }
  | _ => none

/-- A waiting main thread is woken. -/
def wake : MainPc → MainPc
  | .waiting => .woken
  | .drainWaiting => .drain
  | pc => pc

/-! ## Workers -/

/-- A step of a worker that changes nothing but its own entry. -/
def workerStep (th : Thd) : WorkerAction → Option Thd
  | .rcmd => if th.pc = .created then some { th with state := .rcmd, pc := .connecting } else none
  | .connect fd =>
      if th.pc = .connecting then
        some { th with connected := true, pc := if fd then .connected else .result .failed }
      else none
  | .update =>
      if th.pc = .connected then
        some { th with state := if th.state = .canceled then .canceled else .reading, pc := .updated }
      else none
  | .decide =>
      if th.pc = .updated then
        some { th with pc := if th.state = .canceled then .result .done else .running }
      else none
  | .work result =>
      if th.pc = .running then some { th with pc := .result (if result then .done else .failed) }
      else none
  | .status =>
      match th.pc with
      | .result r => some { th with state := r, pc := .finishing }
      | _ => none

/-- `threadcount--` and the signal. -/
def finishStep (s : Threads) (k : Nat) (th : Thd) : Threads :=
  { s with t := s.t.set k { th with pc := .exited }, threadcount := s.threadcount - 1,
           main := wake s.main }

/-! ## Cancellation -/

/-- The test of `_cancel_pending_threads`. -/
def pending (th : Thd) : Bool := th.state = .new ∨ th.state = .rcmd

/-- A step of `_cancel_pending_threads`; behind the last host it unlocks. -/
def cancelStep (s : Threads) : CancelPc → Option Threads
  | .check i =>
      match s.t[i]? with
      | none => some { s with cancel := none }
      | some th => some { s with cancel := some (if pending th then .mark i else .check (i + 1)) }
  | .mark i =>
      (s.t[i]?).map fun th =>
        { s with t := s.t.set i { th with state := .canceled }, cancel := some (.check (i + 1)) }

/-! ## All threads -/

/-- One step. The main thread and a worker that ends need `threadcount_mutex`. -/
def step (fanout : Int32) (s : Threads) : Action → Option Threads
  | .mainLock => if s.cancel = none then mainStep fanout s else none
  | .spurious =>
      if s.main = .waiting ∨ s.main = .drainWaiting then some { s with main := wake s.main } else none
  | .worker k a => do
      let th ← s.t[k]?
      let th ← workerStep th a
      pure { s with t := s.t.set k th }
  | .finish k => do
      let th ← s.t[k]?
      if s.cancel = none ∧ th.pc = .finishing then some (finishStep s k th) else none
  | .cancelLock => if s.cancel = none then some { s with cancel := some (.check 0) } else none
  | .cancelStep => s.cancel.bind (cancelStep s)

/-- Before the main loop: no worker yet, and hosts without an rcmd module canceled. -/
structure Started (s : Threads) : Prop where
  fresh : ∀ th ∈ s.t, (th.state = .new ∨ th.state = .canceled) ∧ th.pc = .absent ∧ th.connected = false
  threadcount : s.threadcount = 0
  main : s.main = .loop
  i : s.i = 0
  cancel : s.cancel = none

/-- `rshcount` hosts before the main loop. -/
def startHosts (rshcount : Nat) : Threads :=
  ⟨List.replicate rshcount ⟨.new, .absent, false⟩, 0, .loop, 0, none⟩

theorem startHosts_started (rshcount : Nat) : Started (startHosts rshcount) := by
  refine ⟨?_, rfl, rfl, rfl, rfl⟩
  intro th hth
  rw [List.eq_of_mem_replicate hth]
  exact ⟨.inl rfl, rfl, rfl⟩

/-! ## What a step does -/

variable {fanout : Int32} {s s' : Threads} {a : Action}

theorem skipCanceled_le (t : List Thd) (i : Nat) : i ≤ skipCanceled t i := Nat.le_add_right _ _

/-- The hosts passed over are canceled. -/
theorem canceled_of_lt_skip {t : List Thd} {i k : Nat} {th : Thd} (hlo : i ≤ k)
    (hhi : k < skipCanceled t i) (hth : t[k]? = some th) : th.state = .canceled := by
  obtain ⟨j, rfl⟩ := Nat.exists_eq_add_of_le hlo
  have hj : j < (t.drop i).findIdx fun th => decide (th.state ≠ .canceled) := Nat.add_lt_add_iff_left.mp hhi
  have hnot := List.not_of_lt_findIdx hj
  rw [← List.getElem?_drop] at hth
  rw [(List.getElem?_eq_some_iff.mp hth).2] at hnot
  simpa using hnot

/-- The host found is not canceled. -/
theorem skipCanceled_state {t : List Thd} {i : Nat} {th : Thd} (h : t[skipCanceled t i]? = some th) :
    th.state ≠ .canceled := by
  unfold skipCanceled at h
  rw [← List.getElem?_drop] at h
  simpa using List.findIdx_of_getElem?_eq_some h

/-- The entry of a host behind a change of one entry. -/
theorem getElem?_set_cases {t : List Thd} {k j : Nat} {th' x : Thd} (h : (t.set k th')[j]? = some x) :
    (j = k ∧ x = th') ∨ (j ≠ k ∧ t[j]? = some x) := by
  by_cases hjk : k = j
  · left
    subst hjk
    obtain ⟨hlt, hget⟩ := List.getElem?_eq_some_iff.mp h
    rw [List.getElem_set_self] at hget
    exact ⟨rfl, hget.symm⟩
  · right
    rw [List.getElem?_set_ne hjk] at h
    exact ⟨Ne.symm hjk, h⟩

/-- The steps, one constructor for each thing a step can do. -/
inductive Stepped (fanout : Int32) (s : Threads) : Action → Threads → Prop where
  | wait (hmutex : s.cancel = none) (hmain : s.main = .loop) (hi : s.i < s.t.length)
      (hfull : fanout.toInt = s.threadcount) : Stepped fanout s .mainLock { s with main := .waiting }
  | loopEnd (hmutex : s.cancel = none) (hmain : s.main = .loop) (hi : s.t.length ≤ s.i) :
      Stepped fanout s .mainLock { s with main := .drain }
  /-- a worker is started, at once or behind the wait -/
  | start (hmutex : s.cancel = none) (th : Thd)
      (hmain : s.main = .loop ∧ fanout.toInt ≠ s.threadcount ∨ s.main = .woken)
      (hth : s.t[skipCanceled s.t s.i]? = some th) :
      Stepped fanout s .mainLock
        { s with t := s.t.set (skipCanceled s.t s.i) { th with pc := .created },
                 threadcount := s.threadcount + 1, i := skipCanceled s.t s.i + 1, main := .loop }
  /-- the hosts that are left are canceled -/
  | none (hmutex : s.cancel = none) (hmain : s.main = .loop ∨ s.main = .woken)
      (hth : s.t[skipCanceled s.t s.i]? = none) :
      Stepped fanout s .mainLock { s with i := skipCanceled s.t s.i, main := .drain }
  | drain (hmutex : s.cancel = none) (hmain : s.main = .drain) :
      Stepped fanout s .mainLock
        { s with main := if s.threadcount > 0 then .drainWaiting else .finished }
  | spurious (hmain : s.main = .waiting ∨ s.main = .drainWaiting) :
      Stepped fanout s .spurious { s with main := wake s.main }
  | worker (k : Nat) (a : WorkerAction) (th th' : Thd) (hth : s.t[k]? = some th)
      (hw : workerStep th a = some th') :
      Stepped fanout s (.worker k a) { s with t := s.t.set k th' }
  | finish (hmutex : s.cancel = none) (k : Nat) (th : Thd) (hth : s.t[k]? = some th)
      (hpc : th.pc = .finishing) : Stepped fanout s (.finish k) (finishStep s k th)
  | cancelLock (hmutex : s.cancel = none) :
      Stepped fanout s .cancelLock { s with cancel := some (.check 0) }
  | cancelUnlock (k : Nat) (hcancel : s.cancel = some (.check k)) (hth : s.t[k]? = none) :
      Stepped fanout s .cancelStep { s with cancel := none }
  | check (k : Nat) (th : Thd) (hcancel : s.cancel = some (.check k)) (hth : s.t[k]? = some th) :
      Stepped fanout s .cancelStep
        { s with cancel := some (if pending th then .mark k else .check (k + 1)) }
  | mark (k : Nat) (th : Thd) (hcancel : s.cancel = some (.mark k)) (hth : s.t[k]? = some th) :
      Stepped fanout s .cancelStep
        { s with t := s.t.set k { th with state := .canceled }, cancel := some (.check (k + 1)) }

theorem stepped_startNext (hmutex : s.cancel = .none)
    (hmain : s.main = .loop ∧ fanout.toInt ≠ s.threadcount ∨ s.main = .woken) :
    Stepped fanout s .mainLock (startNext s) := by
  unfold startNext
  cases hth : s.t[skipCanceled s.t s.i]? with
  | none =>
      simp only [hth]
      exact .none hmutex (hmain.imp And.left id) hth
  | some th =>
      simp only [hth]
      exact .start hmutex th hmain hth

theorem stepped_of_step (h : step fanout s a = some s') : Stepped fanout s a s' := by
  cases a with
  | mainLock =>
      obtain ⟨hmutex, h⟩ := Option.ite_none_right_eq_some.mp h
      unfold mainStep at h
      split at h
      · rename_i hmain
        split at h
        · rename_i hi
          split at h
          · rename_i hfull
            cases h
            exact .wait hmutex hmain hi hfull
          · rename_i hroom
            cases h
            exact stepped_startNext hmutex (.inl ⟨hmain, hroom⟩)
        · rename_i hi
          cases h
          exact .loopEnd hmutex hmain (Nat.le_of_not_lt hi)
      · rename_i hmain
        cases h
        exact stepped_startNext hmutex (.inr hmain)
      · rename_i hmain
        cases h
        exact .drain hmutex hmain
      · cases h
  | spurious =>
      obtain ⟨hmain, h⟩ := Option.ite_none_right_eq_some.mp h
      cases h
      exact .spurious hmain
  | worker k a =>
      obtain ⟨th, hth, h⟩ := Option.bind_eq_some_iff.mp h
      obtain ⟨th', hw, h⟩ := Option.bind_eq_some_iff.mp h
      cases h
      exact .worker k a th th' hth hw
  | finish k =>
      obtain ⟨th, hth, h⟩ := Option.bind_eq_some_iff.mp h
      obtain ⟨hcond, h⟩ := Option.ite_none_right_eq_some.mp h
      cases h
      exact .finish hcond.1 k th hth hcond.2
  | cancelLock =>
      obtain ⟨hmutex, h⟩ := Option.ite_none_right_eq_some.mp h
      cases h
      exact .cancelLock hmutex
  | cancelStep =>
      obtain ⟨pc, hpc, h⟩ := Option.bind_eq_some_iff.mp h
      cases pc with
      | check k =>
          unfold cancelStep at h
          cases hth : s.t[k]? with
          | none =>
              simp only [hth] at h
              cases h
              exact .cancelUnlock k hpc hth
          | some th =>
              simp only [hth] at h
              cases h
              exact .check k th hpc hth
      | mark k =>
          obtain ⟨th, hth, h⟩ := Option.map_eq_some_iff.mp h
          cases h
          exact .mark k th hpc hth

/-- No host is added or lost. -/
theorem Stepped.length (h : Stepped fanout s a s') : s'.t.length = s.t.length := by
  cases h with
  | start hmutex th hmain hth => exact List.length_set
  | worker k a th th' hth hw => exact List.length_set
  | finish hmutex k th hth hpc => exact List.length_set
  | mark k th hcancel hth => exact List.length_set
  | _ => rfl

/-- The hosts the main loop has not come to have no worker. -/
def Fresh (s : Threads) : Prop :=
  ∀ (k : Nat) (th : Thd), s.i ≤ k → s.t[k]? = some th → th.pc = .absent

theorem Started.fresh_of (h : Started s) : Fresh s := fun _ th _ hth =>
  (h.fresh th (List.mem_of_getElem? hth)).2.1

/-- Only the main loop creates a worker. -/
theorem workerStep_pc {th th' : Thd} {a : WorkerAction} (h : workerStep th a = some th') :
    th.pc ≠ .absent ∧ th'.pc ≠ .absent := by
  cases a with
  | status =>
      simp only [workerStep] at h
      split at h
      · rename_i r hpc
        cases h
        simp [hpc]
      · cases h
  | _ =>
      obtain ⟨hpc, h⟩ := Option.ite_none_right_eq_some.mp h
      cases h
      constructor
      · simp [hpc]
      · simp <;> split <;> simp

/-- A change of one entry that does not create a worker. -/
theorem Fresh.set {k : Nat} {th th' : Thd} (h : Fresh s) (hth : s.t[k]? = some th)
    (hpc : th.pc = .absent → th'.pc = .absent) (j : Nat) (x : Thd) (hj : s.i ≤ j)
    (hx : (s.t.set k th')[j]? = some x) : x.pc = .absent := by
  rcases getElem?_set_cases hx with ⟨rfl, rfl⟩ | ⟨-, hx⟩
  · exact hpc (h j th hj hth)
  · exact h j x hj hx

theorem Fresh.step (h : Fresh s) (hstep : Stepped fanout s a s') : Fresh s' := by
  cases hstep with
  | start hmutex th hmain hth =>
      intro j x hj hx
      rcases getElem?_set_cases hx with ⟨rfl, rfl⟩ | ⟨-, hx⟩
      · exact absurd hj (Nat.not_succ_le_self _)
      · exact h j x (Nat.le_trans (skipCanceled_le _ _) (Nat.le_of_succ_le hj)) hx
  | none hmutex hmain hth =>
      intro j x hj hx
      exact h j x (Nat.le_trans (skipCanceled_le _ _) hj) hx
  | worker k a th th' hth hw =>
      exact h.set hth fun habsent => absurd habsent (workerStep_pc hw).1
  | finish hmutex k th hth hpc =>
      apply h.set hth
      intro habsent
      rw [hpc] at habsent
      cases habsent
  | mark k th hcancel hth => exact h.set hth id
  | _ => exact h

end Pdsh.Dsh
