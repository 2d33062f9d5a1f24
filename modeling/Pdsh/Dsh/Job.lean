import Pdsh.Dsh.Fanout
import Pdsh.Dsh.Output
import Pdsh.Dsh.ExitValue

/-!
# A whole run of `dsh`

The threads and the output of the hosts together: a worker that runs (`_rsh_thread`) reads the
streams of its host until both descriptors are closed or the poll fails, sets its last state,
flushes standard output and standard error, calls `rcmd_destroy` and counts itself off. The main
thread is done when all workers are. What `dsh` then returns is made of the states and the return
codes of the hosts.

A read comes at any time while the descriptor is open; where there is nothing to read it fails with
`EAGAIN`. `sopt` says that standard error is a stream of its own, and `rv` what `rcmd_destroy`
returns for each host. No worker ends the job (`kill_on_fail` is off).
-/

namespace Pdsh.Dsh

open Lib.Transition

/-- The threads, their output, and the hosts `rcmd_destroy` was called for. -/
structure Job where
  threads : Threads
  out : OutputState
  destroyed : Nat → Bool

inductive JobAction where
  /-- a step of the threads -/
  | threads (a : Action)
  /-- `_handle_rcmd_stdout` or `_handle_rcmd_stderr` -/
  | output (k : Nat) (w : Which)
  /-- `_flush_output` -/
  | flush (k : Nat) (w : Which)
  /-- `rcmd_destroy`, and what becomes of its value -/
  | destroy (k : Nat)
deriving DecidableEq, Repr

/-- The condition of the loop in `_rsh_thread` fails: no descriptor is left. -/
def readOut (sopt : Bool) (out : OutputState) (k : Nat) : Bool :=
  (out.streams k .stdout).closed && (!sopt || (out.streams k .stderr).closed)

/-- What a worker has to do before it takes a step. -/
def mayStep (sopt : Bool) (s : Job) : Action → Bool
  | .worker k (.work true) => readOut sopt s.out k
  | .finish k => s.destroyed k
  | _ => true

/-- The worker of the host `k` is at `pc`. -/
def Job.at (s : Job) (k : Nat) (pc : WorkerPc) : Bool := (s.threads.t[k]?).any fun th => th.pc = pc

/-- The return code behind `rcmd_destroy`. -/
def destroyedRc (rc rv : Int) : Int := if rc = 0 ∧ rv > 0 then rv else rc

/-- `a->rc` behind `rcmd_destroy`. -/
def setRc (out : OutputState) (k : Nat) (rv : Int) : OutputState :=
  { out with t := out.t.modify k fun th => { th with rc := destroyedRc th.rc rv } }

def jobStep (fanout : Int32) (e : ErrState) (sopt : Bool) (rv : Nat → Int) (s : Job) : JobAction → Option Job
  | .threads a =>
      if mayStep sopt s a then (step fanout s.threads a).map ({ s with threads := · }) else none
  | .output k w =>
      if s.at k .running ∧ (w = .stderr → sopt) then
        (outputStep e s.out (.output k w)).map ({ s with out := · })
      else none
  | .flush k w =>
      if s.at k .finishing ∧ (w = .stderr → (s.out.streams k .stdout).flushed) then
        (outputStep e s.out (.flush k w)).map ({ s with out := · })
      else none
  | .destroy k =>
      if s.at k .finishing ∧ (s.out.streams k .stderr).flushed ∧ ¬s.destroyed k then
        some { s with out := setRc s.out k (rv k), destroyed := Function.update s.destroyed k true }
      else none

/-- Before the main loop, with a stream of each kind for every host. -/
structure Job.Start (s : Job) : Prop where
  threads : Started s.threads
  length : s.out.t.length = s.threads.t.length
  destroyed : ∀ k, s.destroyed k = false

/-- The hosts with the states and codes they have. -/
def Job.exits (s : Job) : List ThdExit :=
  List.zipWith (fun th o => ⟨th.state, o.rc⟩) s.threads.t s.out.t

/-! ## The count of the workers -/

variable {fanout : Int32} {s s' : Threads} {a : Action}

/-- What the main loop knows in every run, whatever wakes it. -/
structure Accounted (s : Threads) : Prop where
  count : s.threadcount = s.t.countP live
  fresh : Fresh s
  past : ∀ (k : Nat) (th : Thd), k < s.i → s.t[k]? = some th → th.pc = .absent → th.state = .canceled
  ended : s.main = .drain ∨ s.main = .drainWaiting ∨ s.main = .finished → s.t.length ≤ s.i
  finished : s.main = .finished → s.threadcount ≤ 0

theorem Started.accounted (h : Started s) : Accounted s where
  count := by
    have hnone : s.t.countP live = 0 := by
      rw [List.countP_eq_zero]
      intro th hth
      simp [live, (h.fresh th hth).2.1]
    rw [h.threadcount, hnone]
    rfl
  fresh := h.fresh_of
  past := fun k th hk => by
    rw [h.i] at hk
    omega
  ended := fun hmain => by simp [h.main] at hmain
  finished := fun hmain => by simp [h.main] at hmain

theorem Accounted.past_skip (h : Accounted s) {k : Nat} {th : Thd} (hk : k < skipCanceled s.t s.i)
    (hth : s.t[k]? = some th) (habsent : th.pc = .absent) : th.state = .canceled := by
  by_cases hi : k < s.i
  · exact h.past k th hi hth habsent
  · exact canceled_of_lt_skip (Nat.le_of_not_lt hi) hk hth

/-- A change of one entry that the main loop does not notice. -/
theorem Accounted.set (h : Accounted s) {k : Nat} {th th' : Thd} (hth : s.t[k]? = some th)
    (hsame : SameWorker th th') (cancel : Option CancelPc) :
    Accounted { s with t := s.t.set k th', cancel := cancel } where
  count := by
    show s.threadcount = ((s.t.set k th').countP live : Int)
    rw [countP_set_of_getElem? hth, hsame.live, h.count]
    omega
  fresh := h.fresh.set hth hsame.absent.mpr
  past := fun j x hj hx habsent => by
    rcases getElem?_set_cases hx with ⟨rfl, rfl⟩ | ⟨-, hx⟩
    · have habsent' := hsame.absent.mp habsent
      exact hsame.canceled habsent' (h.past j th hj hth habsent')
    · exact h.past j x hj hx habsent
  ended := by simpa using h.ended
  finished := h.finished

theorem wake_finished {pc : MainPc} (h : wake pc = .finished) : pc = .finished := by
  cases pc <;> simp [wake] at h ⊢

theorem Accounted.step (h : Accounted s) (hstep : Stepped fanout s a s') : Accounted s' := by
  have hfresh := h.fresh.step hstep
  cases hstep with
  | wait hmutex hmain hi hfull => exact ⟨h.count, hfresh, h.past, by simp, by simp⟩
  | loopEnd hmutex hmain hi => exact ⟨h.count, hfresh, h.past, fun _ => hi, by simp⟩
  | start hmutex th hmain hth =>
      have hle := skipCanceled_le s.t s.i
      have habsent := h.fresh _ th hle hth
      refine ⟨?_, hfresh, ?_, by simp, by simp⟩
      · show s.threadcount + 1 = ((s.t.set _ _).countP live : Int)
        rw [countP_set_of_getElem? hth, h.count]
        simp [live, habsent]
      · intro j x hj hx hxabsent
        rcases getElem?_set_cases hx with ⟨rfl, rfl⟩ | ⟨hne, hx⟩
        · cases hxabsent
        · exact h.past_skip (Nat.lt_of_le_of_ne (Nat.le_of_lt_succ hj) hne) hx hxabsent
  | none hmutex hmain hth =>
      have hlen : s.t.length ≤ skipCanceled s.t s.i := List.getElem?_eq_none_iff.mp hth
      refine ⟨h.count, hfresh, ?_, fun _ => hlen, by simp⟩
      intro j x hj hx hxabsent
      exact h.past_skip hj hx hxabsent
  | drain hmutex hmain =>
      refine ⟨h.count, hfresh, h.past, fun _ => h.ended (.inl hmain), ?_⟩
      intro hfinished
      simp only at hfinished
      split at hfinished
      · cases hfinished
      · rename_i hpos
        exact Int.not_lt.mp hpos
  | spurious hmain =>
      refine ⟨h.count, hfresh, h.past, fun hended => h.ended (wake_ended hended), ?_⟩
      intro hfinished
      exact h.finished (wake_finished hfinished)
  | worker k a th th' hth hw => exact h.set hth (workerStep_same hw) s.cancel
  | finish hmutex k th hth hpc =>
      refine ⟨?_, hfresh, ?_, ?_, ?_⟩
      · show s.threadcount - 1 = ((s.t.set _ _).countP live : Int)
        rw [countP_set_of_getElem? hth, h.count]
        simp [live, hpc]
      · intro j x hj hx hxabsent
        rcases getElem?_set_cases hx with ⟨rfl, rfl⟩ | ⟨-, hx⟩
        · cases hxabsent
        · exact h.past j x hj hx hxabsent
      · intro hended
        simpa [finishStep] using h.ended (wake_ended hended)
      · intro hfinished
        have hle := h.finished (wake_finished hfinished)
        show s.threadcount - 1 ≤ 0
        omega
  | cancelLock hmutex => exact ⟨h.count, h.fresh, h.past, h.ended, h.finished⟩
  | cancelUnlock k hcancel hth => exact ⟨h.count, h.fresh, h.past, h.ended, h.finished⟩
  | check k th hcancel hth => exact ⟨h.count, h.fresh, h.past, h.ended, h.finished⟩
  | mark k th hcancel hth =>
      have hsame : SameWorker th { th with state := .canceled } := ⟨rfl, Iff.rfl, fun _ _ => rfl⟩
      exact h.set hth hsame (some (.check (k + 1)))

/-- When the main thread is done, each host has had its worker, or was canceled before. -/
theorem Accounted.all_ended (h : Accounted s) (hmain : s.main = .finished) {k : Nat} {th : Thd}
    (hth : s.t[k]? = some th) : th.pc = .exited ∨ th.pc = .absent ∧ th.state = .canceled := by
  have hnone : s.t.countP live = 0 := by
    have hle := h.finished hmain
    rw [h.count] at hle
    omega
  have hdead := List.countP_eq_zero.mp hnone th (List.mem_of_getElem? hth)
  simp only [live, Bool.decide_and, Bool.and_eq_true, decide_eq_true_eq, not_and, not_not] at hdead
  by_cases habsent : th.pc = .absent
  · have hlt := (List.getElem?_eq_some_iff.mp hth).1
    exact .inr ⟨habsent, h.past k th (Nat.lt_of_lt_of_le hlt (h.ended (.inr (.inr hmain)))) hth habsent⟩
  · exact .inl (hdead habsent)

end Pdsh.Dsh
