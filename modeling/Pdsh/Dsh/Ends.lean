import Pdsh.Dsh.Complete

/-!
# `dsh` comes to its end

From every state of every run: once no more ^Z comes and the condition variable no longer wakes
without a signal, every schedule brings the main thread to the end of `dsh`, and no worker is left
(`dsh_ends`). What goes down is the work that is left: the steps of each worker, what its streams
still give, and its flushes. No state is stuck: the main thread only waits while a worker is there
(`Waits`), and a worker waits for nobody but a cancellation.
-/

namespace Pdsh.Dsh

open Lib.Transition

variable {fanout : Int32} {e : ErrState} {sopt cancels fails : Bool} {rv : Nat → Int} {s₀ s s' : Job}
  {t t' : Threads} {out₀ out out' : OutputState} {k : Nat} {w : Which} {th th' : Thd} {a : Action}

/-! ## What goes down -/

def WorkerPc.work : WorkerPc → Nat
  | .absent => 10
  | .created => 9
  | .connecting => 8
  | .connected => 7
  | .updated => 6
  | .running => 5
  | .result _ => 4
  | .finishing => 3
  | .exited => 0

/-- A worker that ends wakes the main thread, which costs less than the worker had left. -/
def MainPc.work : MainPc → Nat
  | .loop | .woken => 4
  | .waiting => 3
  | .drain => 2
  | .drainWaiting => 1
  | .finished => 0

/-- The steps left for a host. -/
def hostWork (s : Job) (k : Nat) : Nat :=
  ((s.threads.t[k]?).elim 0 fun th => th.pc.work) + (s.out.streams k .stdout).work +
    (s.out.streams k .stderr).work + if s.destroyed k then 0 else 1

def hostsWork (s : Job) : Nat := ∑ k ∈ Finset.range s.threads.t.length, hostWork s k

def work (s : Job) : Nat := s.threads.main.work + cancelLeft s.threads + hostsWork s

/-- The work of one host goes down. -/
theorem hostsWork_one (s' : Job) {d : Nat} (hk : k < s.threads.t.length)
    (hlength : s'.threads.t.length = s.threads.t.length) (hothers : ∀ j, j ≠ k → hostWork s' j = hostWork s j)
    (hone : hostWork s' k + d ≤ hostWork s k) : hostsWork s' + d ≤ hostsWork s := by
  have hmem : k ∈ Finset.range s.threads.t.length := Finset.mem_range.mpr hk
  unfold hostsWork
  rw [hlength, ← Finset.add_sum_erase _ _ hmem, ← Finset.add_sum_erase _ (hostWork s) hmem]
  have hrest : ∑ j ∈ (Finset.range s.threads.t.length).erase k, hostWork s' j =
      ∑ j ∈ (Finset.range s.threads.t.length).erase k, hostWork s j :=
    Finset.sum_congr rfl fun j hj => hothers j (Finset.ne_of_mem_erase hj)
  omega

/-- A thread moves on from `th` to `th'`. -/
theorem hostsWork_set (hth : s.threads.t[k]? = some th) (th' : Thd) (threads : Threads)
    (ht : threads.t = s.threads.t.set k th') {d : Nat} (hless : th'.pc.work + d ≤ th.pc.work) :
    hostsWork { s with threads := threads } + d ≤ hostsWork s := by
  have hk := (List.getElem?_eq_some_iff.mp hth).1
  apply hostsWork_one { s with threads := threads } hk
  · show threads.t.length = _
    rw [ht, List.length_set]
  · intro j hj
    simp only [hostWork, ht, List.getElem?_set_ne (Ne.symm hj)]
  · simp only [hostWork, ht, List.getElem?_set_self hk, hth, Option.elim_some]
    omega

theorem hostsWork_congr {threads : Threads} (ht : threads.t = s.threads.t) :
    hostsWork { s with threads := threads } = hostsWork s := by
  simp only [hostsWork, hostWork, ht]

theorem workerStep_work {c : WorkerAction} (h : workerStep th c = some th') : th'.pc.work < th.pc.work := by
  cases c with
  | status =>
      simp only [workerStep] at h
      split at h
      · rename_i r hpc
        cases h
        rw [hpc]
        exact Nat.lt_succ_self _
      · cases h
  | connect fd =>
      obtain ⟨hpc, h⟩ := Option.ite_none_right_eq_some.mp h
      cases h
      rw [hpc]
      cases fd <;> simp [WorkerPc.work]
  | decide =>
      obtain ⟨hpc, h⟩ := Option.ite_none_right_eq_some.mp h
      cases h
      rw [hpc]
      simp only
      split <;> simp [WorkerPc.work]
  | rcmd | update | work result =>
      obtain ⟨hpc, h⟩ := Option.ite_none_right_eq_some.mp h
      cases h
      rw [hpc]
      simp [WorkerPc.work]

theorem wake_work (pc : MainPc) : (wake pc).work ≤ pc.work + 1 := by
  cases pc <;> simp [wake, MainPc.work]

/-- Without a new cancellation and a wakeup without a signal, every step of the threads goes down. -/
theorem threads_work (hcancel : a ≠ .cancelLock) (hspurious : a ≠ .spurious) (hfresh : Fresh s.threads)
    (hstep : Stepped fanout s.threads a t') : work { s with threads := t' } < work s := by
  cases hstep with
  | wait hmutex hmain hi hfull =>
      simp only [work, hostsWork_congr, cancelLeft, hmain, MainPc.work]
      omega
  | loopEnd hmutex hmain hi =>
      simp only [work, hostsWork_congr, cancelLeft, hmain, MainPc.work]
      omega
  | start hmutex th hmain hth =>
      have hpc := hfresh _ th (skipCanceled_le _ _) hth
      have hhosts := hostsWork_set (d := 1) hth { th with pc := .created }
        { s.threads with
          t := s.threads.t.set (skipCanceled s.threads.t s.threads.i) { th with pc := .created }
          threadcount := s.threads.threadcount + 1
          i := skipCanceled s.threads.t s.threads.i + 1
          main := .loop } rfl (by rw [hpc]; exact Nat.le_refl _)
      have hfour : s.threads.main.work = 4 := by
        rcases hmain with ⟨hloop, -⟩ | hwoken
        · rw [hloop]
          rfl
        · rw [hwoken]
          rfl
      have hloop : MainPc.loop.work = 4 := rfl
      simp only [work, cancelLeft, List.length_set, hfour, hloop] at hhosts ⊢
      omega
  | none hmutex hmain hth =>
      have hfour : s.threads.main.work = 4 := by
        rcases hmain with hloop | hwoken
        · rw [hloop]
          rfl
        · rw [hwoken]
          rfl
      have hdrain : MainPc.drain.work = 2 := rfl
      simp only [work, hostsWork_congr, cancelLeft, hfour, hdrain]
      omega
  | drain hmutex hmain =>
      have hless : (if s.threads.threadcount > 0 then MainPc.drainWaiting else MainPc.finished).work < 2 := by
        split <;> simp [MainPc.work]
      have htwo : s.threads.main.work = 2 := by
        rw [hmain]
        rfl
      simp only [work, hostsWork_congr, cancelLeft, htwo]
      omega
  | spurious hmain => exact absurd rfl hspurious
  | worker k c th th' hth hw =>
      have hhosts := hostsWork_set (d := 1) hth th' { s.threads with t := s.threads.t.set k th' } rfl
        (workerStep_work hw)
      simp only [work, cancelLeft, List.length_set] at hhosts ⊢
      omega
  | finish hmutex k th hth hpc =>
      -- the signal may set the main thread back, by less than the worker goes on
      have hhosts := hostsWork_set (d := 3) hth { th with pc := .exited } (finishStep s.threads k th) rfl
        (by rw [hpc]; exact Nat.le_refl _)
      have hwake := wake_work s.threads.main
      simp only [work, finishStep, cancelLeft, List.length_set] at hhosts ⊢
      omega
  | cancelLock hmutex => exact absurd rfl hcancel
  | cancelUnlock k hc hth =>
      simp only [work, hostsWork_congr, cancelLeft, hc]
      omega
  | check k th hc hth =>
      have hk := (List.getElem?_eq_some_iff.mp hth).1
      simp only [work, hostsWork_congr, cancelLeft, hc]
      cases pending th
      · simp only [Bool.false_eq_true, if_false]
        omega
      · simp only [if_true]
        omega
  | mark k th hc hth =>
      -- marking takes nothing off a host, but the cancellation is one step further
      have hk := (List.getElem?_eq_some_iff.mp hth).1
      have hhosts := hostsWork_set (d := 0) hth { th with state := .canceled }
        { s.threads with
          t := s.threads.t.set k { th with state := .canceled }
          cancel := some (.check (k + 1)) } rfl (Nat.le_refl _)
      simp only [work, cancelLeft, hc, List.length_set] at hhosts ⊢
      omega

/-- A read or a flush of one stream. -/
theorem stream_work (hk : k < s.threads.t.length)
    (hothers : ∀ j v, ¬(j = k ∧ v = w) → out'.streams j v = s.out.streams j v)
    (hless : (out'.streams k w).work < (s.out.streams k w).work) : work { s with out := out' } < work s := by
  have hhosts : hostsWork { s with out := out' } + 1 ≤ hostsWork s := by
    apply hostsWork_one { s with out := out' } hk rfl
    · intro j hj
      simp only [hostWork, hothers j _ fun hsame => hj hsame.1]
    · cases w with
      | stdout =>
          simp only [hostWork, hothers k .stderr fun hsame => by cases hsame.2]
          omega
      | stderr =>
          simp only [hostWork, hothers k .stdout fun hsame => by cases hsame.2]
          omega
  simp only [work] at hhosts ⊢
  omega

theorem work_decreases (h : JobInv sopt cancels out₀ s) {b : JobAction} (hcancel : b ≠ .threads .cancelLock)
    (hspurious : b ≠ .threads .spurious) (hstep : jobStep fanout e sopt rv s b = some s') : work s' < work s := by
  cases jobStepped_of_step hstep with
  | threads a t' hmay hstepped =>
      exact threads_work (by simpa using hcancel) (by simpa using hspurious) h.accounted.fresh hstepped
  | output k w th out' hth hpc hout =>
      obtain ⟨hothers, hless⟩ := outputStep_output_work hout
      exact stream_work (List.getElem?_eq_some_iff.mp hth).1 hothers hless
  | flush k w th out' hth hpc horder hout =>
      exact stream_work (List.getElem?_eq_some_iff.mp hth).1 (outputStep_flush hout).2.2.1
        (outputStep_flush_work hout)
  | destroy k th hth hpc hflushed hnot =>
      have hhosts : hostsWork { s with out := setRc s.out k (rv k), destroyed := Function.update s.destroyed k true } +
          1 ≤ hostsWork s := by
        apply hostsWork_one { s with
          out := setRc s.out k (rv k)
          destroyed := Function.update s.destroyed k true } (List.getElem?_eq_some_iff.mp hth).1 rfl
        · intro j hj
          simp only [hostWork, setRc, Function.update_of_ne hj]
        · simp only [hostWork, setRc, Function.update_self, if_true, if_neg hnot]
          omega
      simp only [work] at hhosts ⊢
      omega

/-! ## No state is stuck -/

/-- The main thread waits only where a worker will wake it, and a cancellation looks at hosts of the
table. -/
structure Waits (fanout : Int32) (t : Threads) : Prop where
  waiting : t.main = .waiting → t.threadcount = fanout.toInt
  draining : t.main = .drainWaiting → 0 < t.threadcount
  marking : ∀ k, t.cancel = some (.mark k) → k < t.t.length

theorem wake_ne_drainWaiting (pc : MainPc) : wake pc ≠ .drainWaiting := by
  cases pc <;> simp [wake]

theorem Started.waits (h : Started t) : Waits fanout t where
  waiting := fun hmain => by simp [h.main] at hmain
  draining := fun hmain => by simp [h.main] at hmain
  marking := fun k hc => by simp [h.cancel] at hc

theorem Waits.step (h : Waits fanout t) (hstep : Stepped fanout t a t') : Waits fanout t' := by
  cases hstep with
  | wait hmutex hmain hi hfull => exact ⟨fun _ => hfull.symm, by simp, h.marking⟩
  | loopEnd hmutex hmain hi => exact ⟨by simp, by simp, h.marking⟩
  | start hmutex th hmain hth => exact ⟨by simp, by simp, by simpa using h.marking⟩
  | none hmutex hmain hth => exact ⟨by simp, by simp, h.marking⟩
  | drain hmutex hmain =>
      refine ⟨?_, ?_, h.marking⟩
      · intro hwaiting
        simp only at hwaiting
        split at hwaiting <;> cases hwaiting
      · intro hdraining
        simp only at hdraining
        split at hdraining
        · assumption
        · cases hdraining
  | spurious hmain =>
      exact ⟨fun hw => absurd hw (wake_ne_waiting _), fun hw => absurd hw (wake_ne_drainWaiting _), h.marking⟩
  | worker k c th th' hth hw => exact ⟨h.waiting, h.draining, by simpa using h.marking⟩
  | finish hmutex k th hth hpc =>
      exact ⟨fun hw => absurd hw (wake_ne_waiting _), fun hw => absurd hw (wake_ne_drainWaiting _),
        by simpa [finishStep] using h.marking⟩
  | cancelLock hmutex => exact ⟨h.waiting, h.draining, by simp⟩
  | cancelUnlock k hcancel hth => exact ⟨h.waiting, h.draining, by simp⟩
  | check k th hcancel hth =>
      refine ⟨h.waiting, h.draining, ?_⟩
      intro j hj
      simp only [Option.some.injEq] at hj
      split at hj
      · cases hj
        exact (List.getElem?_eq_some_iff.mp hth).1
      · cases hj
  | mark k th hcancel hth => exact ⟨h.waiting, h.draining, by simp⟩

theorem Waits.job (h : Waits fanout s.threads) {b : JobAction} (hstep : jobStep fanout e sopt rv s b = some s') :
    Waits fanout s'.threads := by
  cases jobStepped_of_step hstep with
  | threads a t' hmay hstepped => exact h.step hstepped
  | output | flush | destroy => exact h

/-- A step that is neither ^Z nor a wakeup without a signal; `fails` says that a poll may fail. -/
def Continues (fanout : Int32) (e : ErrState) (sopt : Bool) (rv : Nat → Int) (fails : Bool) (s s' : Job) : Prop :=
  ∃ b, b ≠ .threads .cancelLock ∧ b ≠ .threads .spurious ∧
    (∀ k, b = .threads (.worker k (.work false)) → fails = true) ∧ jobStep fanout e sopt rv s b = some s'

theorem continues_threads (hcancel : a ≠ .cancelLock) (hspurious : a ≠ .spurious)
    (hpoll : ∀ k, a ≠ .worker k (.work false)) (hmay : mayStep sopt s a = true)
    (hstep : step fanout s.threads a = some t') : ∃ s', Continues fanout e sopt rv fails s s' := by
  refine ⟨{ s with threads := t' }, .threads a, ?_, ?_, ?_, ?_⟩
  · simpa using hcancel
  · simpa using hspurious
  · intro k hk
    cases hk
    exact absurd rfl (hpoll k)
  · rw [jobStep, if_pos hmay, hstep]
    rfl

/-- A worker has its next step. -/
theorem continues_worker {c : WorkerAction} (hth : s.threads.t[k]? = some th) (hpoll : c ≠ .work false)
    (hmay : mayStep sopt s (.worker k c) = true) (hw : workerStep th c = some th') :
    ∃ s', Continues fanout e sopt rv fails s s' := by
  apply continues_threads (a := .worker k c) (by simp) (by simp) _ hmay
  · show (do
      let th ← s.threads.t[k]?
      let th ← workerStep th c
      pure { s.threads with t := s.threads.t.set k th }) = _
    rw [hth]
    show (workerStep th c).bind _ = _
    rw [hw]
    rfl
  · intro j hj
    cases hj
    exact hpoll rfl

theorem continues_flush (h : JobInv sopt cancels out₀ s) (hth : s.threads.t[k]? = some th)
    (hpc : th.pc = .finishing) (hunflushed : (s.out.streams k w).flushed = false)
    (horder : w = .stderr → (s.out.streams k .stdout).flushed = true) :
    ∃ s', Continues fanout e sopt rv fails s s' := by
  have hk : k < s.out.t.length := by
    rw [h.length]
    exact (List.getElem?_eq_some_iff.mp hth).1
  obtain ⟨out', hout⟩ := outputStep_flush_enabled e hk hunflushed
  refine ⟨{ s with out := out' }, .flush k w, by simp, by simp, by simp, ?_⟩
  rw [jobStep, if_pos ⟨Job.at_iff.mpr ⟨th, hth, hpc⟩, horder⟩, hout]
  rfl

theorem continues_output (h : JobInv sopt cancels out₀ s) (hth : s.threads.t[k]? = some th)
    (hpc : th.pc = .running) (hopen : (s.out.streams k w).closed = false) (hsopt : w = .stderr → sopt = true) :
    ∃ s', Continues fanout e sopt rv fails s s' := by
  have hk : k < s.out.t.length := by
    rw [h.length]
    exact (List.getElem?_eq_some_iff.mp hth).1
  have hunflushed := (h.host k th hth).unflushed (by simp [hpc]) (by simp [hpc]) w
  obtain ⟨out', hout⟩ := outputStep_output_enabled e hk hopen hunflushed
  refine ⟨{ s with out := out' }, .output k w, by simp, by simp, by simp, ?_⟩
  rw [jobStep, if_pos ⟨Job.at_iff.mpr ⟨th, hth, hpc⟩, hsopt⟩, hout]
  rfl

/-- A worker that is there goes on, while no cancellation has the mutex. -/
theorem live_continues (h : JobInv sopt cancels out₀ s) (hcancel : s.threads.cancel = none)
    (hth : s.threads.t[k]? = some th) (hlive : live th = true) :
    ∃ s', Continues fanout e sopt rv fails s s' := by
  cases hpc : th.pc with
  | absent => simp [live, hpc] at hlive
  | exited => simp [live, hpc] at hlive
  | created => exact continues_worker (c := .rcmd) hth (by simp) rfl (by rw [workerStep, if_pos hpc])
  | connecting => exact continues_worker (c := .connect true) hth (by simp) rfl (by rw [workerStep, if_pos hpc])
  | connected => exact continues_worker (c := .update) hth (by simp) rfl (by rw [workerStep, if_pos hpc])
  | updated => exact continues_worker (c := .decide) hth (by simp) rfl (by rw [workerStep, if_pos hpc])
  | result r => exact continues_worker (c := .status) hth (by simp) rfl (by simp only [workerStep, hpc]; rfl)
  | running =>
      cases hstdout : (s.out.streams k .stdout).closed with
      | false => exact continues_output (w := .stdout) h hth hpc hstdout fun hw => by cases hw
      | true =>
          by_cases hstderr : sopt = true ∧ (s.out.streams k .stderr).closed = false
          · exact continues_output (w := .stderr) h hth hpc hstderr.2 fun _ => hstderr.1
          · have hread : readOut sopt s.out k = true := by
              unfold readOut
              rw [hstdout]
              cases sopt <;> simp at hstderr ⊢
              exact hstderr
            exact continues_worker (c := .work true) hth (by simp) hread (by rw [workerStep, if_pos hpc])
  | finishing =>
      cases hstdout : (s.out.streams k .stdout).flushed with
      | false => exact continues_flush (w := .stdout) h hth hpc hstdout fun hw => by cases hw
      | true =>
          cases hstderr : (s.out.streams k .stderr).flushed with
          | false => exact continues_flush (w := .stderr) h hth hpc hstderr fun _ => hstdout
          | true =>
              -- both streams are flushed: `rcmd_destroy`, and then the last step
              cases hdestroyed : s.destroyed k with
              | false =>
                  refine ⟨{ s with out := setRc s.out k (rv k), destroyed := Function.update s.destroyed k true },
                    .destroy k, by simp, by simp, by simp, ?_⟩
                  exact if_pos ⟨Job.at_iff.mpr ⟨th, hth, hpc⟩, hstderr, by simp [hdestroyed]⟩
              | true =>
                  apply continues_threads (a := .finish k) (by simp) (by simp) (by simp) hdestroyed
                  show (s.threads.t[k]?.bind fun th => if s.threads.cancel = none ∧ th.pc = WorkerPc.finishing then
                    some (finishStep s.threads k th) else none) = _
                  rw [hth]
                  exact if_pos ⟨hcancel, hpc⟩

/-- Where the count is not 0 a worker is there. -/
theorem Accounted.exists_live (h : Accounted t) (hpos : t.threadcount ≠ 0) :
    ∃ (k : Nat) (th : Thd), t.t[k]? = some th ∧ live th = true := by
  have hcount : 0 < t.t.countP live := by
    have hsame := h.count
    omega
  obtain ⟨th, hmem, hlive⟩ := List.countP_pos_iff.mp hcount
  obtain ⟨k, hk⟩ := List.getElem?_of_mem hmem
  exact ⟨k, th, hk, hlive⟩

/-- A cancellation goes on by itself. -/
theorem cancel_continues (h : Waits fanout s.threads) (hcancel : s.threads.cancel ≠ none) :
    ∃ s', Continues fanout e sopt rv fails s s' := by
  obtain ⟨pc, hpc⟩ := Option.ne_none_iff_exists'.mp hcancel
  have hstep : ∃ t', step fanout s.threads .cancelStep = some t' := by
    show ∃ t', s.threads.cancel.bind (cancelStep s.threads) = some t'
    rw [hpc]
    show ∃ t', cancelStep s.threads pc = some t'
    cases pc with
    | check i =>
        simp only [cancelStep]
        split <;> exact ⟨_, rfl⟩
    | mark i =>
        rw [cancelStep, List.getElem?_eq_getElem (h.marking i hpc)]
        exact ⟨_, rfl⟩
  obtain ⟨t', ht'⟩ := hstep
  exact continues_threads (a := .cancelStep) (by simp) (by simp) (by simp) rfl ht'

theorem job_progresses (hfanout : fanout.toInt ≠ 0) (h : JobInv sopt cancels out₀ s)
    (hwaits : Waits fanout s.threads) :
    s.threads.main = .finished ∨ ∃ s', Continues fanout e sopt rv fails s s' := by
  by_cases hcancel : s.threads.cancel = none
  · have hmain : (∃ t', mainStep fanout s.threads = some t') → ∃ s', Continues fanout e sopt rv fails s s' := by
      rintro ⟨t', ht'⟩
      exact continues_threads (a := .mainLock) (by simp) (by simp) (by simp) rfl ((if_pos hcancel).trans ht')
    -- while the main thread waits, the count says that a worker is there
    have hworker : s.threads.threadcount ≠ 0 → ∃ s', Continues fanout e sopt rv fails s s' := by
      intro hpos
      obtain ⟨k, th, hth, hlive⟩ := h.accounted.exists_live hpos
      exact live_continues h hcancel hth hlive
    cases hpc : s.threads.main with
    | finished => exact .inl rfl
    | waiting => exact .inr (hworker (by rw [hwaits.waiting hpc]; exact hfanout))
    | drainWaiting => exact .inr (hworker (hwaits.draining hpc).ne')
    | loop =>
        right
        apply hmain
        simp only [mainStep, hpc]
        split
        · split <;> exact ⟨_, rfl⟩
        · exact ⟨_, rfl⟩
    | woken =>
        right
        apply hmain
        simp only [mainStep, hpc]
        exact ⟨_, rfl⟩
    | drain =>
        right
        apply hmain
        simp only [mainStep, hpc]
        exact ⟨_, rfl⟩
  · exact .inr (cancel_continues hwaits hcancel)

/-! ## Every schedule -/

/-- With a fanout other than 0, `dsh` ends: from every state of every run, when no cancellation and
no wakeup without a signal comes any more, every schedule ends the main loop, with all workers gone. -/
theorem dsh_ends (hfanout : fanout.toInt ≠ 0) (hstart : s₀.Start)
    (hflushed : ∀ k w, k < s₀.out.t.length → (s₀.out.streams k w).flushed = false)
    (run : Steps (jobStep fanout e sopt rv) anyStep s₀ s) (fails : Bool) :
    Inevitable (Continues fanout e sopt rv fails)
      (fun s => s.threads.main = .finished ∧
        ∀ th ∈ s.threads.t, th.pc = .exited ∨ th.pc = .absent ∧ th.state = .canceled) s := by
  let I : Job → Prop := fun s => JobInv sopt true s₀.out s ∧ Waits fanout s.threads
  have hkeep : ∀ s b s', I s → jobStep fanout e sopt rv s b = some s' → I s' := by
    rintro s b s' ⟨hinv, hwaits⟩ hstep
    exact ⟨hinv.step (fun _ => rfl) hstep, hwaits.job hstep⟩
  have hinit : I s₀ := ⟨hstart.inv hflushed (by simp), hstart.threads.waits⟩
  have hs : I s := run.invariant hinit fun s b s' h _ hstep => hkeep s b s' h hstep
  apply Inevitable.of_wf (I := I) (measure work).wf _ _ hs
  · rintro s ⟨hinv, hwaits⟩
    rcases job_progresses hfanout hinv hwaits with hmain | hsome
    · left
      refine ⟨hmain, fun th hmem => ?_⟩
      obtain ⟨k, hk⟩ := List.getElem?_of_mem hmem
      exact hinv.accounted.all_ended hmain hk
    · exact .inr hsome
  · rintro s s' ⟨hinv, hwaits⟩ hstep
    obtain ⟨b, hcancel, hspurious, -, hjob⟩ := hstep
    exact ⟨hkeep s b s' ⟨hinv, hwaits⟩ hjob, work_decreases hinv hcancel hspurious hjob⟩

/-- One host, before it is started. -/
theorem dsh_ends_one : ∃ cb, Cbuf.create true true (fun _ => '\x00') 64 131072 = .ok cb ∧
    Inevitable (Continues 1 ⟨[], [], false, []⟩ false (fun _ => 0) false)
      (fun s => s.threads.main = .finished ∧
        ∀ th ∈ s.threads.t, th.pc = .exited ∨ th.pc = .absent ∧ th.state = .canceled)
      (oneHostJob cb [.bytes "x\n".toList]) := by
  refine ⟨_, rfl, ?_⟩
  exact dsh_ends (by decide) (oneHostJob_start _ _) (fun _ _ _ => rfl) .refl false

end Pdsh.Dsh
