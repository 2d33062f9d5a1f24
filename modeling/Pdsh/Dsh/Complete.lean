import Pdsh.Dsh.Job
import Pdsh.Dsh.ReturnCode

/-!
# What a whole run of `dsh` prints and returns

When the main thread of `dsh` is done, every worker has flushed both streams of its host: all that
was read has been printed, whatever the order of the threads was (`dsh_output_complete`). A host
that ended as `DSH_DONE` was read to the end of its streams, unless a cancellation came before the
first read. Where nothing is canceled and all hosts end so, `dsh -S` returns the largest of
their return codes (`dsh_returns_largest`).
-/

namespace Pdsh.Dsh

open Lib Lib.Lines Lib.Transition

variable {fanout : Int32} {e : ErrState} {sopt cancels : Bool} {rv : Nat → Int} {s₀ s s' : Job}
  {out₀ out out' : OutputState} {k : Nat} {w : Which} {th th' : Thd} {a : Action}

/-! ## The workers beside their streams -/

/-- Before the loop over the descriptors. -/
def WorkerPc.early : WorkerPc → Bool
  | .absent | .created | .connecting | .connected | .updated => true
  | _ => false

/-- Nothing was read for the host. -/
def Untouched (out₀ out : OutputState) (k : Nat) : Prop :=
  ∀ w, (out.streams k w).reads = (out₀.streams k w).reads

/-- The host was read to the end, or canceled before. -/
def Over (sopt cancels : Bool) (out₀ out : OutputState) (k : Nat) : Prop :=
  readOut sopt out k = true ∨ cancels = true ∧ Untouched out₀ out k

/-- How far the streams of a host are when its worker is at `th`. -/
structure HostOk (sopt cancels : Bool) (out₀ : OutputState) (s : Job) (k : Nat) (th : Thd) : Prop where
  untouched : th.pc.early = true → Untouched out₀ s.out k
  unflushed : th.pc ≠ .finishing → th.pc ≠ .exited → ∀ w, (s.out.streams k w).flushed = false
  result : ∀ r, th.pc = .result r → r ≠ .canceled ∧ (r = .done → Over sopt cancels out₀ s.out k)
  done : th.state = .done → (th.pc = .finishing ∨ th.pc = .exited) ∧ Over sopt cancels out₀ s.out k
  exited : th.pc = .exited → s.destroyed k = true
  order : (s.out.streams k .stderr).flushed = true → (s.out.streams k .stdout).flushed = true
  destroyed : s.destroyed k = true → ∀ w, (s.out.streams k w).flushed = true
  uncanceled : cancels = false → th.state ≠ .canceled

structure JobInv (sopt cancels : Bool) (out₀ : OutputState) (s : Job) : Prop where
  accounted : Accounted s.threads
  length : s.out.t.length = s.threads.t.length
  host : ∀ (k : Nat) (th : Thd), s.threads.t[k]? = some th → HostOk sopt cancels out₀ s k th
  uncanceled : cancels = false → s.threads.cancel = none

/-- Whether a cancellation may come. -/
def CancelsIf (cancels : Bool) (_ : Job) (a : JobAction) : Prop :=
  a = .threads .cancelLock → cancels = true

/-- A run begins: where no cancellation comes, no host is canceled yet. -/
theorem Job.Start.inv (h : s.Start) (hflushed : ∀ k w, k < s.out.t.length → (s.out.streams k w).flushed = false)
    (hcancels : cancels = false → ∀ th ∈ s.threads.t, th.state ≠ .canceled) :
    JobInv sopt cancels s.out s where
  accounted := h.threads.accounted
  length := h.length
  host := fun k th hth => by
    obtain ⟨hstate, hpc, -⟩ := h.threads.fresh th (List.mem_of_getElem? hth)
    have hlt := (List.getElem?_eq_some_iff.mp hth).1
    rw [← h.length] at hlt
    refine ⟨fun _ _ => rfl, fun _ _ w => hflushed k w hlt, ?_, ?_, ?_, ?_, ?_, ?_⟩
    · intro r hr
      rw [hpc] at hr
      cases hr
    · intro hdone
      rcases hstate with hnew | hcanceled
      · rw [hnew] at hdone
        cases hdone
      · rw [hcanceled] at hdone
        cases hdone
    · intro hexited
      rw [hpc] at hexited
      cases hexited
    · intro hf
      rw [hflushed k .stderr hlt] at hf
      cases hf
    · intro hd
      rw [h.destroyed k] at hd
      cases hd
    · intro hc
      exact hcancels hc th (List.mem_of_getElem? hth)
  uncanceled := fun _ => h.threads.cancel

/-! ## A step of the threads -/

/-- What a step of the threads does to the entry of one host. -/
inductive EntryStep (s : Threads) (a : Action) (k : Nat) (th : Thd) : Thd → Prop where
  | same : EntryStep s a k th th
  | start (hpc : th.pc = .absent) : EntryStep s a k th { th with pc := .created }
  | worker (c : WorkerAction) {th' : Thd} (ha : a = .worker k c) (hw : workerStep th c = some th') :
      EntryStep s a k th th'
  | finish (ha : a = .finish k) (hpc : th.pc = .finishing) : EntryStep s a k th { th with pc := .exited }
  | mark (hcancel : s.cancel ≠ none) : EntryStep s a k th { th with state := .canceled }

theorem Accounted.entry {t t' : Threads} (h : Accounted t) (hstep : Stepped fanout t a t')
    (hth : t'.t[k]? = some th') : ∃ th, t.t[k]? = some th ∧ EntryStep t a k th th' := by
  cases hstep with
  | start hmutex th hmain hx =>
      rcases getElem?_set_cases hth with ⟨rfl, rfl⟩ | ⟨-, hold⟩
      · exact ⟨th, hx, .start (h.fresh _ th (skipCanceled_le _ _) hx)⟩
      · exact ⟨th', hold, .same⟩
  | worker j c th x hx hw =>
      rcases getElem?_set_cases hth with ⟨rfl, rfl⟩ | ⟨-, hold⟩
      · exact ⟨th, hx, .worker c rfl hw⟩
      · exact ⟨th', hold, .same⟩
  | finish hmutex j th hx hpc =>
      rcases getElem?_set_cases hth with ⟨rfl, rfl⟩ | ⟨-, hold⟩
      · exact ⟨th, hx, .finish rfl hpc⟩
      · exact ⟨th', hold, .same⟩
  | mark j th hcancel hx =>
      rcases getElem?_set_cases hth with ⟨rfl, rfl⟩ | ⟨-, hold⟩
      · exact ⟨th, hx, .mark (by rw [hcancel]; simp)⟩
      · exact ⟨th', hold, .same⟩
  | _ => exact ⟨th', hth, .same⟩

/-- The worker has not set its last state yet. -/
def WorkerPc.before : WorkerPc → Prop
  | .finishing | .exited => False
  | _ => True

theorem HostOk.not_done (h : HostOk sopt cancels out₀ s k th) (hpc : th.pc.before) : th.state ≠ .done := by
  intro hdone
  rcases (h.done hdone).1 with hfin | hexited
  · rw [hfin] at hpc
    exact hpc
  · rw [hexited] at hpc
    exact hpc

/-- A worker goes on without a last state. -/
theorem HostOk.advance (h : HostOk sopt cancels out₀ s k th) (hpc : th.pc.before) (hpc' : th'.pc.before)
    (huntouched : th'.pc.early = true → Untouched out₀ s.out k)
    (hresult : ∀ r, th'.pc = .result r → r ≠ .canceled ∧ (r = .done → Over sopt cancels out₀ s.out k))
    (hdone : th'.state ≠ .done) (hcanceled : cancels = false → th'.state ≠ .canceled) {threads : Threads} :
    HostOk sopt cancels out₀ { s with threads := threads } k th' where
  untouched := huntouched
  unflushed := fun _ _ => h.unflushed (fun hc => by rw [hc] at hpc; exact hpc) (fun hc => by rw [hc] at hpc; exact hpc)
  result := hresult
  done := fun hd => absurd hd hdone
  exited := fun hc => by
    rw [hc] at hpc'
    exact hpc'.elim
  order := h.order
  destroyed := h.destroyed
  uncanceled := hcanceled

/-- A worker takes a step, having done what comes before it. -/
theorem HostOk.worker (h : HostOk sopt cancels out₀ s k th) {c : WorkerAction}
    (hmay : mayStep sopt s (.worker k c) = true) (hw : workerStep th c = some th') {threads : Threads} :
    HostOk sopt cancels out₀ { s with threads := threads } k th' := by
  cases c with
  | status =>
      simp only [workerStep] at hw
      split at hw
      · rename_i r hpc
        cases hw
        obtain ⟨hr, hover⟩ := h.result r hpc
        exact ⟨fun hc => (by cases hc), fun hc => absurd rfl hc, fun _ hc => (by cases hc),
          fun hdone => ⟨.inl rfl, hover hdone⟩, fun hc => (by cases hc), h.order, h.destroyed, fun _ => hr⟩
      · cases hw
  | rcmd =>
      obtain ⟨hpc, hw⟩ := Option.ite_none_right_eq_some.mp hw
      cases hw
      refine h.advance (by rw [hpc]; trivial) ?_ ?_ ?_ ?_ ?_
      · trivial
      · exact fun _ => h.untouched (by rw [hpc]; rfl)
      · exact fun r hr => by cases hr
      · simp
      · simp
  | connect fd =>
      obtain ⟨hpc, hw⟩ := Option.ite_none_right_eq_some.mp hw
      cases hw
      have hbefore : th.pc.before := by
        rw [hpc]
        trivial
      refine h.advance hbefore ?_ ?_ ?_ ?_ ?_
      · cases fd <;> trivial
      · exact fun _ => h.untouched (by rw [hpc]; rfl)
      · intro r hr
        cases fd with
        | true => cases hr
        | false =>
            cases hr
            exact ⟨by simp, fun hc => by cases hc⟩
      · exact h.not_done hbefore
      · exact h.uncanceled
  | update =>
      obtain ⟨hpc, hw⟩ := Option.ite_none_right_eq_some.mp hw
      cases hw
      refine h.advance (by rw [hpc]; trivial) ?_ ?_ ?_ ?_ ?_
      · trivial
      · exact fun _ => h.untouched (by rw [hpc]; rfl)
      · exact fun r hr => by cases hr
      · simp only
        split <;> simp
      · intro hc
        simp [h.uncanceled hc]
  | decide =>
      obtain ⟨hpc, hw⟩ := Option.ite_none_right_eq_some.mp hw
      cases hw
      have hbefore : th.pc.before := by
        rw [hpc]
        trivial
      have huntouched := h.untouched (by rw [hpc]; rfl)
      refine h.advance hbefore ?_ ?_ ?_ ?_ ?_
      · simp only
        split <;> trivial
      · exact fun _ => huntouched
      · intro r hr
        by_cases hcanceled : th.state = .canceled
        · -- a cancellation came, since the host is canceled
          simp only [if_pos hcanceled] at hr
          cases hr
          refine ⟨by simp, fun _ => .inr ⟨?_, huntouched⟩⟩
          cases hc : cancels with
          | true => rfl
          | false => exact absurd hcanceled (h.uncanceled hc)
        · simp only [if_neg hcanceled] at hr
          cases hr
      · exact h.not_done hbefore
      · exact h.uncanceled
  | work result =>
      obtain ⟨hpc, hw⟩ := Option.ite_none_right_eq_some.mp hw
      cases hw
      have hbefore : th.pc.before := by
        rw [hpc]
        trivial
      refine h.advance hbefore ?_ ?_ ?_ ?_ ?_
      · trivial
      · exact fun hc => by cases hc
      · intro r hr
        cases result with
        | true =>
            cases hr
            exact ⟨by simp, fun _ => .inl hmay⟩
        | false =>
            cases hr
            exact ⟨by simp, fun hc => by cases hc⟩
      · exact h.not_done hbefore
      · exact h.uncanceled

/-- A step of the threads, seen from one host. -/
theorem HostOk.entry (h : HostOk sopt cancels out₀ s k th) (hmay : mayStep sopt s a = true)
    (hcancel : cancels = false → s.threads.cancel = none) (hentry : EntryStep s.threads a k th th')
    {threads : Threads} : HostOk sopt cancels out₀ { s with threads := threads } k th' := by
  cases hentry with
  | same => exact ⟨h.untouched, h.unflushed, h.result, h.done, h.exited, h.order, h.destroyed, h.uncanceled⟩
  | start hpc =>
      have hbefore : th.pc.before := by
        rw [hpc]
        trivial
      refine h.advance hbefore ?_ ?_ ?_ ?_ ?_
      · trivial
      · exact fun _ => h.untouched (by rw [hpc]; rfl)
      · exact fun r hr => by cases hr
      · exact h.not_done hbefore
      · exact h.uncanceled
  | worker c ha hw =>
      subst ha
      exact h.worker hmay hw
  | finish ha hpc =>
      subst ha
      exact ⟨fun hc => (by cases hc), fun _ hc => absurd rfl hc, fun _ hc => (by cases hc),
        fun hdone => ⟨.inr rfl, (h.done hdone).2⟩, fun _ => hmay, h.order, h.destroyed, h.uncanceled⟩
  | mark hmarking =>
      refine ⟨h.untouched, h.unflushed, h.result, fun hc => (by cases hc), h.exited, h.order, h.destroyed, ?_⟩
      exact fun hc => absurd (hcancel hc) hmarking

/-! ## A step of the output -/

/-- What reading a stream leaves of the others. -/
theorem outputStep_output (hstep : outputStep e out (.output k w) = some out') :
    out'.t.length = out.t.length ∧ (∀ j v, (out'.streams j v).flushed = (out.streams j v).flushed) ∧
      ∀ j v, j ≠ k → out'.streams j v = out.streams j v := by
  unfold outputStep at hstep
  simp only at hstep
  split at hstep
  · cases hstep
  · split at hstep
    · cases hstep
    · cases hstep
      refine ⟨List.length_set, ?_, ?_⟩
      · intro j v
        show (if j = k ∧ v = w then _ else _ : Stream).flushed = _
        split
        · rename_i hsame
          rw [hsame.1, hsame.2]
        · rfl
      · intro j v hj
        exact if_neg fun hsame => hj hsame.1

theorem Job.at_iff {pc : WorkerPc} : s.at k pc = true ↔ ∃ th, s.threads.t[k]? = some th ∧ th.pc = pc := by
  unfold Job.at
  cases s.threads.t[k]? <;> simp

/-- What a step of the job does. -/
inductive JobStepped (fanout : Int32) (e : ErrState) (sopt : Bool) (rv : Nat → Int) (s : Job) :
    JobAction → Job → Prop where
  | threads (a : Action) (t' : Threads) (hmay : mayStep sopt s a = true) (ht : Stepped fanout s.threads a t') :
      JobStepped fanout e sopt rv s (.threads a) { s with threads := t' }
  /-- only a worker that runs reads -/
  | output (k : Nat) (w : Which) (th : Thd) (out' : OutputState) (hth : s.threads.t[k]? = some th)
      (hpc : th.pc = .running) (hout : outputStep e s.out (.output k w) = some out') :
      JobStepped fanout e sopt rv s (.output k w) { s with out := out' }
  /-- standard error is flushed behind standard output -/
  | flush (k : Nat) (w : Which) (th : Thd) (out' : OutputState) (hth : s.threads.t[k]? = some th)
      (hpc : th.pc = .finishing) (horder : w = .stderr → (s.out.streams k .stdout).flushed = true)
      (hout : outputStep e s.out (.flush k w) = some out') :
      JobStepped fanout e sopt rv s (.flush k w) { s with out := out' }
  /-- once for each host, behind the flushes -/
  | destroy (k : Nat) (th : Thd) (hth : s.threads.t[k]? = some th) (hpc : th.pc = .finishing)
      (hflushed : (s.out.streams k .stderr).flushed = true) (hnot : ¬s.destroyed k = true) :
      JobStepped fanout e sopt rv s (.destroy k)
        { s with out := setRc s.out k (rv k), destroyed := Function.update s.destroyed k true }

theorem jobStepped_of_step {b : JobAction} (hstep : jobStep fanout e sopt rv s b = some s') :
    JobStepped fanout e sopt rv s b s' := by
  cases b with
  | threads a =>
      obtain ⟨hmay, hstep⟩ := Option.ite_none_right_eq_some.mp hstep
      obtain ⟨t', ht', hs'⟩ := Option.map_eq_some_iff.mp hstep
      cases hs'
      exact .threads a t' hmay (stepped_of_step ht')
  | output k w =>
      obtain ⟨⟨hat, -⟩, hstep⟩ := Option.ite_none_right_eq_some.mp hstep
      obtain ⟨out', hout, hs'⟩ := Option.map_eq_some_iff.mp hstep
      cases hs'
      obtain ⟨th, hth, hpc⟩ := Job.at_iff.mp hat
      exact .output k w th out' hth hpc hout
  | flush k w =>
      obtain ⟨⟨hat, horder⟩, hstep⟩ := Option.ite_none_right_eq_some.mp hstep
      obtain ⟨out', hout, hs'⟩ := Option.map_eq_some_iff.mp hstep
      cases hs'
      obtain ⟨th, hth, hpc⟩ := Job.at_iff.mp hat
      exact .flush k w th out' hth hpc horder hout
  | destroy k =>
      obtain ⟨⟨hat, hflushed, hnot⟩, hstep⟩ := Option.ite_none_right_eq_some.mp hstep
      cases hstep
      obtain ⟨th, hth, hpc⟩ := Job.at_iff.mp hat
      exact .destroy k th hth hpc hflushed hnot

/-- The streams of the host are as they were. -/
theorem HostOk.congr (h : HostOk sopt cancels out₀ s k th) {destroyed : Nat → Bool}
    (hstreams : ∀ w, out'.streams k w = s.out.streams k w) (hdestroyed : destroyed k = s.destroyed k) :
    HostOk sopt cancels out₀ { s with out := out', destroyed := destroyed } k th := by
  have huntouched : Untouched out₀ s.out k → Untouched out₀ out' k := by
    intro hold v
    rw [hstreams v]
    exact hold v
  have hover : Over sopt cancels out₀ s.out k → Over sopt cancels out₀ out' k := by
    rintro (hread | ⟨hc, hold⟩)
    · left
      unfold readOut at hread ⊢
      rw [hstreams, hstreams]
      exact hread
    · exact .inr ⟨hc, huntouched hold⟩
  refine ⟨fun hc => huntouched (h.untouched hc), ?_, fun r hr => ⟨(h.result r hr).1, fun hd => hover ((h.result r hr).2 hd)⟩,
    fun hd => ⟨(h.done hd).1, hover (h.done hd).2⟩, ?_, ?_, ?_, h.uncanceled⟩
  · intro hfin hexited v
    show (out'.streams k v).flushed = false
    rw [hstreams v]
    exact h.unflushed hfin hexited v
  · intro hexited
    exact hdestroyed.trans (h.exited hexited)
  · show (out'.streams k .stderr).flushed = true → (out'.streams k .stdout).flushed = true
    rw [hstreams, hstreams]
    exact h.order
  · show destroyed k = true → ∀ v, (out'.streams k v).flushed = true
    rw [hdestroyed]
    intro hd v
    rw [hstreams v]
    exact h.destroyed hd v

/-- The worker of the host reads. -/
theorem HostOk.output (h : HostOk sopt cancels out₀ s k th) (hpc : th.pc = .running)
    (hflushed : ∀ v, (out'.streams k v).flushed = (s.out.streams k v).flushed) :
    HostOk sopt cancels out₀ { s with out := out' } k th := by
  have hunflushed := h.unflushed (by simp [hpc]) (by simp [hpc])
  refine ⟨?_, ?_, ?_, ?_, ?_, ?_, ?_, h.uncanceled⟩
  · rw [hpc]
    exact fun hc => by cases hc
  · intro _ _ v
    exact (hflushed v).trans (hunflushed v)
  · rw [hpc]
    exact fun r hr => by cases hr
  · exact fun hd => absurd hd (h.not_done (by rw [hpc]; trivial))
  · rw [hpc]
    exact fun hc => by cases hc
  · intro hc
    have hflush := (hflushed .stderr).symm.trans hc
    rw [hunflushed .stderr] at hflush
    cases hflush
  · intro hd
    have hflush := h.destroyed hd .stdout
    rw [hunflushed .stdout] at hflush
    cases hflush

/-- The worker of the host flushes a stream. -/
theorem HostOk.flush (h : HostOk sopt cancels out₀ s k th) (hpc : th.pc = .finishing)
    (hkept : ∀ v, (out'.streams k v).reads = (s.out.streams k v).reads ∧
      (out'.streams k v).closed = (s.out.streams k v).closed)
    (hmono : ∀ v, (s.out.streams k v).flushed = true → (out'.streams k v).flushed = true)
    (horder : (out'.streams k .stdout).flushed = true) :
    HostOk sopt cancels out₀ { s with out := out' } k th := by
  refine ⟨?_, ?_, ?_, ?_, ?_, fun _ => horder, fun hd v => hmono v (h.destroyed hd v), h.uncanceled⟩
  · rw [hpc]
    exact fun hc => by cases hc
  · exact fun hc => absurd hpc hc
  · rw [hpc]
    exact fun r hr => by cases hr
  · intro hd
    obtain ⟨hat, hover⟩ := h.done hd
    refine ⟨hat, ?_⟩
    rcases hover with hread | ⟨hc, hold⟩
    · left
      show readOut sopt out' k = true
      unfold readOut at hread ⊢
      rw [(hkept _).2, (hkept _).2]
      exact hread
    · exact .inr ⟨hc, fun v => (hkept v).1.trans (hold v)⟩
  · rw [hpc]
    exact fun hc => by cases hc

/-! ## Every run -/

/-- A step of one host leaves the others as they are. -/
theorem JobInv.replace (h : JobInv sopt cancels out₀ s) {destroyed : Nat → Bool}
    (hlength : out'.t.length = s.out.t.length)
    (hothers : ∀ j v, j ≠ k → out'.streams j v = s.out.streams j v)
    (hdestroyed : ∀ j, j ≠ k → destroyed j = s.destroyed j)
    (hhost : ∀ th, s.threads.t[k]? = some th →
      HostOk sopt cancels out₀ { s with out := out', destroyed := destroyed } k th) :
    JobInv sopt cancels out₀ { s with out := out', destroyed := destroyed } where
  accounted := h.accounted
  length := hlength.trans h.length
  host := fun j th hth => by
    by_cases hj : j = k
    · subst hj
      exact hhost th hth
    · exact (h.host j th hth).congr (fun v => hothers j v hj) (hdestroyed j hj)
  uncanceled := h.uncanceled

theorem JobInv.step (h : JobInv sopt cancels out₀ s) {b : JobAction} (hok : CancelsIf cancels s b)
    (hstep : jobStep fanout e sopt rv s b = some s') : JobInv sopt cancels out₀ s' := by
  cases jobStepped_of_step hstep with
  | threads a t' hmay hstepped =>
      refine ⟨h.accounted.step hstepped, h.length.trans hstepped.length.symm, ?_, ?_⟩
      · intro k th' hth'
        obtain ⟨th, hth, hentry⟩ := h.accounted.entry hstepped hth'
        exact (h.host k th hth).entry hmay h.uncanceled hentry
      · -- without a cancellation none begins, and so none goes on
        intro hc
        have hnone := h.uncanceled hc
        cases hstepped with
        | cancelLock =>
            rw [hok rfl] at hc
            cases hc
        | check k th hcancel => rw [hnone] at hcancel; cases hcancel
        | mark k th hcancel => rw [hnone] at hcancel; cases hcancel
        | cancelUnlock => rfl
        | _ => exact hnone
  | output k w th out' hth hpc hout =>
      obtain ⟨hlength, hflushed, hothers⟩ := outputStep_output hout
      apply h.replace hlength hothers (fun _ _ => rfl)
      intro th' hth'
      obtain rfl : th = th' := Option.some.inj (hth.symm.trans hth')
      exact (h.host k th hth).output hpc fun v => hflushed k v
  | flush k w th out' hth hpc horder hout =>
      obtain ⟨ht, hflushed, hothers, hkept⟩ := outputStep_flush hout
      have hmono : ∀ v, (s.out.streams k v).flushed = true → (out'.streams k v).flushed = true := by
        intro v hv
        by_cases hvw : v = w
        · rw [hvw]
          exact hflushed
        · rw [hothers k v fun hsame => hvw hsame.2]
          exact hv
      apply h.replace (congrArg List.length ht) (fun j v hj => hothers j v fun hsame => hj hsame.1) (fun _ _ => rfl)
      intro th' hth'
      obtain rfl : th = th' := Option.some.inj (hth.symm.trans hth')
      refine (h.host k th hth).flush hpc (hkept k) hmono ?_
      cases w with
      | stdout => exact hflushed
      | stderr => exact hmono .stdout (horder rfl)
  | destroy k th hth hpc hflushed hnot =>
      refine h.replace (k := k) ?_ ?_ ?_ ?_
      · exact List.length_modify ..
      · exact fun _ _ _ => rfl
      · exact fun j hj => Function.update_of_ne hj _ _
      · intro th hth
        have hhost := h.host k th hth
        refine ⟨hhost.untouched, hhost.unflushed, hhost.result, hhost.done, fun _ => Function.update_self ..,
          hhost.order, ?_, hhost.uncanceled⟩
        intro _ v
        cases v with
        | stdout => exact hhost.order hflushed
        | stderr => exact hflushed

/-! ## What is printed -/

theorem AllProgress.setRc (h : AllProgress e out₀ out) (k : Nat) (r : Int) :
    AllProgress e out₀ (setRc out k r) := by
  intro i th₀ hth₀
  obtain ⟨th, hth, hlabel, hprogress⟩ := h i th₀ hth₀
  have hmodify : (Dsh.setRc out k r).t[i]? =
      some (if k = i then { th with rc := destroyedRc th.rc r } else th) := by
    show (out.t.modify k _)[i]? = _
    rw [List.getElem?_modify, hth]
    split <;> rfl
  refine ⟨_, hmodify, ?_, ?_⟩
  · rw [← hlabel]
    split <;> rfl
  · intro w
    have hsame : (if k = i then { th with rc := destroyedRc th.rc r } else th : ThdOut).label e = th.label e := by
      split <;> rfl
    rw [hsame]
    exact hprogress w

/-- The streams make progress in a run of `dsh` as they do by themselves. -/
theorem job_progress (hplain : ∀ i w, i < s₀.out.t.length → Plain w (streamOf (s₀.out.streams i w).reads))
    (hout : s₀.out.Start) (run : Steps (jobStep fanout e sopt rv) (CancelsIf cancels) s₀ s) :
    AllProgress e s₀.out s.out ∧ s.out.t.length = s₀.out.t.length := by
  refine run.invariant (I := fun s => AllProgress e s₀.out s.out ∧ s.out.t.length = s₀.out.t.length) ?_ ?_
  · refine ⟨fun i th₀ hth₀ => ⟨th₀, hth₀, rfl, fun v => ?_⟩, rfl⟩
    exact StreamProgress.start hout (List.getElem?_eq_some_iff.mp hth₀).1 v _
  · rintro s b s' ⟨hprogress, hlength⟩ - hstep
    cases jobStepped_of_step hstep with
    | threads => exact ⟨hprogress, hlength⟩
    | output k w th out' hth hpc hout => exact hprogress.step hplain hlength hout
    | flush k w th out' hth hpc horder hout => exact hprogress.step hplain hlength hout
    | destroy k =>
        exact ⟨hprogress.setRc k (rv k), (List.length_modify ..).trans hlength⟩

/-- Where nothing was read, nothing was printed. -/
theorem StreamProgress.untouched {label : CStr} {stream : Stream} {printed : CStr} {reads : List Cbuf.FdRead}
    (h : StreamProgress label (streamOf reads) stream printed) (hreads : stream.reads = reads) :
    printed = [] := by
  cases h with
  | reading done p hwhole hdone hopen hholds hfd hok hprinted hclosed hflushed =>
      rw [hreads] at hwhole
      have hnil := List.append_eq_nil_iff.mp (List.self_eq_append_left.mp hwhole)
      rw [hprinted, hnil.1]
      rfl
  | flushed shown hwhole hprinted hclosed hflushed =>
      rw [hreads] at hwhole
      rw [hprinted, List.self_eq_append_left.mp hwhole]
      rfl

/-- What is there behind a flush: everything that was read, and that is all where the
descriptor was closed. -/
theorem StreamProgress.shown {label whole : CStr} {stream : Stream} {printed : CStr}
    (h : StreamProgress label whole stream printed) (hflushed : stream.flushed = true) :
    (∃ shown, whole = shown ++ streamOf stream.reads ∧ printed = mark '\n' label true shown) ∧
      (stream.closed = true → printed = mark '\n' label true whole) := by
  cases h with
  | reading _ _ _ _ _ _ _ _ _ _ hunflushed =>
      rw [hunflushed] at hflushed
      cases hflushed
  | flushed shown hwhole hprinted hclosed _ =>
      refine ⟨⟨shown, hwhole, hprinted⟩, fun hc => ?_⟩
      rw [hprinted, hwhole, hclosed hc, streamOf, List.append_nil]

/-- What has become of a host when `dsh` is done: its worker was never started, or it has ended
and all that was read was printed. -/
inductive HostEnd (e : ErrState) (sopt cancels : Bool) (s s' : Job) (k : Nat) (label : CStr) (th : Thd) : Prop where
  | canceled (hpc : th.pc = .absent) (hstate : th.state = .canceled) (hprinted : ∀ w, s'.out.printed k w = [])
  | ended (hpc : th.pc = .exited)
      (hprinted : ∀ w, ∃ shown, streamOf (s.out.streams k w).reads = shown ++ streamOf (s'.out.streams k w).reads ∧
        s'.out.printed k w = mark '\n' label true shown)
      (hdone : th.state = .done →
        (∀ w, (w = .stderr → sopt = true) →
          s'.out.printed k w = mark '\n' label true (streamOf (s.out.streams k w).reads)) ∨
        cancels = true ∧ ∀ w, s'.out.printed k w = [])

/-- When the main thread is done, every host has ended, with all its output printed. -/
theorem dsh_output_complete (hstart : s.Start) (hout : s.out.Start)
    (hcancels : cancels = false → ∀ th ∈ s.threads.t, th.state ≠ .canceled)
    (hplain : ∀ i w, i < s.out.t.length → Plain w (streamOf (s.out.streams i w).reads))
    (run : Steps (jobStep fanout e sopt rv) (CancelsIf cancels) s s') (hmain : s'.threads.main = .finished)
    {o : ThdOut} (ho : s.out.t[k]? = some o) (hth : s'.threads.t[k]? = some th) :
    HostEnd e sopt cancels s s' k (o.label e) th := by
  have hinv : JobInv sopt cancels s.out s' :=
    run.invariant (hstart.inv (fun j w hj => hout.flushed j w hj) hcancels) fun _ _ _ h hok hstep =>
      h.step hok hstep
  obtain ⟨hprogress, -⟩ := job_progress hplain hout run
  obtain ⟨o', ho', hlabel, hstreams⟩ := hprogress k o ho
  rw [hlabel] at hstreams
  have hhost := hinv.host k th hth
  rcases hinv.accounted.all_ended hmain hth with hexited | ⟨habsent, hstate⟩
  · have hflushed := hhost.destroyed (hhost.exited hexited)
    refine .ended hexited (fun w => ((hstreams w).shown (hflushed w)).1) fun hdone => ?_
    rcases (hhost.done hdone).2 with hread | ⟨hc, huntouched⟩
    · left
      simp only [readOut, Bool.and_eq_true, Bool.or_eq_true, Bool.not_eq_true'] at hread
      intro w hw
      cases w with
      | stdout => exact ((hstreams _).shown (hflushed _)).2 hread.1
      | stderr =>
          rcases hread.2 with hmerged | hclosed
          · rw [hw rfl] at hmerged
            cases hmerged
          · exact ((hstreams _).shown (hflushed _)).2 hclosed
    · exact .inr ⟨hc, fun w => (hstreams w).untouched (huntouched w)⟩
  · have huntouched := hhost.untouched (by rw [habsent]; rfl)
    exact .canceled habsent hstate fun w => (hstreams w).untouched (huntouched w)

instance (cancels : Bool) (s : Job) (b : JobAction) : Decidable (CancelsIf cancels s b) :=
  inferInstanceAs (Decidable (b = .threads .cancelLock → cancels = true))

/-- `dsh` with one host, whose standard output comes in the reads given. -/
def oneHostJob (cb : Cbuf) (reads : List Cbuf.FdRead) : Job where
  threads := startHosts 1
  out := oneHost cb reads
  destroyed := fun _ => false

theorem oneHostJob_start (cb : Cbuf) (reads : List Cbuf.FdRead) : (oneHostJob cb reads).Start :=
  ⟨startHosts_started 1, rfl, fun _ => rfl⟩

theorem oneHostJob_new (cb : Cbuf) (reads : List Cbuf.FdRead) :
    ∀ th ∈ (oneHostJob cb reads).threads.t, th.state ≠ .canceled := by
  show ∀ th ∈ (startHosts 1).t, th.state ≠ .canceled
  decide

/-- The worker of the one host from its start to its end. -/
def oneHostRun (reads : Nat) : List JobAction :=
  [.threads .mainLock, .threads (.worker 0 .rcmd), .threads (.worker 0 (.connect true)),
    .threads (.worker 0 .update), .threads (.worker 0 .decide)] ++
  List.replicate reads (.output 0 .stdout) ++
  [.threads (.worker 0 (.work true)), .threads (.worker 0 .status), .flush 0 .stdout, .flush 0 .stderr,
    .destroy 0, .threads (.finish 0), .threads .mainLock, .threads .mainLock]

/-- A host whose last line is open. -/
theorem dsh_output_complete_open : ∃ (e : ErrState) (s s' : Job), s.Start ∧ s.out.Start ∧
    (s.out.streams 0 .stdout).reads = [.bytes "x\n".toList, .bytes "y".toList] ∧
    Steps (jobStep 1 e false fun _ => 0) (CancelsIf false) s s' ∧
    s'.threads.main = .finished ∧ s'.out.printed 0 .stdout = "a: x\na: y".toList := by
  let e : ErrState := ⟨[], [], false, []⟩
  obtain ⟨cb, hcreate⟩ : ∃ cb, Cbuf.create true true (fun _ => '\x00') 64 131072 = .ok cb := ⟨_, rfl⟩
  let s := oneHostJob cb (["x\n".toList, "y".toList].map .bytes)
  have hruns : ((replay (checked (jobStep 1 e false fun _ => 0) (CancelsIf false)) s (oneHostRun 3)).map
      fun s' => (s'.threads.main, s'.threads.t)) = some (.finished, [⟨.done, .exited, true⟩]) := by
    cases hcreate
    decide +kernel
  obtain ⟨s', hreplay, hends⟩ := Option.map_eq_some_iff.mp hruns
  obtain ⟨hmain, ht⟩ := Prod.mk.injEq .. |>.mp hends
  have hout : s.out.Start := oneHost_start hcreate (readsOk_bytes (by decide))
  have run : Steps (jobStep 1 e false fun _ => 0) (CancelsIf false) s s' := Steps.of_checked hreplay
  refine ⟨e, s, s', oneHostJob_start cb _, hout, rfl, run, hmain, ?_⟩
  have hshort : ∀ {part : List Char}, part <:+: "x\ny".toList → part.length ≤ 3 := fun h => h.length_le
  have hplain : ∀ w, Plain w "x\ny".toList := fun w =>
    ⟨by decide, fun _ h => absurd (hshort h) (by decide),
      fun before line after h _ => (hshort ⟨before, after, h.symm⟩).trans (by decide)⟩
  have hend := @dsh_output_complete 1 e false false (fun _ => 0) s s' 0 ⟨.done, .exited, true⟩
    (oneHostJob_start cb _) hout (fun _ => oneHostJob_new cb _) (fun _ w _ => hplain w) run hmain ⟨"a".toList, true, 0⟩ rfl (by rw [ht]; rfl)
  cases hend with
  | canceled hpc _ _ => cases hpc
  | ended _ _ hdone =>
      rcases hdone rfl with hprinted | ⟨hc, -⟩
      · exact hprinted .stdout nofun
      · cases hc

/-! ## What is returned -/

/-- A step of the output for another host. -/
theorem outputStep_other {event : OutputEvent} (hstep : outputStep e out event = some out')
    (hother : ∀ w, event ≠ .output k w ∧ event ≠ .flush k w) :
    out'.t[k]? = out.t[k]? ∧ ∀ w, out'.streams k w = out.streams k w := by
  cases event with
  | output j w =>
      have hj : k ≠ j := by
        rintro rfl
        exact (hother w).1 rfl
      refine ⟨?_, fun v => (outputStep_output hstep).2.2 k v hj⟩
      unfold outputStep at hstep
      simp only at hstep
      split at hstep
      · cases hstep
      · split at hstep
        · cases hstep
        · cases hstep
          exact List.getElem?_set_ne hj.symm
  | flush j w =>
      have hj : k ≠ j := by
        rintro rfl
        exact (hother w).2 rfl
      obtain ⟨ht, -, hothers, -⟩ := outputStep_flush hstep
      exact ⟨by rw [ht], fun v => hothers k v fun hsame => hj hsame.1⟩

/-- A stream that was flushed is not touched again. -/
theorem outputStep_flushed {event : OutputEvent} (hstep : outputStep e out event = some out')
    (hflushed : ∀ w, (out.streams k w).flushed = true) (w : Which) :
    event ≠ .output k w ∧ event ≠ .flush k w := by
  constructor
  · rintro rfl
    unfold outputStep at hstep
    simp only at hstep
    split at hstep
    · cases hstep
    · rw [if_pos (.inr (hflushed w))] at hstep
      cases hstep
  · rintro rfl
    unfold outputStep at hstep
    simp only at hstep
    split at hstep
    · rw [if_pos (hflushed w)] at hstep
      cases hstep
    · cases hstep

/-- The return code of a host: what was recorded of its output, and behind `rcmd_destroy` what
that makes of it. -/
def RcOk (rv : Nat → Int) (s : Job) (k : Nat) (rc₀ : Int) (whole : CStr) : Prop :=
  ∃ o rc, s.out.t[k]? = some o ∧ RcProgress rc₀ whole (s.out.streams k .stdout) rc ∧
    o.rc = if s.destroyed k then destroyedRc rc (rv k) else rc

variable {rc₀ : Int} {whole : CStr}

theorem RcOk.outputStep (h : RcOk rv s k rc₀ whole) {event : OutputEvent}
    (hstep : outputStep e s.out event = some out')
    (hflushed : s.destroyed k = true → ∀ w, (s.out.streams k w).flushed = true) :
    RcOk rv { s with out := out' } k rc₀ whole := by
  obtain ⟨o, rc, ho, hprogress, hrc⟩ := h
  cases hdestroyed : s.destroyed k with
  | true =>
      obtain ⟨ht, hstreams⟩ := outputStep_other hstep (outputStep_flushed hstep (hflushed hdestroyed))
      refine ⟨o, rc, ht.trans ho, ?_, hrc⟩
      show RcProgress rc₀ whole (out'.streams k .stdout) rc
      rwa [hstreams]
  | false =>
      have hsame : o.rc = rc := by
        rw [hrc, hdestroyed]
        rfl
      obtain ⟨o', ho', hprogress'⟩ := RcProgress.step ho (hsame ▸ hprogress) hstep
      refine ⟨o', o'.rc, ho', hprogress', ?_⟩
      show o'.rc = if s.destroyed k then _ else _
      rw [hdestroyed]
      rfl

theorem RcOk.step (h : RcOk rv s k rc₀ whole) (hinv : JobInv sopt cancels out₀ s) {b : JobAction}
    (hstep : jobStep fanout e sopt rv s b = some s') : RcOk rv s' k rc₀ whole := by
  have hlt : k < s.threads.t.length := by
    obtain ⟨o, -, ho, -⟩ := h
    rw [← hinv.length]
    exact (List.getElem?_eq_some_iff.mp ho).1
  have hflushed := (hinv.host k _ (List.getElem?_eq_getElem hlt)).destroyed
  cases jobStepped_of_step hstep with
  | threads => exact h
  | output j w th out' hth hpc hout => exact h.outputStep hout hflushed
  | flush j w th out' hth hpc horder hout => exact h.outputStep hout hflushed
  | destroy j th hth hpc hlast hnot =>
      obtain ⟨o, rc, ho, hprogress, hrc⟩ := h
      have hmodify : (setRc s.out j (rv j)).t[k]? =
          some (if j = k then { o with rc := destroyedRc o.rc (rv j) } else o) := by
        show (s.out.t.modify j _)[k]? = _
        rw [List.getElem?_modify, ho]
        split <;> rfl
      refine ⟨_, rc, hmodify, hprogress, ?_⟩
      show (if j = k then _ else _ : ThdOut).rc = if Function.update s.destroyed j true k then _ else _
      by_cases hj : j = k
      · subst hj
        rw [if_neg hnot] at hrc
        rw [if_pos rfl, Function.update_self, if_pos rfl, hrc]
      · rw [if_neg hj, Function.update_of_ne (Ne.symm hj)]
        exact hrc

/-- A host that was read to its end has the code of its last line, where that is the marker line. -/
theorem RcProgress.marker {stream : Stream} {rc : Int} {before after : CStr} {r : Nat}
    (h : RcProgress rc₀ whole stream rc) (hclosed : stream.closed = true)
    (hwhole : whole = before ++ markerLine [] r ++ after) (hbefore : Ended '\n' before) (hafter : '\n' ∉ after)
    (hr : r < 2 ^ 31) : rc = r := by
  obtain ⟨done, p, hsplit, hdone, hopen, hrecorded, -⟩ := h.seen
  rw [h.closed hclosed, streamOf, List.append_nil] at hsplit
  obtain ⟨hlast, -⟩ := ended_unique hdone (ended_append hbefore (ended_line _)) hopen hafter
    (hsplit.symm.trans hwhole)
  rw [hlast] at hrecorded
  rw [hrecorded.marker hbefore (by decide) (by simp) (by simp) hr, extractRc_alone hr]

theorem jobStep_length {b : JobAction} (hstep : jobStep fanout e sopt rv s b = some s') :
    s'.out.t.length = s.out.t.length := by
  cases jobStepped_of_step hstep with
  | threads => rfl
  | output k w th out' hth hpc hout => exact (outputStep_output hout).1
  | flush k w th out' hth hpc horder hout => exact congrArg List.length (outputStep_flush hout).1
  | destroy k => exact List.length_modify ..

/-- In every run each host has the code of what was read of its output. -/
theorem run_rcOk (hstart : s.Start) (hout : s.out.Start) (hstates : ∀ th ∈ s.threads.t, th.state ≠ .canceled)
    (run : Steps (jobStep fanout e sopt rv) (CancelsIf false) s s') :
    JobInv sopt false s.out s' ∧ s'.out.t.length = s.out.t.length ∧
      ∀ k o, s.out.t[k]? = some o → RcOk rv s' k o.rc (streamOf (s.out.streams k .stdout).reads) := by
  refine run.invariant (I := fun s' => JobInv sopt false s.out s' ∧ s'.out.t.length = s.out.t.length ∧
    ∀ k o, s.out.t[k]? = some o → RcOk rv s' k o.rc (streamOf (s.out.streams k .stdout).reads)) ?_ ?_
  · refine ⟨hstart.inv (fun j w hj => hout.flushed j w hj) fun _ => hstates, rfl, fun k o ho => ?_⟩
    refine ⟨o, o.rc, ho, RcProgress.start hout (List.getElem?_eq_some_iff.mp ho).1, ?_⟩
    rw [hstart.destroyed k]
    rfl
  · rintro t b t' ⟨hinv, hlength, hcodes⟩ hok hstep
    exact ⟨hinv.step hok hstep, (jobStep_length hstep).trans hlength,
      fun k o ho => (hcodes k o ho).step hinv hstep⟩

theorem Job.mem_exits {x : ThdExit} : x ∈ s.exits ↔
    ∃ (k : Nat) (th : Thd) (o : ThdOut), s.threads.t[k]? = some th ∧ s.out.t[k]? = some o ∧
      x = ⟨th.state, o.rc⟩ := by
  simp only [Job.exits, List.mem_iff_getElem?, List.getElem?_zipWith_eq_some]
  constructor
  · rintro ⟨k, th, o, hth, ho, rfl⟩
    exact ⟨k, th, o, hth, ho, rfl⟩
  · rintro ⟨k, th, o, hth, ho, rfl⟩
    exact ⟨k, th, o, hth, ho, rfl⟩

theorem destroyedRc_nonneg (r : Nat) (v : Int) : 0 ≤ destroyedRc r v := by
  unfold destroyedRc
  split <;> omega

/-- Where all hosts end as `DSH_DONE` and nothing was canceled, `dsh -S` returns the largest of the
codes: of each host the one in its marker line, or what `rcmd_destroy` gives where that is 0. -/
theorem dsh_returns_largest (hstart : s.Start) (hout : s.out.Start)
    (hstates : ∀ th ∈ s.threads.t, th.state ≠ .canceled) (hne : s.out.t ≠ []) {before after : Nat → CStr}
    {r : Nat → Nat} (hwhole : ∀ k < s.out.t.length, streamOf (s.out.streams k .stdout).reads =
      before k ++ markerLine [] (r k) ++ after k)
    (hbefore : ∀ k, Ended '\n' (before k)) (hafter : ∀ k, '\n' ∉ after k) (hr : ∀ k, r k < 2 ^ 31)
    (run : Steps (jobStep fanout e sopt rv) (CancelsIf false) s s') (hmain : s'.threads.main = .finished)
    (hdone : ∀ th ∈ s'.threads.t, th.state = .done) :
    IsGreatest {c | ∃ k < s.out.t.length, c = destroyedRc (r k) (rv k)} (dshExitValue true s'.exits) := by
  obtain ⟨hinv, hlength, hcodes⟩ := run_rcOk hstart hout hstates run
  -- a worker that ended as done has read the marker line, and `rcmd_destroy` came behind
  have hcode : ∀ k o, s'.out.t[k]? = some o → o.rc = destroyedRc (r k) (rv k) := by
    intro k o ho
    have hlt : k < s.out.t.length := hlength ▸ (List.getElem?_eq_some_iff.mp ho).1
    obtain ⟨o', rc, ho', hprogress, hrc⟩ := hcodes k _ (List.getElem?_eq_getElem hlt)
    obtain rfl : o' = o := Option.some.inj (ho'.symm.trans ho)
    have hlt' : k < s'.threads.t.length := hinv.length ▸ (List.getElem?_eq_some_iff.mp ho).1
    have hth := List.getElem?_eq_getElem hlt'
    have hhost := hinv.host k _ hth
    have hstate := hdone _ (List.getElem_mem hlt')
    have hexited : (s'.threads.t[k]).pc = .exited := by
      rcases hinv.accounted.all_ended hmain hth with hexited | ⟨-, hcanceled⟩
      · exact hexited
      · rw [hstate] at hcanceled
        cases hcanceled
    have hclosed : (s'.out.streams k .stdout).closed = true := by
      rcases (hhost.done hstate).2 with hread | ⟨hc, -⟩
      · exact (Bool.and_eq_true_iff.mp hread).1
      · cases hc
    rw [hrc, if_pos (hhost.exited hexited),
      hprogress.marker hclosed (hwhole k hlt) (hbefore k) (hafter k) (hr k)]
  have hmem : ∀ x, x ∈ s'.exits ↔ ∃ k < s.out.t.length, x = ⟨.done, destroyedRc (r k) (rv k)⟩ := by
    intro x
    rw [Job.mem_exits]
    constructor
    · rintro ⟨k, th, o, hth, ho, rfl⟩
      refine ⟨k, hlength ▸ (List.getElem?_eq_some_iff.mp ho).1, ?_⟩
      rw [hdone th (List.mem_of_getElem? hth), hcode k o ho]
    · rintro ⟨k, hk, rfl⟩
      have hk' : k < s'.out.t.length := hlength.symm ▸ hk
      have hth := List.getElem?_eq_getElem (hinv.length ▸ hk')
      have ho := List.getElem?_eq_getElem hk'
      refine ⟨k, _, _, hth, ho, ?_⟩
      rw [hdone _ (List.mem_of_getElem? hth), hcode k _ ho]
  have hsame : CountedCodes s'.exits = {c | ∃ k < s.out.t.length, c = destroyedRc (r k) (rv k)} := by
    ext c
    constructor
    · rintro ⟨x, hx, rfl⟩
      obtain ⟨k, hk, rfl⟩ := (hmem x).mp hx
      exact ⟨k, hk, rfl⟩
    · rintro ⟨k, hk, rfl⟩
      exact ⟨_, (hmem _).mpr ⟨k, hk, rfl⟩, rfl⟩
  rw [← hsame]
  refine (exitsWithLargest_ended ?_).mpr ?_ |>.1
  · intro x hx
    obtain ⟨k, -, rfl⟩ := (hmem x).mp hx
    simp
  · exact ⟨_, (hmem _).mpr ⟨0, List.length_pos_iff.mpr hne, rfl⟩, destroyedRc_nonneg ..⟩

/-- A host that returns 5, in two reads. -/
theorem dsh_returns_largest_five : ∃ (e : ErrState) (s s' : Job), s.Start ∧ s.out.Start ∧
    (s.out.streams 0 .stdout).reads = [.bytes "XXRET".toList, .bytes "CODE:5\n".toList] ∧
    Steps (jobStep 1 e false fun _ => 0) (CancelsIf false) s s' ∧
    s'.threads.main = .finished ∧ dshExitValue true s'.exits = 5 := by
  let e : ErrState := ⟨[], [], false, []⟩
  obtain ⟨cb, hcreate⟩ : ∃ cb, Cbuf.create true true (fun _ => '\x00') 64 131072 = .ok cb := ⟨_, rfl⟩
  let s := oneHostJob cb (["XXRET".toList, "CODE:5\n".toList].map .bytes)
  have hruns : ((replay (checked (jobStep 1 e false fun _ => 0) (CancelsIf false)) s (oneHostRun 3)).map
      fun s' => (s'.threads.main, s'.threads.t)) = some (.finished, [⟨.done, .exited, true⟩]) := by
    cases hcreate
    decide +kernel
  obtain ⟨s', hreplay, hends⟩ := Option.map_eq_some_iff.mp hruns
  obtain ⟨hmain, ht⟩ := Prod.mk.injEq .. |>.mp hends
  have hout : s.out.Start := oneHost_start hcreate (readsOk_bytes (by decide))
  have run : Steps (jobStep 1 e false fun _ => 0) (CancelsIf false) s s' := Steps.of_checked hreplay
  refine ⟨e, s, s', oneHostJob_start cb _, hout, rfl, run, hmain, ?_⟩
  have hwhole : ∀ k < s.out.t.length, streamOf (s.out.streams k .stdout).reads =
      [] ++ markerLine [] 5 ++ [] := fun _ _ => rfl
  obtain ⟨⟨-, -, hcode⟩, -⟩ := @dsh_returns_largest 1 e false (fun _ => 0) s s' (oneHostJob_start cb _)
    hout (oneHostJob_new cb _) (by simp [s, oneHostJob, oneHost])
    (fun _ => []) (fun _ => []) (fun _ => 5) hwhole (fun _ => .inl rfl) (fun _ => by simp) (fun _ => by decide)
    run hmain (by rw [ht]; simp)
  exact hcode

end Pdsh.Dsh
