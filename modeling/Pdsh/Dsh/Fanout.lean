import Pdsh.Dsh.Threads

/-!
# The fanout

At most `fanout` workers are there at a time, and no host is left waiting while there
is room: this holds as long as `pthread_cond_wait` returns with room for a worker. The
main loop tests for room with an `if` before the wait and not again behind it, so a
wakeup without a signal starts one worker too many, and from then on the count is past
the fanout it is compared with. The options let any `int` through, of which those
below 1 are no fanout at all.
-/

namespace Pdsh.Dsh

open Lib.Transition

/-! ## The option -/

/-- `string_to_int`. -/
def stringToInt (val : CStr) : Option Int32 :=
  let n := strtoul val
  if n.erange ∨ n.endptr ≠ [] then none else some (intOfUlong n.value)

/-- The fanout of the options: its default, the variable `FANOUT`, and each `-f`. The
message is that of `errx`; `opt_verify` does not look at the fanout. -/
def optFanout (dflt : Int32) (fanoutVar : Option CStr) (args : List CStr) : Except CStr Int32 := do
  let fanout ← match fanoutVar with
    | none => pure dflt
    | some rhs =>
        match stringToInt rhs with
        | none => throw ("%p: Invalid environment variable FANOUT=".toList ++ rhs ++ ['\n'])
        | some n => pure n
  args.foldlM (fun _ optarg =>
    match stringToInt optarg with
    | none => throw ("%p: Invalid fanout `".toList ++ optarg ++ "' passed to -f.\n".toList)
    | some n => pure n) fanout

/-! ## Safety and progress -/

/-- A worker that was created and has not counted itself off. -/
def live (th : Thd) : Bool := th.pc ≠ .absent ∧ th.pc ≠ .exited

/-- A host that is to be started. -/
def unstarted (th : Thd) : Bool := th.pc = .absent ∧ th.state ≠ .canceled

/-- No more workers than the fanout. -/
def WithinFanout (fanout : Int32) (s : Threads) : Prop := (s.t.countP live : Int) ≤ fanout.toInt

/-- While a host is to be started, a worker is there, or the main thread can start a
host, or a cancellation holds the mutex and comes to its end by itself. -/
def Progress (fanout : Int32) (s : Threads) : Prop :=
  (∃ th ∈ s.t, unstarted th) →
    (∃ th ∈ s.t, live th) ∨
    (∃ (s' : Threads) (k : Nat), step fanout s .mainLock = some s' ∧ (s.t[k]?).any unstarted ∧ (s'.t[k]?).any live) ∨
    (s.cancel ≠ none ∧
      ∃ n s', replay (step fanout) s (List.replicate n .cancelStep) = some s' ∧ s'.cancel = none)

/-- `pthread_cond_wait` returns with room for a worker. -/
def WaitsForRoom (fanout : Int32) (s : Threads) (a : Action) : Prop :=
  a = .mainLock → s.main = .woken → fanout.toInt ≠ s.threadcount

instance (fanout : Int32) (s : Threads) (a : Action) : Decidable (WaitsForRoom fanout s a) := by
  unfold WaitsForRoom
  infer_instance

instance (fanout : Int32) (s : Threads) : Decidable (WithinFanout fanout s) :=
  inferInstanceAs (Decidable (_ ≤ _))

/-! ## The invariant -/

variable {fanout : Int32} {s s' : Threads} {a : Action} {t : List Thd} {k : Nat} {th th' : Thd}

/-- What a worker or a cancellation may do to the entry of a host, as the main loop
sees it. -/
structure SameWorker (th th' : Thd) : Prop where
  live : Dsh.live th' = Dsh.live th
  absent : th'.pc = .absent ↔ th.pc = .absent
  canceled : th.pc = .absent → th.state = .canceled → th'.state = .canceled

/-- The count is right, and the hosts the main loop has passed are those it has
started and the canceled ones. -/
structure FanoutInv (fanout : Int32) (s : Threads) : Prop where
  count : s.threadcount = s.t.countP live
  bound : s.threadcount ≤ fanout.toInt
  waiting : s.main = .waiting → s.threadcount = fanout.toInt
  fresh : Fresh s
  past : ∀ k th, k < s.i → s.t[k]? = some th → th.pc = .absent → th.state = .canceled
  ended : s.main = .drain ∨ s.main = .drainWaiting ∨ s.main = .finished → s.t.length ≤ s.i
  marking : ∀ k, s.cancel = some (.mark k) → k < s.t.length

theorem countP_set_of_getElem? (hth : t[k]? = some th) :
    ((t.set k th').countP live : Int) =
      t.countP live - (if live th then 1 else 0) + (if live th' then 1 else 0) := by
  obtain ⟨hk, hget⟩ := List.getElem?_eq_some_iff.mp hth
  have hcount := List.countP_set (p := live) (a := th') hk
  rw [hget] at hcount
  have hpos : live th = true → 0 < t.countP live := by
    intro hlive
    exact List.countP_pos_iff.mpr ⟨th, List.mem_of_getElem? hth, hlive⟩
  rw [hcount]
  cases hlive : live th with
  | false => simp
  | true =>
      have := hpos hlive
      simp only [if_true]
      push_cast [Nat.cast_sub (show 1 ≤ t.countP live from this)]
      rfl

theorem Started.fanoutInv (hpos : 1 ≤ fanout.toInt) (h : Started s) : FanoutInv fanout s := by
  have hnone : s.t.countP live = 0 := by
    rw [List.countP_eq_zero]
    intro th hth
    simp [live, (h.fresh th hth).2.1]
  refine ⟨by rw [h.threadcount, hnone]; rfl, by rw [h.threadcount]; omega, ?_, ?_, ?_, ?_, ?_⟩
  · intro hmain
    rw [h.main] at hmain
    cases hmain
  · exact h.fresh_of
  · intro k th hk
    rw [h.i] at hk
    omega
  · rw [h.main]
    simp
  · rw [h.cancel]
    simp

/-- A change of one entry that the main loop does not notice. -/
theorem FanoutInv.set (h : FanoutInv fanout s) (hth : s.t[k]? = some th) (hsame : SameWorker th th')
    (cancel : Option CancelPc) (hmark : ∀ j, cancel = some (.mark j) → j < s.t.length) :
    FanoutInv fanout { s with t := s.t.set k th', cancel := cancel } := by
  refine ⟨?_, h.bound, h.waiting, ?_, ?_, ?_, ?_⟩
  · show s.threadcount = ((s.t.set k th').countP live : Int)
    rw [countP_set_of_getElem? hth, hsame.live, h.count]
    omega
  · exact h.fresh.set hth hsame.absent.mpr
  · intro j x hj hx habsent
    rcases getElem?_set_cases hx with ⟨rfl, rfl⟩ | ⟨-, hx⟩
    · have habsent' := hsame.absent.mp habsent
      exact hsame.canceled habsent' (h.past j th hj hth habsent')
    · exact h.past j x hj hx habsent
  · simpa using h.ended
  · simpa using hmark

theorem workerStep_same {a : WorkerAction} (h : workerStep th a = some th') : SameWorker th th' := by
  have hfresh := workerStep_pc h
  refine ⟨?_, by simp [hfresh.1, hfresh.2], fun habsent => absurd habsent hfresh.1⟩
  cases a with
  | status =>
      simp only [workerStep] at h
      split at h
      · rename_i r hpc
        cases h
        simp [live, hpc]
      · cases h
  | _ =>
      obtain ⟨hpc, h⟩ := Option.ite_none_right_eq_some.mp h
      cases h
      simp [live, hpc] <;> split <;> simp

theorem wake_ne_waiting (pc : MainPc) : wake pc ≠ .waiting := by
  cases pc <;> simp [wake]

theorem wake_ended {pc : MainPc} (h : wake pc = .drain ∨ wake pc = .drainWaiting ∨ wake pc = .finished) :
    pc = .drain ∨ pc = .drainWaiting ∨ pc = .finished := by
  cases pc <;> simp [wake] at h ⊢

/-- A host the main loop has passed was started or is canceled, also behind a skip. -/
theorem FanoutInv.past_skip (h : FanoutInv fanout s) (hk : k < skipCanceled s.t s.i)
    (hth : s.t[k]? = some th) (habsent : th.pc = .absent) : th.state = .canceled := by
  by_cases hi : k < s.i
  · exact h.past k th hi hth habsent
  · exact canceled_of_lt_skip (Nat.le_of_not_lt hi) hk hth

/-- Every step keeps the invariant, if the wait of the main loop returns with room. -/
theorem FanoutInv.step (h : FanoutInv fanout s) (hok : WaitsForRoom fanout s a)
    (hstep : Stepped fanout s a s') : FanoutInv fanout s' := by
  have hbound := h.bound
  have hfresh := h.fresh.step hstep
  cases hstep with
  | wait hmutex hmain hi hfull => exact ⟨h.count, h.bound, fun _ => hfull.symm, hfresh, h.past, by simp, h.marking⟩
  | loopEnd hmutex hmain hi => exact ⟨h.count, h.bound, by simp, hfresh, h.past, fun _ => hi, h.marking⟩
  | start hmutex th hmain hth =>
      have hle := skipCanceled_le s.t s.i
      have habsent := h.fresh _ th hle hth
      have hroom : fanout.toInt ≠ s.threadcount := by
        rcases hmain with ⟨-, hroom⟩ | hwoken
        · exact hroom
        · exact hok rfl hwoken
      refine ⟨?_, by simp only; omega, by simp, hfresh, ?_, by simp, by simpa using h.marking⟩
      · show s.threadcount + 1 = ((s.t.set _ _).countP live : Int)
        rw [countP_set_of_getElem? hth, h.count]
        simp [live, habsent]
      · intro j x hj hx hxabsent
        rcases getElem?_set_cases hx with ⟨rfl, rfl⟩ | ⟨hne, hx⟩
        · cases hxabsent
        · exact h.past_skip (Nat.lt_of_le_of_ne (Nat.le_of_lt_succ hj) hne) hx hxabsent
  | none hmutex hmain hth =>
      have hlen : s.t.length ≤ skipCanceled s.t s.i := List.getElem?_eq_none_iff.mp hth
      refine ⟨h.count, h.bound, by simp, hfresh, ?_, fun _ => hlen, h.marking⟩
      intro j x hj hx hxabsent
      exact h.past_skip hj hx hxabsent
  | drain hmutex hmain =>
      refine ⟨h.count, h.bound, ?_, hfresh, h.past, fun _ => h.ended (.inl hmain), h.marking⟩
      intro hwaiting
      simp only at hwaiting
      split at hwaiting <;> cases hwaiting
  | spurious hmain =>
      refine ⟨h.count, h.bound, ?_, hfresh, h.past, ?_, h.marking⟩
      · intro hwaiting
        exact absurd hwaiting (wake_ne_waiting _)
      · intro hended
        exact h.ended (wake_ended hended)
  | worker k a th th' hth hw => exact h.set hth (workerStep_same hw) s.cancel h.marking
  | finish hmutex k th hth hpc =>
      refine ⟨?_, ?_, ?_, hfresh, ?_, ?_, ?_⟩
      · show s.threadcount - 1 = ((s.t.set _ _).countP live : Int)
        rw [countP_set_of_getElem? hth, h.count]
        simp [live, hpc]
      · show s.threadcount - 1 ≤ fanout.toInt
        omega
      · intro hwaiting
        exact absurd hwaiting (wake_ne_waiting _)
      · intro j x hj hx hxabsent
        rcases getElem?_set_cases hx with ⟨rfl, rfl⟩ | ⟨-, hx⟩
        · cases hxabsent
        · exact h.past j x hj hx hxabsent
      · intro hended
        simpa [finishStep] using h.ended (wake_ended hended)
      · simpa [finishStep] using h.marking
  | cancelLock hmutex => exact ⟨h.count, h.bound, h.waiting, hfresh, h.past, h.ended, by simp⟩
  | cancelUnlock k hcancel hth => exact ⟨h.count, h.bound, h.waiting, hfresh, h.past, h.ended, by simp⟩
  | check k th hcancel hth =>
      refine ⟨h.count, h.bound, h.waiting, hfresh, h.past, h.ended, ?_⟩
      intro j hj
      simp only [Option.some.injEq] at hj
      split at hj
      · cases hj
        exact (List.getElem?_eq_some_iff.mp hth).1
      · cases hj
  | mark k th hcancel hth =>
      have hsame : SameWorker th { th with state := .canceled } := ⟨rfl, Iff.rfl, fun _ _ => rfl⟩
      exact h.set hth hsame (some (.check (k + 1))) (by simp)

theorem FanoutInv.steps (hpos : 1 ≤ fanout.toInt) (h0 : Started s)
    (hrun : Steps (Dsh.step fanout) (WaitsForRoom fanout) s s') : FanoutInv fanout s' :=
  hrun.invariant (h0.fanoutInv hpos) fun _ _ _ h hok hstep => h.step hok (stepped_of_step hstep)

/-! ## Progress -/

/-- Steps a cancellation still has to take. -/
def cancelLeft (s : Threads) : Nat :=
  match s.cancel with
  | none => 0
  | some (.check k) => 2 * (s.t.length - k) + 1
  | some (.mark k) => 2 * (s.t.length - k)

/-- A cancellation comes to its end by itself. -/
theorem cancel_ends (fanout : Int32) (hmark : ∀ k, s.cancel = some (.mark k) → k < s.t.length) :
    ∃ n s', replay (Dsh.step fanout) s (List.replicate n .cancelStep) = some s' ∧ s'.cancel = none := by
  generalize hleft : cancelLeft s = m
  induction m using Nat.strongRecOn generalizing s with
  | ind m ih =>
      -- one step of the cancellation, and what it leaves
      have hone : ∀ s₁, Dsh.step fanout s .cancelStep = some s₁ → cancelLeft s₁ < m →
          (∀ k, s₁.cancel = some (.mark k) → k < s₁.t.length) →
          ∃ n s', replay (Dsh.step fanout) s (List.replicate n .cancelStep) = some s' ∧
            s'.cancel = none := by
        intro s₁ hs₁ hlt hmark₁
        obtain ⟨n, s', hrun, hend⟩ := ih _ hlt hmark₁ rfl
        refine ⟨n + 1, s', ?_, hend⟩
        rw [List.replicate_succ, replay, List.foldlM_cons, hs₁]
        exact hrun
      cases hcancel : s.cancel with
      | none => exact ⟨0, s, rfl, hcancel⟩
      | some pc =>
          cases pc with
          | check k =>
              have hm : m = 2 * (s.t.length - k) + 1 := by
                rw [← hleft, cancelLeft, hcancel]
              cases hth : s.t[k]? with
              | none =>
                  apply hone { s with cancel := none }
                  · simp [Dsh.step, hcancel, cancelStep, hth]
                  · rw [cancelLeft]
                    simp only
                    omega
                  · simp
              | some th =>
                  have hk := (List.getElem?_eq_some_iff.mp hth).1
                  apply hone { s with cancel := some (if pending th then .mark k else .check (k + 1)) }
                  · simp [Dsh.step, hcancel, cancelStep, hth]
                  · cases hp : pending th <;> simp [cancelLeft] <;> omega
                  · intro j hj
                    cases hp : pending th <;> simp [hp] at hj
                    rw [← hj]
                    exact hk
          | mark k =>
              have hk := hmark k hcancel
              have hm : m = 2 * (s.t.length - k) := by
                rw [← hleft, cancelLeft, hcancel]
              have hth : s.t[k]? = some s.t[k] := List.getElem?_eq_getElem hk
              apply hone { s with t := s.t.set k { s.t[k] with state := .canceled },
                                  cancel := some (.check (k + 1)) }
              · simp [Dsh.step, hcancel, cancelStep, hth]
              · simp only [cancelLeft, List.length_set]
                omega
              · simp

theorem startNext_starts (h : FanoutInv fanout s) {k : Nat} (hth : s.t[k]? = some th)
    (hun : unstarted th) :
    ∃ k : Nat, (s.t[k]?).any unstarted ∧ ((startNext s).t[k]?).any live := by
  simp only [unstarted, Bool.decide_and, Bool.and_eq_true, decide_eq_true_eq] at hun
  have hi : s.i ≤ k := by
    by_contra hlt
    exact hun.2 (h.past k th (Nat.lt_of_not_le hlt) hth hun.1)
  -- the main loop stops at this host at the latest
  have hle : skipCanceled s.t s.i ≤ k := by
    by_contra hlt
    exact hun.2 (canceled_of_lt_skip hi (Nat.lt_of_not_le hlt) hth)
  have hk := (List.getElem?_eq_some_iff.mp hth).1
  have hlt : skipCanceled s.t s.i < s.t.length := Nat.lt_of_le_of_lt hle hk
  have hget := List.getElem?_eq_getElem hlt
  refine ⟨skipCanceled s.t s.i, ?_, ?_⟩
  · have habsent := h.fresh _ _ (skipCanceled_le _ _) hget
    have hstate := skipCanceled_state hget
    rw [hget]
    simp [unstarted, habsent, hstate]
  · unfold startNext
    simp only [hget]
    rw [List.getElem?_set_self hlt]
    rfl

theorem FanoutInv.progress (hpos : 1 ≤ fanout.toInt) (h : FanoutInv fanout s) : Progress fanout s := by
  rintro ⟨th, hmem, hun⟩
  obtain ⟨k, hth⟩ := List.mem_iff_getElem?.mp hmem
  have hi : s.i ≤ k := by
    simp only [unstarted, Bool.decide_and, Bool.and_eq_true, decide_eq_true_eq] at hun
    by_contra hlt
    exact hun.2 (h.past k th (Nat.lt_of_not_le hlt) hth hun.1)
  have hk := (List.getElem?_eq_some_iff.mp hth).1
  by_cases hcancel : s.cancel = none
  · by_cases hfull : fanout.toInt = s.threadcount
    · -- as many workers as the fanout, and the fanout is not 0
      left
      have hcount := h.count
      have hpos' : 0 < s.t.countP live := by omega
      exact List.countP_pos_iff.mp hpos'
    · right
      left
      obtain ⟨j, hj, hlive⟩ := startNext_starts h hth hun
      refine ⟨startNext s, j, ?_, hj, hlive⟩
      rw [Dsh.step, if_pos hcancel, mainStep]
      cases hmain : s.main with
      | loop => simp only [if_pos (Nat.lt_of_le_of_lt hi hk), if_neg hfull]
      | woken => rfl
      | waiting => exact absurd (h.waiting hmain).symm hfull
      | drain => exact absurd (h.ended (.inl hmain)) (by omega)
      | drainWaiting => exact absurd (h.ended (.inr (.inl hmain))) (by omega)
      | finished => exact absurd (h.ended (.inr (.inr hmain))) (by omega)
  · exact .inr (.inr ⟨hcancel, cancel_ends fanout h.marking⟩)

/-- With a fanout of at least 1 and a wait that returns only when there is room, there
are never more workers than the fanout, and no state is stuck. -/
theorem fanout_safe (hpos : 1 ≤ fanout.toInt) (h0 : Started s)
    (hrun : Steps (Dsh.step fanout) (WaitsForRoom fanout) s s') :
    WithinFanout fanout s' ∧ Progress fanout s' := by
  have h := FanoutInv.steps hpos h0 hrun
  refine ⟨?_, h.progress hpos⟩
  rw [WithinFanout, ← h.count]
  exact h.bound

/-- Two hosts at a fanout of 1: the second one is started when the first one ends. -/
def twoHosts : List Action :=
  [.mainLock, .mainLock, .worker 0 .rcmd, .worker 0 (.connect false), .worker 0 .status, .finish 0,
    .mainLock]

theorem fanout_safe_two : ∃ s', replay (checked (Dsh.step 1) (WaitsForRoom 1)) (startHosts 2) twoHosts =
    some s' ∧ WithinFanout 1 s' ∧ Progress 1 s' :=
  ⟨_, rfl, fanout_safe (by decide) (startHosts_started 2) (Steps.of_checked (rfl :
    replay (checked (Dsh.step 1) (WaitsForRoom 1)) (startHosts 2) twoHosts = some _))⟩

/-- The first worker is still there when the wait for it returns. -/
def earlyReturn : List Action := [.mainLock, .mainLock, .spurious, .mainLock]

theorem steps_of_replay {s s' : Threads} {actions : List Action}
    (h : replay (Dsh.step fanout) s actions = some s') : Steps (Dsh.step fanout) anyStep s s' :=
  Steps.of_replay (fun _ _ _ hstep => ⟨trivial, hstep⟩) h

/-- A fanout of 1 is exceeded after a wakeup without a signal, a fanout of 0 never
starts a host, and one of -1 is exceeded by no worker at all. -/
theorem fanout_unsafe :
    (optFanout 32 none ["1".toList] = .ok 1 ∧
      ∃ s', Steps (Dsh.step 1) anyStep (startHosts 2) s' ∧ ¬ WithinFanout 1 s') ∧
    (optFanout 32 none ["0".toList] = .ok 0 ∧
      ∃ s', Steps (Dsh.step 0) anyStep (startHosts 1) s' ∧ ¬ Progress 0 s') ∧
    (optFanout 32 none ["-1".toList] = .ok (-1) ∧
      ∃ s', Steps (Dsh.step (-1)) anyStep (startHosts 1) s' ∧ ¬ WithinFanout (-1) s') := by
  refine ⟨⟨rfl, ?_⟩, ⟨rfl, ?_⟩, ⟨rfl, ?_⟩⟩
  · have hrun : replay (Dsh.step 1) (startHosts 2) earlyReturn = some _ := rfl
    refine ⟨_, steps_of_replay hrun, ?_⟩
    decide
  · have hrun : replay (Dsh.step 0) (startHosts 1) [.mainLock] = some _ := rfl
    refine ⟨_, steps_of_replay hrun, ?_⟩
    intro h
    have hhost : ∃ th ∈ [(⟨.new, .absent, false⟩ : Thd)], unstarted th := ⟨_, List.mem_singleton_self _, rfl⟩
    rcases h hhost with ⟨th, hmem, hlive⟩ | ⟨s', k, hstep, -⟩ | ⟨hcancel, -⟩
    · have hth : th = ⟨.new, .absent, false⟩ := List.mem_singleton.mp hmem
      rw [hth] at hlive
      cases hlive
    · cases hstep
    · exact hcancel rfl
  · refine ⟨_, .refl, ?_⟩
    decide

end Pdsh.Dsh
