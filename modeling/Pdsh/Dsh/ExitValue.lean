import Pdsh.Dsh.Threads

/-!
# The exit value

With `-S` the exit value of `dsh` is meant to be the largest return code of the
hosts, a host that failed counting as `RC_FAILED`. The loop over the hosts keeps
the larger code for a host that ended, but for one that failed it assigns, so
what came before it is forgotten (`exitLoop_last_failed`).
-/

namespace Pdsh.Dsh

/-- `RC_FAILED`. -/
def RC_FAILED : Int := 254

/-- What the exit value is made of in `thd_t`. -/
structure ThdExit where
  state : HostState
  rc : Int
deriving DecidableEq, Repr

/-- The end of `_rsh_thread`: `result` is the state it comes to, `rv` what `rcmd_destroy` returns. -/
def rshThreadEnd (th : ThdExit) (result : HostState) (rv : Int) : ThdExit where
  state := result
  rc := if th.rc = 0 ∧ rv > 0 then rv else th.rc

/-- The loop over the hosts. -/
def exitLoop (rc : Int) : List ThdExit → Int
  | [] => rc
  | th :: t =>
      let rc := if th.state = .failed then RC_FAILED else rc
      exitLoop (if th.rc > rc then th.rc else rc) t

/-- The value `dsh` returns. -/
def dshExitValue (ret_remote_rc : Bool) (t : List ThdExit) : Int :=
  if ret_remote_rc then exitLoop 0 t else 0

/-- What a host counts. -/
def counted (th : ThdExit) : Int := if th.state = .failed then RC_FAILED else th.rc

/-- All that the hosts count. -/
def CountedCodes (t : List ThdExit) : Set Int := fun c => ∃ th ∈ t, counted th = c

variable {t t' a b : List ThdExit} {th : ThdExit} {rc M : Int}

theorem counted_failed (h : th.state = .failed) : counted th = RC_FAILED := if_pos h

theorem counted_ended (h : th.state ≠ .failed) : counted th = th.rc := if_neg h

/-! ## The loop -/

theorem exitLoop_cons (rc : Int) (th : ThdExit) (t : List ThdExit) :
    exitLoop rc (th :: t) = exitLoop (max th.rc (if th.state = .failed then RC_FAILED else rc)) t := by
  rw [exitLoop]
  congr 1
  split <;> split <;> omega

theorem exitLoop_append (rc : Int) (a b : List ThdExit) :
    exitLoop rc (a ++ b) = exitLoop (exitLoop rc a) b := by
  induction a generalizing rc with
  | nil => rfl
  | cons th a ih =>
      rw [List.cons_append, exitLoop_cons, exitLoop_cons, ih]

/-- Where no host failed the value is the largest, with what was there before. -/
theorem exitLoop_ended (h : ∀ th ∈ t, th.state ≠ .failed) :
    rc ≤ exitLoop rc t ∧ (∀ th ∈ t, th.rc ≤ exitLoop rc t) ∧
      (exitLoop rc t = rc ∨ ∃ th ∈ t, th.rc = exitLoop rc t) := by
  induction t generalizing rc with
  | nil => exact ⟨Int.le_refl rc, fun th hth => by simp at hth, .inl rfl⟩
  | cons th t ih =>
      have hth := h th (by simp)
      obtain ⟨hle, hall, hsome⟩ := @ih (max th.rc rc) fun x hx => h x (List.mem_cons_of_mem th hx)
      rw [exitLoop_cons, if_neg hth]
      refine ⟨by omega, ?_, ?_⟩
      · intro x hx
        rcases List.mem_cons.mp hx with rfl | hx
        · omega
        · exact hall x hx
      · rcases hsome with heq | ⟨x, hx, heq⟩
        · rcases Int.le_total th.rc rc with hlt | hlt
          · left
            omega
          · right
            exact ⟨th, by simp, by omega⟩
        · exact .inr ⟨x, List.mem_cons_of_mem th hx, heq⟩

/-- A host that failed makes the loop forget those in front of it. -/
theorem exitLoop_last_failed (h : th.state = .failed) (rc : Int) (a : List ThdExit) :
    exitLoop rc (a ++ th :: b) = exitLoop (max th.rc RC_FAILED) b := by
  rw [exitLoop_append, exitLoop_cons, if_pos h]

/-- There is a last host that failed, if there is one. -/
theorem exists_last_failed (h : ∃ th ∈ t, th.state = .failed) :
    ∃ a th b, t = a ++ th :: b ∧ th.state = .failed ∧ ∀ x ∈ b, x.state ≠ .failed := by
  induction t with
  | nil => simp at h
  | cons x t ih =>
      by_cases hmore : ∃ th ∈ t, th.state = .failed
      · obtain ⟨a, th, b, rfl, hfailed, hrest⟩ := ih hmore
        exact ⟨x :: a, th, b, rfl, hfailed, hrest⟩
      · obtain ⟨th, hth, hfailed⟩ := h
        have hx : th = x := by
          rcases List.mem_cons.mp hth with hx | hin
          · exact hx
          · exact absurd ⟨th, hin, hfailed⟩ hmore
        subst hx
        exact ⟨[], th, t, rfl, hfailed, fun y hy hstate => hmore ⟨y, hy, hstate⟩⟩

/-! ## The largest code -/

/-- No code is above `M`, and a host that failed has `M` or makes it up with `RC_FAILED`. -/
theorem exitLoop_eq_of_failed (hfailed : ∃ th ∈ t, th.state = .failed) (hle : ∀ th ∈ t, th.rc ≤ M)
    (hmax : ∀ th ∈ t, th.state = .failed → max th.rc RC_FAILED = M) (rc : Int) : exitLoop rc t = M := by
  obtain ⟨a, th, b, rfl, hlast, hrest⟩ := exists_last_failed hfailed
  rw [exitLoop_last_failed hlast, hmax th (by simp) hlast]
  obtain ⟨hup, -, hsome⟩ := @exitLoop_ended b M hrest
  rcases hsome with heq | ⟨x, hx, heq⟩
  · exact heq
  · have hx' := hle x (by simp [hx])
    omega

/-- In every order of the hosts the exit value is the largest of what they count. -/
def ExitsWithLargest (t : List ThdExit) : Prop :=
  IsGreatest (CountedCodes t) (dshExitValue true t) ∧
    ∀ t', t'.Perm t → dshExitValue true t' = dshExitValue true t

theorem exitsWithLargest_of_forall
    (h : ∀ t', t'.Perm t → IsGreatest (CountedCodes t) (exitLoop 0 t')) : ExitsWithLargest t :=
  ⟨h t (List.Perm.refl t), fun t' horder => (h t' horder).unique (h t (List.Perm.refl t))⟩

/-- Without a host that failed, the value the loop starts with must not be above all codes. -/
theorem exitsWithLargest_ended (hended : ∀ th ∈ t, th.state ≠ .failed) :
    ExitsWithLargest t ↔ ∃ th ∈ t, 0 ≤ th.rc := by
  obtain ⟨hzero, -, -⟩ := @exitLoop_ended t 0 hended
  constructor
  · rintro ⟨⟨⟨th, hth, hcode⟩, -⟩, -⟩
    rw [counted_ended (hended th hth)] at hcode
    exact ⟨th, hth, hcode ▸ hzero⟩
  · rintro ⟨big, hbig, hnonneg⟩
    refine exitsWithLargest_of_forall fun t' horder => ?_
    obtain ⟨-, hall, hsome⟩ := @exitLoop_ended t' 0 fun th hth => hended th (horder.mem_iff.mp hth)
    constructor
    · rcases hsome with heq | ⟨th, hth, heq⟩
      · have hle := hall big (horder.mem_iff.mpr hbig)
        exact ⟨big, hbig, by rw [counted_ended (hended big hbig)]; omega⟩
      · have hin := horder.mem_iff.mp hth
        exact ⟨th, hin, by rw [counted_ended (hended th hin), heq]⟩
    · rintro c ⟨th, hth, rfl⟩
      rw [counted_ended (hended th hth)]
      exact hall th (horder.mem_iff.mpr hth)

/-- With hosts that failed, each of them could have been the last one. -/
theorem max_of_exitsWithLargest (h : ExitsWithLargest t) :
    ∀ th ∈ t, th.state = .failed → max th.rc RC_FAILED = exitLoop 0 t := by
  intro th hth hstate
  have horder : ((t.erase th) ++ [th]).Perm t :=
    (List.perm_append_singleton th _).trans (List.perm_cons_erase hth).symm
  have hsame := h.2 _ horder
  rwa [dshExitValue, if_pos rfl, exitLoop_last_failed hstate] at hsame

theorem exitsWithLargest_failed (hfailed : ∃ th ∈ t, th.state = .failed) :
    ExitsWithLargest t ↔ ∃ M, (∀ th ∈ t, th.rc ≤ M) ∧
      (∀ th ∈ t, th.state = .failed → max th.rc RC_FAILED = M) ∧ ∃ th ∈ t, counted th = M := by
  constructor
  · intro h
    have hmax := max_of_exitsWithLargest h
    obtain ⟨⟨big, hupper⟩, -⟩ := h
    refine ⟨exitLoop 0 t, fun th hth => ?_, hmax, big⟩
    by_cases hstate : th.state = .failed
    · have hlast := hmax th hth hstate
      omega
    · rw [← counted_ended hstate]
      exact hupper ⟨th, hth, rfl⟩
  · rintro ⟨M, hle, hmax, big⟩
    refine exitsWithLargest_of_forall fun t' horder => ?_
    rw [exitLoop_eq_of_failed (M := M)]
    · refine ⟨big, ?_⟩
      rintro c ⟨th, hth, rfl⟩
      by_cases hstate : th.state = .failed
      · have hlast := hmax th hth hstate
        rw [counted_failed hstate]
        omega
      · rw [counted_ended hstate]
        exact hle th hth
    · obtain ⟨th, hth, hstate⟩ := hfailed
      exact ⟨th, horder.mem_iff.mpr hth, hstate⟩
    · exact fun th hth => hle th (horder.mem_iff.mp hth)
    · exact fun th hth => hmax th (horder.mem_iff.mp hth)

/-- The largest code is the exit value in every order exactly where no host failed and some code is
not negative, where some failed and no code is above `RC_FAILED`, and where all that failed have the
largest code and one that ended has it as well. -/
theorem dsh_exit_value_iff (t : List ThdExit) :
    (IsGreatest (CountedCodes t) (dshExitValue true t) ∧
      ∀ t', t'.Perm t → dshExitValue true t' = dshExitValue true t) ↔
      ((∀ th ∈ t, th.state ≠ .failed) ∧ ∃ th ∈ t, 0 ≤ th.rc) ∨
      ((∃ th ∈ t, th.state = .failed) ∧ ∀ th ∈ t, th.rc ≤ RC_FAILED) ∨
      ((∃ th ∈ t, th.state = .failed) ∧ ∃ M > RC_FAILED, (∃ th ∈ t, th.state ≠ .failed ∧ th.rc = M) ∧
        ∀ th ∈ t, th.rc ≤ M ∧ (th.state = .failed → th.rc = M)) := by
  show ExitsWithLargest t ↔ _
  by_cases hfailed : ∃ th ∈ t, th.state = .failed
  · have hnot : ¬ ∀ th ∈ t, th.state ≠ .failed := by
      obtain ⟨th, hth, hstate⟩ := hfailed
      exact fun h => h th hth hstate
    rw [exitsWithLargest_failed hfailed]
    simp only [hfailed, hnot, false_and, true_and, false_or]
    constructor
    · rintro ⟨M, hle, hmax, big, hbig, hcode⟩
      have hbound : RC_FAILED ≤ M := by
        obtain ⟨th, hth, hstate⟩ := hfailed
        rw [← hmax th hth hstate]
        exact le_max_right _ _
      rcases hbound.eq_or_lt with heq | habove
      · left
        rwa [heq]
      · have hstate : big.state ≠ .failed := by
          intro hstate
          rw [counted_failed hstate] at hcode
          omega
        refine .inr ⟨M, habove, ⟨big, hbig, hstate, (counted_ended hstate).symm.trans hcode⟩,
          fun th hth => ⟨hle th hth, fun hfail => ?_⟩⟩
        have hlast := hmax th hth hfail
        omega
    · rintro (hall | ⟨M, habove, ⟨big, hbig, hstate, hcode⟩, hrest⟩)
      · obtain ⟨th, hth, hstate⟩ := hfailed
        exact ⟨RC_FAILED, hall, fun th hth _ => max_eq_right (hall th hth), th, hth, counted_failed hstate⟩
      · refine ⟨M, fun th hth => (hrest th hth).1, fun th hth hfail => ?_, big, hbig,
          (counted_ended hstate).trans hcode⟩
        rw [(hrest th hth).2 hfail]
        exact max_eq_left habove.le
  · have hended : ∀ th ∈ t, th.state ≠ .failed := fun th hth hstate => hfailed ⟨th, hth, hstate⟩
    rw [exitsWithLargest_ended hended]
    simp only [hfailed, false_and, or_false]
    exact (and_iff_right hended).symm

/-- `ssh` exits with 255 for the first host; the connection to the second one fails. -/
theorem dsh_exit_value_lost :
    let t := [rshThreadEnd ⟨.reading, 0⟩ .done 255, rshThreadEnd ⟨.rcmd, 0⟩ .failed 0]
    IsGreatest (CountedCodes t) 255 ∧ dshExitValue true t = 254 ∧ dshExitValue true t.reverse = 255 := by
  refine ⟨⟨⟨⟨.done, 255⟩, by simp [rshThreadEnd], rfl⟩, ?_⟩, rfl, rfl⟩
  rintro c ⟨th, hth, rfl⟩
  simp only [List.mem_cons, List.not_mem_nil, or_false] at hth
  rcases hth with rfl | rfl <;> decide

end Pdsh.Dsh
