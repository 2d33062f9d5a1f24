import Pdsh.Lib.Transition

/-!
# What is seen of a run

Each step of a transition system shows something, mostly nothing: `see s a` is what the
action `a` shows in the state `s`. Two systems are compared by what their runs show; the
steps that show nothing may differ in number and place.
-/

namespace Lib.Observed

open Lib.Transition

variable {σ τ α β ω : Type} {step : σ → α → Option σ} {ok : σ → α → Prop} {see : σ → α → List ω}
  {s s' s'' : σ} {obs obs' : List ω}

/-- A run from `s` each step of which meets `ok`, with what it shows. -/
inductive Seen (step : σ → α → Option σ) (ok : σ → α → Prop) (see : σ → α → List ω) (s : σ) :
    List ω → σ → Prop where
  | refl : Seen step ok see s [] s
  | tail {obs : List ω} {s' s'' : σ} {a : α} (run : Seen step ok see s obs s') (hok : ok s' a)
      (hstep : step s' a = some s'') : Seen step ok see s (obs ++ see s' a) s''

namespace Seen

/-- A run that takes one step. -/
theorem single {a : α} (hok : ok s a) (hstep : step s a = some s') :
    Seen step ok see s (see s a) s' := .tail .refl hok hstep

theorem trans (h : Seen step ok see s obs s') (h' : Seen step ok see s' obs' s'') :
    Seen step ok see s (obs ++ obs') s'' := by
  induction h' with
  | refl =>
      rw [List.append_nil]
      exact h
  | tail _ hok hnext ih =>
      rw [← List.append_assoc]
      exact .tail ih hok hnext

/-- The run, without what it shows. -/
theorem steps (h : Seen step ok see s obs s') : Steps step ok s s' := by
  induction h with
  | refl => exact .refl
  | tail _ hok hnext ih => exact .tail ih hok hnext

/-- What every step keeps of what was shown and the state, a run keeps. -/
theorem invariant {I : List ω → σ → Prop} (h : Seen step ok see s obs s') (hs : I [] s)
    (hstep : ∀ obs s a s', I obs s → ok s a → step s a = some s' → I (obs ++ see s a) s') :
    I obs s' := by
  induction h with
  | refl => exact hs
  | tail _ hok hnext ih => exact hstep _ _ _ _ ih hok hnext

/-- One system shows what the other does, when each step can be matched by a run that
shows the same. -/
theorem simulate {V : σ → τ → Prop} {step' : τ → β → Option τ} {ok' : τ → β → Prop}
    {see' : τ → β → List ω}
    (hstep : ∀ s a s' t, V s t → ok s a → step s a = some s' →
      ∃ t', Seen step' ok' see' t (see s a) t' ∧ V s' t')
    {t : τ} (hinit : V s t) (h : Seen step ok see s obs s') :
    ∃ t', Seen step' ok' see' t obs t' ∧ V s' t' := by
  induction h with
  | refl => exact ⟨t, .refl, hinit⟩
  | tail _ hok hnext ih =>
      obtain ⟨u, hrun, hrel⟩ := ih
      obtain ⟨u', hlast, hrel'⟩ := hstep _ _ _ u hrel hok hnext
      exact ⟨u', hrun.trans hlast, hrel'⟩

end Seen

/-! ## Given runs -/

/-- What the actions show, one after the other. -/
def shown (step : σ → α → Option σ) (see : σ → α → List ω) (s : σ) : List α → List ω
  | [] => []
  | a :: as => see s a ++ (step s a).elim [] fun s' => shown step see s' as

/-- The replay of actions that meet `ok` is a run. -/
theorem Seen.of_checked [∀ s a, Decidable (ok s a)] {as : List α}
    (h : replay (checked step ok) s as = some s') : Seen step ok see s (shown step see s as) s' := by
  induction as generalizing s with
  | nil =>
      cases h
      exact .refl
  | cons a as ih =>
      obtain ⟨u, hu, hrest⟩ := Option.bind_eq_some_iff.mp h
      obtain ⟨hok, hstep⟩ := Option.ite_none_right_eq_some.mp hu
      show Seen step ok see s (see s a ++ (step s a).elim [] fun s' => shown step see s' as) s'
      rw [hstep]
      exact (Seen.single hok hstep).trans (ih hrest)

end Lib.Observed
