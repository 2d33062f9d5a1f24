/-!
# Runs of a transition system

A transition system is a partial function: `step s a` is the state behind the
action `a`, and none when `a` is not enabled in `s`. A run is judged step by step:
`Steps step ok s s'` leads from `s` to `s'` by steps that all meet `ok`, a condition
on the action and the state before it.
-/

namespace Lib.Transition

variable {σ α : Type} {step : σ → α → Option σ} {ok ok' : σ → α → Prop} {s s' s'' : σ}

/-- A run from `s`, each step of which meets `ok`. -/
inductive Steps (step : σ → α → Option σ) (ok : σ → α → Prop) (s : σ) : σ → Prop where
  | refl : Steps step ok s s
  | tail {s' s'' : σ} {a : α} (run : Steps step ok s s') (hok : ok s' a)
      (hstep : step s' a = some s'') : Steps step ok s s''

/-- No condition on the steps. -/
def anyStep (_ : σ) (_ : α) : Prop := True

/-- The actions one after the other; none when one of them is not enabled. -/
def replay (step : σ → α → Option σ) (s : σ) (as : List α) : Option σ := as.foldlM step s

/-- The system that stops where `ok` is not met. -/
def checked (step : σ → α → Option σ) (ok : σ → α → Prop) [∀ s a, Decidable (ok s a)] (s : σ) (a : α) :
    Option σ := if ok s a then step s a else none

namespace Steps

/-- What every step keeps, a run keeps. -/
theorem invariant {I : σ → Prop} (h : Steps step ok s s') (hs : I s)
    (hstep : ∀ s a s', I s → ok s a → step s a = some s' → I s') : I s' := by
  induction h with
  | refl => exact hs
  | tail _ hok hnext ih => exact hstep _ _ _ ih hok hnext

theorem trans (h : Steps step ok s s') (h' : Steps step ok s' s'') : Steps step ok s s'' := by
  induction h' with
  | refl => exact h
  | tail _ hok hnext ih => exact .tail ih hok hnext

theorem mono (h : Steps step ok s s') (hok : ∀ s a, ok s a → ok' s a) : Steps step ok' s s' := by
  induction h with
  | refl => exact .refl
  | tail _ hstep hnext ih => exact .tail ih (hok _ _ hstep) hnext

/-- A replay is a run, and one of a system that checks `ok` a run whose steps meet it. -/
theorem of_replay {check : σ → α → Option σ}
    (hcheck : ∀ s a s', check s a = some s' → ok s a ∧ step s a = some s') {as : List α}
    (h : replay check s as = some s') : Steps step ok s s' := by
  have hrun : ∀ (as : List α) (t : σ), Steps step ok s t → replay check t as = some s' →
      Steps step ok s s' := by
    intro as
    induction as with
    | nil =>
        intro t ht hreplay
        cases hreplay
        exact ht
    | cons a as ih =>
        intro t ht hreplay
        obtain ⟨u, hu, hrest⟩ := Option.bind_eq_some_iff.mp hreplay
        obtain ⟨hok, hstep⟩ := hcheck t a u hu
        exact ih u (.tail ht hok hstep) hrest
  exact hrun as s .refl h

theorem of_checked [∀ s a, Decidable (ok s a)] {as : List α}
    (h : replay (checked step ok) s as = some s') : Steps step ok s s' := by
  apply of_replay _ h
  intro s a s' hcheck
  exact Option.ite_none_right_eq_some.mp hcheck

end Steps

/-! ## Traces -/

/-- A run from `s` to a state: `R s i o s'` takes the command `i` and gives the answer `o`. -/
inductive Trace {ι ω : Type} (R : σ → ι → ω → σ → Prop) (s : σ) : List (ι × ω) → σ → Prop where
  | nil : Trace R s [] s
  | snoc {t t' : σ} {tr : List (ι × ω)} {i : ι} {o : ω} (run : Trace R s tr t) (hstep : R t i o t') :
      Trace R s (tr ++ [(i, o)]) t'

theorem Trace.cons {ι ω : Type} {R : σ → ι → ω → σ → Prop} {tr : List (ι × ω)} {i : ι} {o : ω}
    (hstep : R s i o s') (h : Trace R s' tr s'') : Trace R s ((i, o) :: tr) s'' := by
  induction h with
  | nil => exact .snoc .nil hstep
  | snoc _ hnext ih => exact ih.snoc hnext

theorem Trace.of_snoc {ι ω : Type} {R : σ → ι → ω → σ → Prop} {tr : List (ι × ω)} {i : ι} {o : ω}
    (h : Trace R s (tr ++ [(i, o)]) s') : ∃ t, Trace R s tr t ∧ R t i o s' := by
  generalize htr : tr ++ [(i, o)] = whole at h
  cases h with
  | nil => exact absurd htr (by simp)
  | snoc run hstep =>
      obtain ⟨rfl, hlast⟩ := List.append_inj' htr rfl
      cases hlast
      exact ⟨_, run, hstep⟩

/-- What one machine can answer another can, when that holds of every step. -/
theorem Trace.simulate {ι ω τ : Type} {R : σ → ι → ω → σ → Prop} {S : τ → ι → ω → τ → Prop}
    {V : σ → τ → Prop}
    (hstep : ∀ s i o s' t, V s t → R s i o s' → ∃ t', S t i o t' ∧ V s' t') {t : τ}
    (hinit : V s t) {tr : List (ι × ω)} (h : Trace R s tr s') : ∃ t', Trace S t tr t' ∧ V s' t' := by
  induction h with
  | nil => exact ⟨t, .nil, hinit⟩
  | snoc _ hnext ih =>
      obtain ⟨u, hrun, hrel⟩ := ih
      obtain ⟨u', hlast, hrel'⟩ := hstep _ _ _ _ u hrel hnext
      exact ⟨u', .snoc hrun hlast, hrel'⟩

/-! ## What every run comes to -/

/-- Every run comes to a state with `P`, after finitely many steps and without getting stuck before. -/
inductive Inevitable {σ : Type} (R : σ → σ → Prop) (P : σ → Prop) : σ → Prop where
  | now {s : σ} (h : P s) : Inevitable R P s
  | next {s : σ} (hsome : ∃ s', R s s') (hall : ∀ s', R s s' → Inevitable R P s') :
      Inevitable R P s

theorem Inevitable.mono {R : σ → σ → Prop} {P Q : σ → Prop} (h : Inevitable R P s)
    (hPQ : ∀ s, P s → Q s) : Inevitable R Q s := by
  induction h with
  | now h => exact .now (hPQ _ h)
  | next hsome _ ih => exact .next hsome ih

/-- Where an invariant lets a step be taken, and every step goes down, every run ends. -/
theorem Inevitable.of_wf {R lt : σ → σ → Prop} {P I : σ → Prop} (hwf : WellFounded lt)
    (hprogress : ∀ s, I s → P s ∨ ∃ s', R s s') (hstep : ∀ s s', I s → R s s' → I s' ∧ lt s' s)
    (hs : I s) : Inevitable R P s := by
  induction s using hwf.induction with
  | _ s ih =>
    rcases hprogress s hs with hend | hsome
    · exact .now hend
    · exact .next hsome fun s' hs' => ih s' (hstep s s' hs hs').2 (hstep s s' hs hs').1

end Lib.Transition
