/-!
# What a producer yields

A producer is a function that is called again and again: each call gives an
element and a new state, until a call gives nothing. `Yields step s l` says that
the calls from state `s` on give the elements of `l` and then nothing.
-/

namespace Lib

/-- The calls from `s` on give `l` and then nothing. -/
inductive Yields {σ α : Type} (step : σ → Option α × σ) : σ → List α → Prop where
  | stop {s : σ} (h : (step s).1 = none) : Yields step s []
  | next {s : σ} {a : α} {l : List α} (h : (step s).1 = some a) (rest : Yields step (step s).2 l) :
      Yields step s (a :: l)

namespace Yields

variable {σ α : Type} {step : σ → Option α × σ} {s : σ} {l l' : List α}

/-- A producer yields one list. -/
theorem unique (h : Yields step s l) (h' : Yields step s l') : l = l' := by
  induction h generalizing l' with
  | stop h =>
      cases h' with
      | stop => rfl
      | next hsome => rw [h] at hsome; cases hsome
  | next h _ ih =>
      cases h' with
      | stop hnone => rw [h] at hnone; cases hnone
      | next hsome rest =>
          rw [h, Option.some.injEq] at hsome
          rw [hsome, ih rest]

/-- A producer that keeps an invariant and gives the head of a list that it
shortens by that head yields the list. -/
theorem of_head (Inv : σ → Prop) (content : σ → List α) (hhead : ∀ s, Inv s →
      (step s).1 = (content s).head? ∧ Inv (step s).2 ∧ content (step s).2 = (content s).tail)
    (hs : Inv s) : Yields step s (content s) := by
  generalize hl : content s = l
  induction l generalizing s with
  | nil =>
      have hstep := (hhead s hs).1
      rw [hl] at hstep
      exact .stop hstep
  | cons a l ih =>
      obtain ⟨hstep, hinv, hrest⟩ := hhead s hs
      rw [hl] at hstep hrest
      exact .next hstep (ih hinv hrest)

end Yields

end Lib
