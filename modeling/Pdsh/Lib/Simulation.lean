import Pdsh.Lib.Run

/-!
# Simulation of one machine by another

Two machines take the same commands and answer each of them: `step` is a call
that changes a state and returns an answer. When every legal command keeps two
states related and is answered alike, so does every legal sequence of commands
(`runs_rel`). What is legal is judged on the left machine alone, which is the
abstract one.
-/

namespace Lib.Simulation

open Lib.Run

variable {ε ι α β ω : Type}

/-- One command after the other; the answers in order. -/
def runs (step : ι → α → Run ε (α × ω)) : List ι → α → Run ε (α × List ω)
  | [], s => .ret (s, [])
  | i :: rest, s => do
      let r ← step i s
      let rs ← runs step rest r.1
      pure (rs.1, r.2 :: rs.2)

/-- Every command is legal in the state it is given in. -/
def Legal (step : ι → α → Run ε (α × ω)) (ok : ι → α → Prop) : List ι → α → Prop
  | [], _ => True
  | i :: rest, s => ok i s ∧ ∀ r, step i s = .ret r → Legal step ok rest r.1

theorem legal_cons {step : ι → α → Run ε (α × ω)} {ok : ι → α → Prop} {i : ι} {rest : List ι}
    {s : α} {r : α × ω} (hr : step i s = .ret r) (hok : ok i s) (hrest : Legal step ok rest r.1) :
    Legal step ok (i :: rest) s := by
  refine ⟨hok, fun r' hr' => ?_⟩
  rw [hr] at hr'
  cases hr'
  exact hrest

/-- Related states, and the same answer. -/
def Answers {γ : Type} (R : α → β → Prop) (x : α × γ) (y : β × γ) : Prop := R x.1 y.1 ∧ x.2 = y.2

/-- What each legal command preserves, every legal sequence preserves. -/
theorem runs_rel {R : α → β → Prop} {ok : ι → α → Prop} {astep : ι → α → Run ε (α × ω)}
    {cstep : ι → β → Run ε (β × ω)}
    (hstep : ∀ i a c, R a c → ok i a → Rel (Answers R) (astep i a) (cstep i c))
    {is : List ι} {a : α} {c : β} (h : R a c) (hlegal : Legal astep ok is a) :
    Rel (Answers R) (runs astep is a) (runs cstep is c) := by
  induction is generalizing a c with
  | nil => exact ⟨h, rfl⟩
  | cons i rest ih =>
      obtain ⟨hok, hrest⟩ := hlegal
      refine (hstep i a c h hok).bind fun r r' hr _ hrel => ?_
      refine (ih hrel.1 (hrest r hr)).bind fun rs rs' _ _ hrels => ?_
      refine ⟨hrels.1, ?_⟩
      show r.2 :: rs.2 = r'.2 :: rs'.2
      rw [hrel.2, hrels.2]

end Lib.Simulation
