import Mathlib.Data.List.Basic

/-!
# Taking a store apart

A store is taken apart by calls that each take a part off it. Where it is made of chunks and a call
takes the first one, provided that chunk can be taken, it is taken apart exactly when all its chunks
can (`drained_iff`).
-/

namespace Lib

/-- Calls take parts off a store until it is empty. -/
inductive Drained {σ π : Type} (Part : σ → π → σ → Prop) (Empty : σ → Prop) : σ → Prop where
  | empty {s : σ} (h : Empty s) : Drained Part Empty s
  | part {s s' : σ} {p : π} (h : Part s p s') (rest : Drained Part Empty s') : Drained Part Empty s

variable {σ π γ : Type} {Part : σ → π → σ → Prop} {Empty Inv : σ → Prop} {chunks : σ → List γ} {Ok : γ → Prop}
  {s : σ}

/-- A call takes the first chunk, if it can be taken. -/
structure TakesFirst (Part : σ → π → σ → Prop) (Empty Inv : σ → Prop) (chunks : σ → List γ) (Ok : γ → Prop) :
    Prop where
  empty : ∀ s, Inv s → (Empty s ↔ chunks s = [])
  some : ∀ s p s', Inv s → Part s p s' → ∃ c, chunks s = c :: chunks s' ∧ Ok c ∧ Inv s'
  first : ∀ s c rest, Inv s → chunks s = c :: rest → Ok c → ∃ p s', Part s p s'

theorem drained_iff (h : TakesFirst Part Empty Inv chunks Ok) (hs : Inv s) :
    Drained Part Empty s ↔ ∀ c ∈ chunks s, Ok c := by
  constructor
  · intro hd
    induction hd with
    | empty hempty =>
        rw [(h.empty _ hs).mp hempty]
        simp
    | part hpart _ ih =>
        obtain ⟨c, hchunks, hc, hs'⟩ := h.some _ _ _ hs hpart
        rw [hchunks]
        exact List.forall_mem_cons.mpr ⟨hc, ih hs'⟩
  · intro hall
    generalize hl : chunks s = l at hall
    induction l generalizing s with
    | nil => exact .empty ((h.empty s hs).mpr hl)
    | cons c l ih =>
        obtain ⟨hc, hrest⟩ := List.forall_mem_cons.mp hall
        obtain ⟨p, s', hpart⟩ := h.first s c l hs hl hc
        obtain ⟨c', hchunks, -, hs'⟩ := h.some s p s' hs hpart
        rw [hl, List.cons.injEq] at hchunks
        exact .part hpart (ih hs' hchunks.2.symm hrest)

end Lib
