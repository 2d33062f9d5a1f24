import Mathlib.Data.List.Basic
import Mathlib.Tactic

/-!
# Merging neighbours

A list is gone through from the left with one element in hand. The next element is either
joined to it, or it is put out and the next one is taken in hand; both may be changed a little
when they are looked at. What the elements stand for is a list `f a`, and a join may drop
values that both stand for.
-/

namespace Lib.Merge

variable {α β : Type} {joined : α → α → α → Nat → Prop} {apart : α → α → α → α → Prop}

/-- The list `l` behind the element `a` in hand becomes `out`; the joins dropped `n` values. -/
inductive Merges (joined : α → α → α → Nat → Prop) (apart : α → α → α → α → Prop) :
    α → List α → List α → Nat → Prop where
  | nil (a : α) : Merges joined apart a [] [a] 0
  | join {a b c : α} {l out : List α} {m n : Nat} (h : joined a b c m)
      (rest : Merges joined apart c l out n) : Merges joined apart a (b :: l) out (m + n)
  | apart {a b a' b' : α} {l out : List α} {n : Nat} (h : apart a b a' b')
      (rest : Merges joined apart b' l out n) : Merges joined apart a (b :: l) (a' :: out) n

variable {a : α} {l out : List α} {n : Nat} {f : α → List β}

/-- No value is lost and none is new. -/
theorem Merges.mem_iff (hm : Merges joined apart a l out n)
    (hjoin : ∀ a b c m, joined a b c m → ∀ x, x ∈ f c ↔ x ∈ f a ∨ x ∈ f b)
    (hapart : ∀ a b a' b', apart a b a' b' → f a' = f a ∧ f b' = f b) (x : β) :
    x ∈ out.flatMap f ↔ x ∈ (a :: l).flatMap f := by
  induction hm with
  | nil => rfl
  | join h _ ih =>
      rw [ih]
      simp only [List.flatMap_cons, List.mem_append, hjoin _ _ _ _ h x, or_assoc]
  | apart h _ ih =>
      obtain ⟨hleft, hright⟩ := hapart _ _ _ _ h
      simp only [List.flatMap_cons, List.mem_append, hright] at ih
      simp only [List.flatMap_cons, List.mem_append, hleft, ih]

/-- The values that are left and those that were dropped are all there were. -/
theorem Merges.length_add (hm : Merges joined apart a l out n)
    (hjoin : ∀ a b c m, joined a b c m → (f c).length + m = (f a).length + (f b).length)
    (hapart : ∀ a b a' b', apart a b a' b' → f a' = f a ∧ f b' = f b) :
    (out.flatMap f).length + n = ((a :: l).flatMap f).length := by
  induction hm with
  | nil => rfl
  | join h _ ih =>
      have hlength := hjoin _ _ _ _ h
      simp only [List.flatMap_cons, List.length_append] at ih ⊢
      omega
  | apart h _ ih =>
      obtain ⟨hleft, hright⟩ := hapart _ _ _ _ h
      simp only [List.flatMap_cons, List.length_append, hright] at ih
      simp only [List.flatMap_cons, List.length_append, hleft]
      omega

/-- What holds of every element at hand holds of the ones put out. -/
theorem Merges.forall_mem {P : α → Prop} (hm : Merges joined apart a l out n)
    (hjoin : ∀ a b c m, joined a b c m → P a → P b → P c)
    (hapart : ∀ a b a' b', apart a b a' b' → P a → P b → P a' ∧ P b') (ha : P a) (hl : ∀ b ∈ l, P b) :
    ∀ b ∈ out, P b := by
  induction hm with
  | nil => exact fun b hb => (List.mem_singleton.mp hb) ▸ ha
  | join h _ ih =>
      obtain ⟨hb, hrest⟩ := List.forall_mem_cons.mp hl
      exact ih (hjoin _ _ _ _ h ha hb) hrest
  | apart h _ ih =>
      obtain ⟨hb, hrest⟩ := List.forall_mem_cons.mp hl
      obtain ⟨ha', hb'⟩ := hapart _ _ _ _ h ha hb
      exact List.forall_mem_cons.mpr ⟨ha', ih hb' hrest⟩

end Lib.Merge
