import Mathlib.Order.Lattice
import Mathlib.Data.List.Basic

/-!
# A place with one holder

Elements come one after the other. One that beats the holder by its key removes it, and takes
the place if it is fit to; one that is not fit leaves it empty. `holder_iff` says when the best
fit element holds the place in the end.
-/

namespace Lib.Holder

variable {α κ : Type} [LinearOrder κ] {key : α → κ} {fit : α → Bool}

/-- The holder behind one more element. -/
def challenge (key : α → κ) (fit : α → Bool) (holder : Option α) (x : α) : Option α :=
  match holder with
  | none => if fit x then some x else none
  | some m => if key m < key x then (if fit x then some x else none) else some m

/-- The holder in the end. -/
def holder (key : α → κ) (fit : α → Bool) (cur : Option α) (l : List α) : Option α :=
  l.foldl (challenge key fit) cur

/-- The best fit element: those before it are below it, those behind it not above it. -/
structure Best (key : α → κ) (fit : α → Bool) (before : List α) (m : α) (after : List α) : Prop where
  best : fit m = true
  above : ∀ x ∈ before, fit x = true → key x < key m
  level : ∀ x ∈ after, fit x = true → key x ≤ key m

variable {l before after before' after' : List α} {m m' x : α} {cur : Option α}

/-- One fit element is the best one. -/
theorem exists_best (h : ∃ x ∈ l, fit x = true) :
    ∃ before m after, l = before ++ m :: after ∧ Best key fit before m after := by
  induction l with
  | nil =>
      obtain ⟨x, hx, -⟩ := h
      cases hx
  | cons y l ih =>
      by_cases hrest : ∃ x ∈ l, fit x = true
      · obtain ⟨before, m, after, rfl, hbest⟩ := ih hrest
        by_cases hy : fit y = true ∧ key m ≤ key y
        · -- `y` comes first and is not below the best one behind it
          refine ⟨[], y, before ++ m :: after, rfl, hy.1, fun x hx => absurd hx List.not_mem_nil, ?_⟩
          intro x hx hfit
          rcases List.mem_append.mp hx with hx | hx
          · exact le_trans (le_of_lt (hbest.above x hx hfit)) hy.2
          · rcases List.mem_cons.mp hx with rfl | hx
            · exact hy.2
            · exact le_trans (hbest.level x hx hfit) hy.2
        · refine ⟨y :: before, m, after, rfl, hbest.best, ?_, hbest.level⟩
          intro x hx hfit
          rcases List.mem_cons.mp hx with rfl | hx
          · exact not_le.mp fun hle => hy ⟨hfit, hle⟩
          · exact hbest.above x hx hfit
      · obtain ⟨x, hx, hfit⟩ := h
        rcases List.mem_cons.mp hx with rfl | hx
        · refine ⟨[], x, l, rfl, hfit, fun z hz => absurd hz List.not_mem_nil, fun z hz hz' => ?_⟩
          exact absurd ⟨z, hz, hz'⟩ hrest
        · exact absurd ⟨x, hx, hfit⟩ hrest

/-- There is only one best element. -/
theorem Best.unique (h : Best key fit before m after) (h' : Best key fit before' m' after')
    (heq : before ++ m :: after = before' ++ m' :: after') : m = m' := by
  rcases List.append_eq_append_iff.mp heq with ⟨as, rfl, hrest⟩ | ⟨bs, rfl, hrest⟩
  · cases as with
    | nil => exact (List.cons.inj hrest).1
    | cons a as =>
        -- `m` stands before `m'`
        obtain ⟨rfl, rfl⟩ := List.cons.inj hrest
        have hlt := h'.above m (by simp) h.best
        have hle := h.level m' (by simp) h'.best
        exact absurd hlt (not_lt.mpr hle)
  · cases bs with
    | nil => exact (List.cons.inj hrest).1.symm
    | cons b bs =>
        obtain ⟨rfl, rfl⟩ := List.cons.inj hrest
        have hlt := h.above m' (by simp) h'.best
        have hle := h'.level m (by simp) h.best
        exact absurd hlt (not_lt.mpr hle)

theorem challenge_mem (h : challenge key fit cur x = some m) : cur = some m ∨ (m = x ∧ fit m = true) := by
  unfold challenge at h
  split at h
  · split at h
    · rename_i hfit
      cases h
      exact .inr ⟨rfl, hfit⟩
    · cases h
  · split at h
    · split at h
      · rename_i hfit
        cases h
        exact .inr ⟨rfl, hfit⟩
      · cases h
    · exact .inl h

/-- The holder comes from the list, and is fit, if it was not there before. -/
theorem holder_mem (h : holder key fit cur l = some m) : cur = some m ∨ (m ∈ l ∧ fit m = true) := by
  induction l generalizing cur with
  | nil => exact .inl h
  | cons y l ih =>
      rcases ih h with hcur | ⟨hmem, hfit⟩
      · rcases challenge_mem hcur with hcur | ⟨rfl, hfit⟩
        · exact .inl hcur
        · exact .inr ⟨List.mem_cons_self, hfit⟩
      · exact .inr ⟨List.mem_cons_of_mem _ hmem, hfit⟩

/-- Nobody beats the holder. -/
theorem holder_keeps (h : ∀ x ∈ l, key x ≤ key m) : holder key fit (some m) l = some m := by
  induction l with
  | nil => rfl
  | cons y l ih =>
      obtain ⟨hy, hl⟩ := List.forall_mem_cons.mp h
      have hstep : challenge key fit (some m) y = some m := if_neg (not_lt.mpr hy)
      show holder key fit (challenge key fit (some m) y) l = some m
      rw [hstep]
      exact ih hl

/-- A holder that is beaten does not come back. -/
theorem holder_loses (hm : m ∉ l) (h : ∃ x ∈ l, key m < key x) : holder key fit (some m) l ≠ some m := by
  induction l with
  | nil =>
      obtain ⟨x, hx, -⟩ := h
      cases hx
  | cons y l ih =>
      rw [List.mem_cons, not_or] at hm
      obtain ⟨hne, hl⟩ := hm
      intro hend
      by_cases hy : key m < key y
      · -- the place is empty or `y` has it
        rcases holder_mem (l := l) hend with hcur | ⟨hmem, -⟩
        · unfold challenge at hcur
          simp only [hy, if_true] at hcur
          split at hcur
          · cases hcur
            exact hne rfl
          · cases hcur
        · exact hl hmem
      · have hstep : challenge key fit (some m) y = some m := if_neg hy
        have hlater : ∃ x ∈ l, key m < key x := by
          obtain ⟨x, hx, hlt⟩ := h
          rcases List.mem_cons.mp hx with rfl | hx
          · exact absurd hlt hy
          · exact ⟨x, hx, hlt⟩
        refine ih hl hlater ?_
        have hnext : holder key fit (challenge key fit (some m) y) l = some m := hend
        rwa [hstep] at hnext

/-- The best fit element takes the place when it comes. -/
theorem holder_best (h : Best key fit before m after) : holder key fit none (before ++ [m]) = some m := by
  unfold holder
  rw [List.foldl_append]
  show challenge key fit (holder key fit none before) m = some m
  cases hcur : holder key fit none before with
  | none => exact if_pos h.best
  | some x =>
      rcases holder_mem hcur with hno | ⟨hmem, hfit⟩
      · cases hno
      · have hlt := h.above x hmem hfit
        simp only [challenge, hlt, if_true, h.best]

/-- The best fit element holds the place in the end if and only if nothing behind it, fit or not,
is above it. -/
theorem holder_iff (h : Best key fit before m after) (hm : m ∉ after) :
    holder key fit none (before ++ m :: after) = some m ↔ ∀ x ∈ after, key x ≤ key m := by
  have hsplit : holder key fit none (before ++ m :: after) = holder key fit (some m) after := by
    rw [← holder_best h]
    unfold holder
    rw [← List.foldl_append, List.append_assoc]
    rfl
  rw [hsplit]
  constructor
  · intro hend x hx
    by_contra hlt
    exact holder_loses hm ⟨x, hx, not_le.mp hlt⟩ hend
  · exact holder_keeps

/-- Where nothing is fit the place stays empty. -/
theorem holder_none (h : ∀ x ∈ l, fit x = false) : holder key fit none l = none := by
  cases hend : holder key fit none l with
  | none => rfl
  | some m =>
      rcases holder_mem hend with hno | ⟨hmem, hfit⟩
      · cases hno
      · rw [h m hmem] at hfit
        cases hfit

end Lib.Holder
