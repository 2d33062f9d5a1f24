import Mathlib.Data.List.Count

/-!
# Erasing one element for each request

`eraseAll p ds l` goes through the requests `ds` and erases for each the first element of `l`
it sees, if there is one. Where no two requests see the same element, as many elements seen by
a request are left as there are more of them than of the request, and an element no request
sees is left.
-/

namespace Lib

variable {α β δ : Type} {p : δ → α → Bool} {ds : List δ} {l : List α}

/-- The elements left. -/
def eraseAll (p : δ → α → Bool) (ds : List δ) (l : List α) : List α :=
  ds.foldl (fun l d => l.eraseP (p d)) l

theorem eraseAll_cons (d : δ) (ds : List δ) (l : List α) :
    eraseAll p (d :: ds) l = eraseAll p ds (l.eraseP (p d)) := rfl

theorem eraseAll_append (ds ds' : List δ) (l : List α) :
    eraseAll p (ds ++ ds') l = eraseAll p ds' (eraseAll p ds l) := List.foldl_append

theorem eraseAll_sublist (ds : List δ) (l : List α) : (eraseAll p ds l).Sublist l := by
  induction ds generalizing l with
  | nil => exact List.Sublist.refl l
  | cons d ds ih => exact (ih _).trans List.eraseP_sublist

theorem eraseAll_map {f : β → α} (ds : List δ) (l : List β) :
    eraseAll p ds (l.map f) = (eraseAll (fun d => p d ∘ f) ds l).map f := by
  induction ds generalizing l with
  | nil => rfl
  | cons d ds ih => rw [eraseAll_cons, eraseAll_cons, List.eraseP_map, ih]

theorem eraseAll_requests {f : β → δ} (ds : List β) (l : List α) :
    eraseAll p (ds.map f) l = eraseAll (fun d => p (f d)) ds l := List.foldl_map

/-- An element no request sees is left. -/
theorem mem_eraseAll_of_unseen {a : α} (hmem : a ∈ l) (hno : ∀ d ∈ ds, p d a = false) :
    a ∈ eraseAll p ds l := by
  induction ds generalizing l with
  | nil => exact hmem
  | cons d ds ih =>
      obtain ⟨hd, hds⟩ := List.forall_mem_cons.mp hno
      rw [eraseAll_cons]
      apply ih _ hds
      rw [List.mem_eraseP_of_neg (by simp [hd])]
      exact hmem

section Counts

variable [BEq δ] [LawfulBEq δ] {d : δ}

/-- One request leaves the elements another one sees, and takes one of its own. -/
theorem countP_eraseP {d' : δ} (h : ∀ a ∈ l, p d a → p d' a → d' = d) :
    (l.eraseP (p d')).countP (p d) = l.countP (p d) - if d' == d then 1 else 0 := by
  by_cases hex : ∃ a ∈ l, p d' a
  · obtain ⟨a, ha, hpa⟩ := hex
    obtain ⟨b, l₁, l₂, -, hpb, hl, herase⟩ := List.exists_of_eraseP ha hpa
    rw [herase]
    by_cases heq : d' = d
    · rw [hl, if_pos (beq_iff_eq.mpr heq), List.countP_append, List.countP_append,
        List.countP_cons_of_pos (by rw [← heq]; exact hpb)]
      omega
    · have hnot : ¬ p d b := fun hd => heq (h b (by simp [hl]) hd hpb)
      rw [hl, if_neg (by simp [heq]), List.countP_append, List.countP_append,
        List.countP_cons_of_neg hnot]
      rfl
  · have hnone : ∀ a ∈ l, ¬ p d' a := fun a ha hpa => hex ⟨a, ha, hpa⟩
    rw [List.eraseP_of_forall_not hnone]
    split
    · rename_i heq
      rw [beq_iff_eq] at heq
      rw [List.countP_eq_zero.mpr (heq ▸ hnone)]
    · rfl

/-- As many elements are left as there are more of them than of the request. -/
theorem countP_eraseAll (h : ∀ a ∈ l, ∀ d' ∈ ds, p d a → p d' a → d' = d) :
    (eraseAll p ds l).countP (p d) = l.countP (p d) - ds.count d := by
  induction ds generalizing l with
  | nil => rfl
  | cons d' ds ih =>
      have hhead : ∀ a ∈ l, p d a → p d' a → d' = d := fun a ha => h a ha d' List.mem_cons_self
      have htail : ∀ a ∈ l.eraseP (p d'), ∀ d'' ∈ ds, p d a → p d'' a → d'' = d := by
        intro a ha d'' hd''
        exact h a (List.mem_of_mem_eraseP ha) d'' (List.mem_cons_of_mem _ hd'')
      rw [eraseAll_cons, ih htail, countP_eraseP hhead, List.count_cons]
      omega

end Counts

/-- What is in no element a request sees stays as often as it was. -/
theorem count_flatMap_eraseAll [BEq β] [LawfulBEq β] {f : α → List β} {b : β}
    (h : ∀ a ∈ l, ∀ d ∈ ds, p d a → b ∉ f a) :
    ((eraseAll p ds l).flatMap f).count b = (l.flatMap f).count b := by
  induction ds generalizing l with
  | nil => rfl
  | cons d ds ih =>
      have htail : ∀ a ∈ l.eraseP (p d), ∀ d' ∈ ds, p d' a → b ∉ f a := by
        intro a ha d' hd'
        exact h a (List.mem_of_mem_eraseP ha) d' (List.mem_cons_of_mem _ hd')
      rw [eraseAll_cons, ih htail]
      rcases List.exists_or_eq_self_of_eraseP (p d) l with heq | ⟨a, l₁, l₂, -, hpa, hl, herase⟩
      · rw [heq]
      · have hnot := h a (by simp [hl]) d List.mem_cons_self hpa
        rw [herase, hl, List.flatMap_append, List.flatMap_append, List.flatMap_cons,
          List.count_append, List.count_append, List.count_append, List.count_eq_zero.mpr hnot,
          Nat.zero_add]

end Lib
