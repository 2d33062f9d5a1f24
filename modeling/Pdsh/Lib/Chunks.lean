import Mathlib.Data.List.Basic
import Mathlib.Tactic

/-!
# Lists stored as chunks

A long list is often stored as a short list of chunks: `f` says what each
chunk stands for, and `chunks.flatMap f` is the list that is meant. A position
in the long list belongs to one chunk (`exists_chunk`), and a change inside
that chunk changes the long list at the same place.
-/

namespace Lib.Chunks

variable {α β : Type} {f : α → List β}

/-- Every position lies in one chunk, at some offset. -/
theorem exists_chunk {chunks : List α} {n : Nat} (h : n < (chunks.flatMap f).length) :
    ∃ pre c post k, chunks = pre ++ c :: post ∧ n = (pre.flatMap f).length + k ∧
      k < (f c).length := by
  induction chunks generalizing n with
  | nil => simp at h
  | cons c rest ih =>
      by_cases hn : n < (f c).length
      · exact ⟨[], c, rest, n, rfl, by simp, hn⟩
      · rw [List.flatMap_cons, List.length_append] at h
        obtain ⟨pre, d, post, k, hrest, hk, hlt⟩ := ih (n := n - (f c).length) (by omega)
        refine ⟨c :: pre, d, post, k, by simp [hrest], ?_, hlt⟩
        rw [List.flatMap_cons, List.length_append]
        omega

theorem getElem?_chunk {pre post : List α} {c : α} {k : Nat} (h : k < (f c).length) :
    ((pre ++ c :: post).flatMap f)[(pre.flatMap f).length + k]? = (f c)[k]? := by
  rw [List.flatMap_append, List.flatMap_cons, List.getElem?_append_right (by omega),
    Nat.add_sub_cancel_left, List.getElem?_append_left h]

/-- Erasing inside a chunk. -/
theorem eraseIdx_chunk {pre post : List α} {c : α} {k : Nat} (h : k < (f c).length) :
    ((pre ++ c :: post).flatMap f).eraseIdx ((pre.flatMap f).length + k) =
      pre.flatMap f ++ ((f c).eraseIdx k ++ post.flatMap f) := by
  rw [List.flatMap_append, List.flatMap_cons, List.eraseIdx_append_of_length_le (by omega),
    Nat.add_sub_cancel_left, List.eraseIdx_append_of_lt_length h]

/-- Chunks of the same lengths stand for the same list exactly when each pair
does. -/
theorem flatMap_eq_iff {g : α → List β} {l : List α} (h : ∀ x ∈ l, (f x).length = (g x).length) :
    l.flatMap f = l.flatMap g ↔ ∀ x ∈ l, f x = g x := by
  constructor
  · intro heq
    induction l with
    | nil => simp
    | cons x l ih =>
        rw [List.flatMap_cons, List.flatMap_cons] at heq
        obtain ⟨hx, hrest⟩ := List.append_inj heq (h x List.mem_cons_self)
        intro y hy
        rcases List.mem_cons.mp hy with rfl | hy
        · exact hx
        · exact ih (fun z hz => h z (List.mem_cons_of_mem _ hz)) hrest y hy
  · exact List.flatMap_congr

/-! ## Chunks with separators -/

/-- Chunks with a separator behind each are the chunks with separators between
them and one more separator. -/
theorem flatMap_separated (c : β) {l : List (List β)} (h : l ≠ []) :
    (l.flatMap fun s => s ++ [c]) = List.intercalate [c] l ++ [c] := by
  induction l with
  | nil => exact absurd rfl h
  | cons s l ih =>
      cases l with
      | nil => simp
      | cons t l =>
          rw [List.flatMap_cons, ih (List.cons_ne_nil t l),
            List.intercalate_cons_of_ne_nil (List.cons_ne_nil t l)]
          simp

theorem intercalate_eq_nil_iff {c : β} {l : List (List β)} :
    List.intercalate [c] l = [] ↔ l = [] ∨ l = [[]] := by
  cases l with
  | nil => simp
  | cons s l =>
      cases l with
      | nil => simp
      | cons t l =>
          rw [List.intercalate_cons_of_ne_nil (List.cons_ne_nil t l)]
          simp

/-- Joining adds one separator less than there are chunks. -/
theorem count_intercalate [DecidableEq β] (c : β) {l : List (List β)} (h : l ≠ []) :
    (List.intercalate [c] l).count c + 1 = l.length + l.flatten.count c := by
  induction l with
  | nil => exact absurd rfl h
  | cons s l ih =>
      cases l with
      | nil => simp [Nat.add_comm]
      | cons t l =>
          have hrest := ih (List.cons_ne_nil t l)
          rw [List.intercalate_cons_of_ne_nil (List.cons_ne_nil t l), List.flatten_cons,
            List.count_append, List.count_append, List.count_append, List.count_singleton_self,
            List.length_cons]
          omega

/-- Splitting at a separator gives one piece more than there are separators. -/
theorem length_splitOn [DecidableEq β] (c : β) (l : List β) :
    (l.splitOn c).length = l.count c + 1 := by
  induction l with
  | nil => rfl
  | cons x l ih =>
      rw [List.splitOn_cons_eq_if_modifyHead]
      by_cases hx : x = c
      · simp [hx, ih]
      · simp [hx, ih]

/-- Joined chunks are split into as many pieces exactly when no chunk has the
separator. -/
theorem length_splitOn_intercalate_iff [DecidableEq β] {c : β} {l : List (List β)} (h : l ≠ []) :
    ((List.intercalate [c] l).splitOn c).length = l.length ↔ ∀ s ∈ l, c ∉ s := by
  have hcount := count_intercalate c h
  rw [length_splitOn]
  constructor
  · intro hlen s hs hc
    have hpos : 0 < l.flatten.count c := List.count_pos_iff.mpr (List.mem_flatten.mpr ⟨s, hs, hc⟩)
    omega
  · intro hnone
    have hzero : l.flatten.count c = 0 := by
      rw [List.count_eq_zero, List.mem_flatten]
      rintro ⟨s, hs, hc⟩
      exact hnone s hs hc
    omega

/-! ## Lists of related chunks -/

/-- Chunks that stand for the same, one by one, stand for the same list. -/
theorem flatMap_of_forall₂ {R : α → α → Prop} (hR : ∀ x y, R x y → f y = f x) {l l' : List α}
    (h : List.Forall₂ R l l') : l'.flatMap f = l.flatMap f := by
  induction h with
  | nil => rfl
  | cons hxy _ ih => rw [List.flatMap_cons, List.flatMap_cons, hR _ _ hxy, ih]

/-- Every member of the second list has a partner in the first. -/
theorem exists_of_forall₂ {γ : Type} {R : α → γ → Prop} {l : List α} {l' : List γ}
    (h : List.Forall₂ R l l') {y : γ} (hy : y ∈ l') : ∃ x ∈ l, R x y := by
  induction h with
  | nil => simp at hy
  | cons hxy _ ih =>
      rcases List.mem_cons.mp hy with rfl | hy
      · exact ⟨_, List.mem_cons_self, hxy⟩
      · obtain ⟨x, hx, hrel⟩ := ih hy
        exact ⟨x, List.mem_cons_of_mem _ hx, hrel⟩

/-- What every element has can be chosen for all of them. -/
theorem exists_forall₂ {γ : Type} {R : α → γ → Prop} {l : List α} (h : ∀ x ∈ l, ∃ y, R x y) :
    ∃ l', List.Forall₂ R l l' := by
  induction l with
  | nil => exact ⟨[], .nil⟩
  | cons x l ih =>
      obtain ⟨y, hy⟩ := h x (by simp)
      obtain ⟨l', hl'⟩ := ih fun x' hx' => h x' (List.mem_cons_of_mem _ hx')
      exact ⟨y :: l', .cons hy hl'⟩

theorem forall₂_flatMap {γ δ : Type} {R : β → γ → Prop} {f : δ → List β} {g : δ → List γ}
    {l : List δ} (h : ∀ x ∈ l, List.Forall₂ R (f x) (g x)) :
    List.Forall₂ R (l.flatMap f) (l.flatMap g) := by
  induction l with
  | nil => exact .nil
  | cons x l ih =>
      rw [List.flatMap_cons, List.flatMap_cons]
      apply List.rel_append (h x List.mem_cons_self)
      exact ih fun y hy => h y (List.mem_cons_of_mem _ hy)

/-! ## Chunks that may fall short -/

variable {P : α → Prop} {l : List α} {ls : List (List β)} {k : Nat}

/-- `l` is chunk by chunk no longer than what is meant, and `P` holds where it is
just that. -/
def Short (f : α → List β) (P : α → Prop) (x : α) (l : List β) : Prop :=
  l.length ≤ (f x).length ∧ (l = f x → P x)

theorem length_flatten_le (h : List.Forall₂ (Short f P) l ls) :
    ls.flatten.length ≤ (l.flatMap f).length := by
  induction h with
  | nil => exact Nat.le_refl 0
  | cons hxy _ ih =>
      rw [List.flatten_cons, List.flatMap_cons, List.length_append, List.length_append]
      exact Nat.add_le_add hxy.1 ih

theorem forall_of_flatten_eq (h : List.Forall₂ (Short f P) l ls) (heq : ls.flatten = l.flatMap f) :
    ∀ x ∈ l, P x := by
  induction h with
  | nil => simp
  | @cons x c l ls hxy hrest ih =>
      rw [List.flatten_cons, List.flatMap_cons] at heq
      have hlen := congrArg List.length heq
      have hle := length_flatten_le hrest
      have hle' := hxy.1
      rw [List.length_append, List.length_append] at hlen
      -- a chunk that falls short could not be made up for by the others
      obtain ⟨hc, hls⟩ := List.append_inj heq (by omega)
      intro y hy
      rcases List.mem_cons.mp hy with rfl | hy
      · exact hxy.2 hc
      · exact ih hls y hy

/-- Chunks of which some may be missing at the end and none is too long make up the
whole list only when none is missing or too short. -/
theorem take_eq_of_flatten_eq (hne : ∀ x ∈ l, f x ≠ [])
    (h : List.Forall₂ (Short f P) (l.take k) ls) (heq : ls.flatten = l.flatMap f) :
    l.length ≤ k ∧ ∀ x ∈ l, P x := by
  have hle := length_flatten_le h
  have hsplit : l.flatMap f = (l.take k).flatMap f ++ (l.drop k).flatMap f := by
    rw [← List.flatMap_append, List.take_append_drop]
  have hdrop : (l.drop k).flatMap f = [] := by
    rw [heq, hsplit, List.length_append] at hle
    apply List.eq_nil_of_length_eq_zero
    omega
  have hk : l.length ≤ k := by
    rw [← List.drop_eq_nil_iff, List.eq_nil_iff_forall_not_mem]
    intro x hx
    exact hne x (List.mem_of_mem_drop hx) (List.flatMap_eq_nil_iff.mp hdrop x hx)
  refine ⟨hk, ?_⟩
  rw [List.take_of_length_le hk] at h
  exact forall_of_flatten_eq h heq

end Lib.Chunks
