import Mathlib.Data.List.Perm.Basic
import Mathlib.Order.WellFounded
import Mathlib.Tactic

/-!
# Intervals of numbers that overlap

An interval is the list of the numbers from `lo` to `hi`. Two intervals that overlap can be
divided into pieces that do not, with the same numbers in all: the part in front, the numbers
that both have, each one twice, and the part behind (`divide_perm`).

Dividing again and again comes to an end. Either the pieces are shorter in all, or the longer
one has moved to the right; `descent` is the induction this gives.
-/

namespace Lib.Interval

/-! ## Dividing -/

/-- The numbers from `lo` to `hi`. -/
def interval (lo hi : Nat) : List Nat := List.range' lo (hi + 1 - lo)

/-- The `k` numbers from `n` on, each twice, but `a` and `m` once. -/
def doubled (a m : Nat) : Nat → Nat → List Nat
  | 0, _ => []
  | k + 1, n => (if a < n then [n] else []) ++ (if n < m then [n] else []) ++ doubled a m k (n + 1)

/-- The pieces of `l .. h` and `a .. x`, where `a` is in both. -/
def divide (l h a x : Nat) : List (Nat × Nat) :=
  (l, a) :: (doubled a (min h x) (min h x + 1 - a) a).map (fun n => (n, n)) ++ [(min h x, max h x)]

variable {l h a x m k n : Nat}

theorem count_interval (lo hi c : Nat) : (interval lo hi).count c = if lo ≤ c ∧ c ≤ hi then 1 else 0 := by
  unfold interval
  rw [List.count_range_1']
  split <;> split <;> omega

theorem count_doubled (c : Nat) : (doubled a m k n).count c =
    if n ≤ c ∧ c < n + k then (if a < c then 1 else 0) + (if c < m then 1 else 0) else 0 := by
  induction k generalizing n with
  | zero =>
      rw [if_neg (by omega)]
      rfl
  | succ k ih =>
      have hone (p : Prop) [Decidable p] :
          (if p then [n] else []).count c = if p ∧ n = c then 1 else 0 := by
        by_cases hp : p
        · simp [hp, List.count_singleton]
        · simp [hp]
      rw [doubled, List.count_append, List.count_append, hone, hone, ih]
      by_cases hn : n = c
      · subst hn
        rw [if_neg (by omega : ¬ (n + 1 ≤ n ∧ n < n + 1 + k)), if_pos (by omega : n ≤ n ∧ n < n + (k + 1))]
        simp
      · rw [if_neg (fun hc => hn hc.2), if_neg (fun hc => hn hc.2)]
        by_cases hc : n + 1 ≤ c ∧ c < n + 1 + k
        · rw [if_pos hc, if_pos (⟨by omega, by omega⟩ : n ≤ c ∧ c < n + (k + 1)), Nat.zero_add]
        · rw [if_neg hc, if_neg (by omega)]

theorem mem_doubled (h : x ∈ doubled a m k n) : n ≤ x ∧ x < n + k := by
  have hcount := List.count_pos_iff.mpr h
  rw [count_doubled] at hcount
  by_contra hout
  rw [if_neg hout] at hcount
  omega

theorem doubled_sorted : (doubled a m k n).Pairwise (· ≤ ·) := by
  induction k generalizing n with
  | zero => exact .nil
  | succ k ih =>
      have hone (p : Prop) [Decidable p] : ∀ c ∈ (if p then [n] else []), c = n := by
        intro c hc
        split at hc
        · exact List.mem_singleton.mp hc
        · exact absurd hc List.not_mem_nil
      have hsingle (p : Prop) [Decidable p] : (if p then [n] else []).Pairwise (· ≤ ·) := by
        split
        · exact List.pairwise_singleton _ _
        · exact .nil
      rw [doubled]
      refine List.pairwise_append.mpr ⟨List.pairwise_append.mpr ⟨hsingle _, hsingle _, ?_⟩, ih, ?_⟩
      · intro c hc d hd
        rw [hone _ c hc, hone _ d hd]
      · intro c hc d hd
        have hd' := (mem_doubled hd).1
        rcases List.mem_append.mp hc with hc | hc
        · rw [hone _ c hc]
          omega
        · rw [hone _ c hc]
          omega

/-- Every piece but the last one ends at or below the last shared number. -/
theorem mem_divide_front (hah : a ≤ h) (hax : a ≤ x) {d : Nat × Nat}
    (hd : d ∈ (doubled a (min h x) (min h x + 1 - a) a).map fun n => (n, n)) :
    d.1 = d.2 ∧ a ≤ d.1 ∧ d.2 ≤ min h x := by
  obtain ⟨n, hn, rfl⟩ := List.mem_map.mp hd
  have := mem_doubled hn
  exact ⟨rfl, by omega, by simp only; omega⟩

theorem mem_divide (hla : l ≤ a) (hah : a ≤ h) (hax : a ≤ x) {d : Nat × Nat} (hd : d ∈ divide l h a x) :
    l ≤ d.1 ∧ d.1 ≤ d.2 ∧ d.1 ≤ min h x ∧ d.2 ≤ max h x := by
  unfold divide at hd
  rcases List.mem_append.mp hd with hd | hd
  · rcases List.mem_cons.mp hd with rfl | hd
    · exact ⟨Nat.le_refl _, hla, by simp only; omega, by simp only; omega⟩
    · have := mem_divide_front hah hax hd
      omega
  · rw [List.mem_singleton.mp hd]
    simp only
    omega

/-- The last piece goes on to the last number of both, the others to shared numbers. -/
theorem divide_front (hah : a ≤ h) (hax : a ≤ x) :
    ∃ front, divide l h a x = front ++ [(min h x, max h x)] ∧ ∀ d ∈ front, d.2 ≤ min h x := by
  refine ⟨_, rfl, fun d hd => ?_⟩
  rcases List.mem_cons.mp hd with rfl | hd
  · exact le_min hah hax
  · exact (mem_divide_front hah hax hd).2.2

/-- Behind the first piece, the pieces begin with a shared number. -/
theorem mem_divide_cases (hah : a ≤ h) (hax : a ≤ x) {d : Nat × Nat} (hd : d ∈ divide l h a x) :
    d = (l, a) ∨ a ≤ d.1 := by
  unfold divide at hd
  rcases List.mem_append.mp hd with hd | hd
  · rcases List.mem_cons.mp hd with rfl | hd
    · exact .inl rfl
    · exact .inr (mem_divide_front hah hax hd).2.1
  · rw [List.mem_singleton.mp hd]
    exact .inr (le_min hah hax)

/-- One piece begins where the right interval began. -/
theorem exists_mem_divide (hah : a ≤ h) (hax : a ≤ x) : ∃ d ∈ divide l h a x, d.1 = a := by
  unfold divide
  by_cases hlt : a < min h x
  · have hcount : 0 < (doubled a (min h x) (min h x + 1 - a) a).count a := by
      rw [count_doubled, if_pos (by omega), if_pos hlt]
      omega
    have hmem := List.count_pos_iff.mp hcount
    exact ⟨(a, a), List.mem_append_left _ (List.mem_cons_of_mem _ (List.mem_map.mpr ⟨a, hmem, rfl⟩)), rfl⟩
  · refine ⟨(min h x, max h x), List.mem_append_right _ (List.mem_singleton.mpr rfl), ?_⟩
    simp only
    omega

/-- The pieces are in order. -/
theorem divide_sorted (hla : l ≤ a) (hah : a ≤ h) (hax : a ≤ x) :
    (divide l h a x).Pairwise fun d e => d.1 ≤ e.1 := by
  unfold divide
  refine List.pairwise_append.mpr ⟨List.pairwise_cons.mpr ⟨?_, ?_⟩, List.pairwise_singleton _ _, ?_⟩
  · intro d hd
    have := mem_divide_front hah hax hd
    simp only
    omega
  · exact List.pairwise_map.mpr doubled_sorted
  · intro d hd e he
    rw [List.mem_singleton.mp he]
    rcases List.mem_cons.mp hd with rfl | hd
    · simp only
      omega
    · have := mem_divide_front hah hax hd
      simp only
      omega

theorem flatMap_points (ns : List Nat) : (ns.map fun n => (n, n)).flatMap (fun d => interval d.1 d.2) = ns := by
  have hpoint (n : Nat) : interval n n = [n] := by
    unfold interval
    rw [Nat.add_sub_cancel_left]
    rfl
  induction ns with
  | nil => rfl
  | cons n ns ih => rw [List.map_cons, List.flatMap_cons, hpoint, ih, List.singleton_append]

/-- No number is lost in the pieces, and none is new. -/
theorem divide_perm (hla : l ≤ a) (hah : a ≤ h) (hax : a ≤ x) :
    ((divide l h a x).flatMap fun d => interval d.1 d.2).Perm (interval l h ++ interval a x) := by
  rw [List.perm_iff_count]
  intro c
  unfold divide
  rw [List.flatMap_append, List.flatMap_cons, flatMap_points, List.flatMap_singleton]
  simp only [List.count_append, count_interval, count_doubled]
  rcases Nat.le_total h x with hhx | hxh
  · rw [Nat.min_eq_left hhx, Nat.max_eq_right hhx]
    grind
  · rw [Nat.min_eq_right hxh, Nat.max_eq_left hxh]
    grind

/-! ## Why dividing ends -/

section Descent

variable {α : Type} (span : α → Nat)

/-- The length of all elements. -/
def total (s : List α) : Nat := (s.map span).sum

/-- The length of each element, as often as there are elements from it on. -/
def weight : List α → Nat
  | [] => 0
  | r :: s => span r * (s.length + 1) + weight s

variable {span} {s s' t : List α}

theorem total_append : total span (s ++ t) = total span s + total span t := by
  simp [total]

theorem weight_append_lt (hlen : s'.length = s.length) (h : weight span s' < weight span s) :
    weight span (t ++ s') < weight span (t ++ s) := by
  induction t with
  | nil => exact h
  | cons r t ih =>
      rw [List.cons_append, List.cons_append, weight, weight, List.length_append, List.length_append, hlen]
      omega

/-- `s'` is shorter than `s` in all, or as long and further to the right. -/
def Descends (span : α → Nat) (s' s : List α) : Prop :=
  total span s' < total span s ∨ (total span s' = total span s ∧ weight span s' < weight span s)

theorem weight_congr (h : s'.map span = s.map span) : weight span s' = weight span s := by
  induction s' generalizing s with
  | nil =>
      cases s with
      | nil => rfl
      | cons r s => simp at h
  | cons r s' ih =>
      cases s with
      | nil => simp at h
      | cons q s =>
          rw [List.map_cons, List.map_cons, List.cons.injEq] at h
          have hlen : s'.length = s.length := by simpa using congrArg List.length h.2
          rw [weight, weight, h.1, hlen, ih h.2]

theorem Descends.congr (hd : Descends span t s') (h : s'.map span = s.map span) : Descends span t s := by
  unfold Descends total at hd ⊢
  rwa [h, weight_congr h] at hd

theorem descent {P : List α → Prop} (step : ∀ s, (∀ s', Descends span s' s → P s') → P s) (s : List α) : P s := by
  have hwf : WellFounded (InvImage (Prod.Lex (· < ·) (· < ·)) fun s => (total span s, weight span s)) :=
    InvImage.wf _ (WellFounded.prod_lex Nat.lt_wfRel.wf Nat.lt_wfRel.wf)
  refine hwf.induction s fun s ih => step s fun s' hdesc => ih s' ?_
  rcases hdesc with htotal | ⟨htotal, hweight⟩
  · exact .left _ _ htotal
  · show Prod.Lex (· < ·) (· < ·) (total span s', weight span s') (total span s, weight span s)
    rw [htotal]
    exact .right _ hweight

end Descent

/-- Dividing two intervals descends. -/
theorem divide_descends {α : Type} {span : α → Nat} {piece : Nat × Nat → α} {u v : α} {s t : List α}
    (hspan : ∀ d ∈ divide l h a x, span (piece d) = d.2 - d.1) (hu : span u = h - l) (hv : span v = x - a)
    (hla : l ≤ a) (hah : a < h) (hax : a ≤ x) :
    Descends span (s ++ (divide l h a x).map piece ++ t) (s ++ u :: v :: t) := by
  have hlast := hspan (min h x, max h x) (by simp [divide])
  have hfirst := hspan (l, a) (by simp [divide])
  have hpoints : total span (((doubled a (min h x) (min h x + 1 - a) a).map fun n => (n, n)).map piece) = 0 := by
    unfold total
    rw [List.sum_eq_zero_iff]
    intro n hn
    obtain ⟨r, hr, rfl⟩ := List.mem_map.mp hn
    obtain ⟨d, hd, rfl⟩ := List.mem_map.mp hr
    have := mem_divide_front (Nat.le_of_lt hah) hax hd
    rw [hspan d (List.mem_append_left _ (List.mem_cons_of_mem _ hd))]
    omega
  by_cases hone : a < min h x
  · -- the shared numbers, but one, are counted no more
    refine .inl ?_
    simp only [divide, List.map_append, List.map_cons, List.map_nil, total_append] at hpoints ⊢
    unfold total at hpoints ⊢
    simp only [List.map_cons, List.sum_cons, List.map_nil, List.sum_nil]
    simp only at hlast hfirst
    omega
  · -- one number is shared, and the longer interval comes behind the shorter one
    have hax' : a = x := by omega
    subst hax'
    have hpieces : divide l h a a = [(l, a), (a, h)] := by
      unfold divide
      rw [Nat.min_eq_right (Nat.le_of_lt hah), Nat.max_eq_left (Nat.le_of_lt hah), Nat.add_sub_cancel_left]
      simp [doubled]
    simp only at hlast hfirst
    rw [Nat.min_eq_right (Nat.le_of_lt hah), Nat.max_eq_left (Nat.le_of_lt hah)] at hlast
    rw [hpieces, List.append_assoc]
    refine .inr ⟨?_, weight_append_lt rfl ?_⟩
    · rw [total_append, total_append]
      unfold total
      simp only [List.map_cons, List.map_nil, List.map_append, List.sum_append, List.sum_cons, List.sum_nil]
      omega
    · simp only [List.map_cons, List.map_nil, List.cons_append, List.nil_append, weight, List.length_cons]
      rw [hlast, hfirst, hu, hv]
      obtain ⟨j, rfl⟩ := Nat.exists_eq_add_of_le hla
      obtain ⟨k, rfl⟩ := Nat.exists_eq_add_of_lt hah
      have hj : l + j - l = j := by omega
      have hk : l + j + k + 1 - (l + j) = k + 1 := by omega
      have hjk : l + j + k + 1 - l = j + (k + 1) := by omega
      rw [hj, hk, hjk]
      nlinarith

end Lib.Interval
