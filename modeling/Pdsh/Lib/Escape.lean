import Mathlib.Data.List.DropRight
import Mathlib.Tactic

/-!
# Escapes

A text with a mark that takes the character behind it into an escape is cut,
from left to right, into plain characters and escapes. The mark at the very end
has nothing behind it and stands alone; a text is `Whole` when this does not
happen, and that is a matter of how many marks it ends in (`whole_iff_even`).

Where a whole text ends the cutting starts anew (`segments_append`), so an escape
is wherever its two characters stand behind a whole text (`escape_mem_iff`).
-/

namespace Lib.Escape

/-- What a text is cut into. -/
inductive Segment (α : Type*) where
  | plain (c : α)
  | escape (c : α)
  | lone
deriving DecidableEq, Repr

variable {α : Type*}

/-- A step for each segment; nothing is to be done where a mark stands alone. -/
def Segment.apply {σ : Type*} (escape plain : σ → α → σ) (st : σ) : Segment α → σ
  | .plain c => plain st c
  | .escape c => escape st c
  | .lone => st

variable [DecidableEq α] {m c x : α} {s a b : List α}

/-- A text cut at the mark `m`. -/
def segments (m : α) : List α → List (Segment α)
  | [] => []
  | [x] => if x = m then [.lone] else [.plain x]
  | x :: c :: s => if x = m then .escape c :: segments m s else .plain x :: segments m (c :: s)

/-- No mark is left without a character behind it. -/
def Whole (m : α) (s : List α) : Prop := Segment.lone ∉ segments m s

instance (m : α) (s : List α) : Decidable (Whole m s) := inferInstanceAs (Decidable (_ ∉ _))

@[simp] theorem segments_nil : segments m [] = [] := rfl

@[simp] theorem segments_lone : segments m [m] = [.lone] := if_pos rfl

@[simp] theorem segments_escape : segments m (m :: c :: s) = .escape c :: segments m s := if_pos rfl

theorem segments_plain (h : x ≠ m) : segments m (x :: s) = .plain x :: segments m s := by
  cases s with
  | nil => exact if_neg h
  | cons c s => exact if_neg h

/-- Induction along the segments. -/
@[elab_as_elim]
theorem segments_induction {motive : List α → Prop} (m : α) (nil : motive []) (lone : motive [m])
    (escape : ∀ c s, motive s → motive (m :: c :: s))
    (plain : ∀ x s, x ≠ m → motive s → motive (x :: s)) (s : List α) : motive s := by
  induction hn : s.length using Nat.strong_induction_on generalizing s with
  | _ n ih =>
    match s with
    | [] => exact nil
    | x :: s =>
      by_cases hx : x = m
      · subst hx
        match s with
        | [] => exact lone
        | c :: s => exact escape c s (ih s.length (by simp only [List.length_cons] at hn; omega) s rfl)
      · exact plain x s hx (ih s.length (by simp only [List.length_cons] at hn; omega) s rfl)

@[simp] theorem whole_nil : Whole m ([] : List α) := by simp [Whole]

theorem not_whole_lone : ¬ Whole m [m] := by simp [Whole]

@[simp] theorem whole_escape : Whole m (m :: c :: s) ↔ Whole m s := by simp [Whole]

theorem whole_plain (h : x ≠ m) : Whole m (x :: s) ↔ Whole m s := by simp [Whole, segments_plain h]

/-- Behind a whole text the cutting starts anew. -/
theorem segments_append (h : Whole m a) (b : List α) : segments m (a ++ b) = segments m a ++ segments m b := by
  induction a using segments_induction m with
  | nil => rfl
  | lone => exact absurd h not_whole_lone
  | escape c s ih =>
      rw [whole_escape] at h
      rw [segments_escape, List.cons_append, List.cons_append, segments_escape, ih h, List.cons_append]
  | plain x s hx ih =>
      rw [whole_plain hx] at h
      rw [segments_plain hx, List.cons_append, segments_plain hx, ih h, List.cons_append]

theorem whole_append (h : Whole m a) : Whole m (a ++ b) ↔ Whole m b := by
  have ha : Segment.lone ∉ segments m a := h
  simp [Whole, segments_append h, ha]

/-! ## The end of a text -/

/-- A text that is not whole ends in the mark. -/
theorem getLast?_of_not_whole (h : ¬ Whole m s) : s.getLast? = some m := by
  induction s using segments_induction m with
  | nil => exact absurd whole_nil h
  | lone => rfl
  | escape c s ih =>
      rw [whole_escape] at h
      rw [List.getLast?_cons, List.getLast?_cons, ih h]
      rfl
  | plain x s hx ih =>
      rw [whole_plain hx] at h
      rw [List.getLast?_cons, ih h]
      rfl

/-- Of marks alone an even number makes escapes. -/
theorem whole_replicate (k : Nat) : Whole m (List.replicate k m) ↔ Even k := by
  induction k using Nat.twoStepInduction with
  | zero => simp
  | one => simp [not_whole_lone]
  | more k ih _ =>
      rw [List.replicate_succ, List.replicate_succ, whole_escape, ih, Nat.even_add_one,
        Nat.even_add_one, not_not]

/-- The marks a text ends in. -/
def trailing (m : α) (s : List α) : List α := s.rtakeWhile fun x => decide (x = m)

/-- A text is whole when the number of marks at its end is even. -/
theorem whole_iff_even : Whole m s ↔ Even (trailing m s).length := by
  let p : α → Bool := fun x => decide (x = m)
  have hsplit : s.rdropWhile p ++ s.rtakeWhile p = s := List.rdropWhile_append_rtakeWhile
  have hmarks : s.rtakeWhile p = List.replicate (s.rtakeWhile p).length m := by
    refine List.eq_replicate_iff.mpr ⟨rfl, fun x hx => ?_⟩
    have hp : p x = true := List.mem_rtakeWhile_imp hx
    exact of_decide_eq_true hp
  have hfront : Whole m (s.rdropWhile p) := by
    by_contra hopen
    have hlast := getLast?_of_not_whole hopen
    obtain ⟨hne, hm⟩ := List.mem_getLast?_eq_getLast hlast
    exact List.rdropWhile_last_not p s hne (decide_eq_true hm.symm)
  show _ ↔ Even (s.rtakeWhile p).length
  rw [← whole_replicate (m := m), ← hmarks]
  conv_lhs => rw [← hsplit]
  exact whole_append hfront

/-! ## Where escapes are -/

/-- An escape stands behind a whole text. -/
theorem escape_mem_iff : Segment.escape c ∈ segments m s ↔ ∃ a b, s = a ++ m :: c :: b ∧ Whole m a := by
  constructor
  · intro h
    induction s using segments_induction m with
    | nil => simp at h
    | lone => simp at h
    | escape d s ih =>
        rw [segments_escape, List.mem_cons] at h
        rcases h with heq | hmem
        · cases heq
          exact ⟨[], s, rfl, whole_nil⟩
        · obtain ⟨a, b, rfl, ha⟩ := ih hmem
          exact ⟨m :: d :: a, b, rfl, whole_escape.mpr ha⟩
    | plain x s hx ih =>
        rw [segments_plain hx, List.mem_cons] at h
        obtain ⟨a, b, rfl, ha⟩ := ih (h.resolve_left (by simp))
        exact ⟨x :: a, b, rfl, (whole_plain hx).mpr ha⟩
  · rintro ⟨a, b, rfl, ha⟩
    rw [segments_append ha, segments_escape]
    simp

/-- Collecting the escapes of a text. -/
theorem mem_foldl_escapes {cs : List α} :
    c ∈ (segments m s).foldl (Segment.apply (fun cs x => cs ++ [x]) fun cs _ => cs) cs ↔
      c ∈ cs ∨ Segment.escape c ∈ segments m s := by
  induction segments m s generalizing cs with
  | nil => simp
  | cons p l ih =>
      rw [List.foldl_cons, ih, List.mem_cons]
      cases p with
      | plain x => simp [Segment.apply]
      | escape x => simp [Segment.apply, or_assoc]
      | lone => simp [Segment.apply]

/-- A mark that stands behind no mark begins an escape. -/
theorem whole_of_not_mark (h : a.getLast? ≠ some m) : Whole m a := by
  by_contra hopen
  exact h (getLast?_of_not_whole hopen)

end Lib.Escape
