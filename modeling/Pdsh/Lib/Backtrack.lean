import Mathlib.Data.List.TakeWhile
import Mathlib.Tactic

/-!
# Matching by backtracking

A pattern is a sequence of items, each with a class of characters. An item may take runs of several
lengths, and `lengths` lists them in the order in which they are tried: the longest first when it
is greedy, the shortest first when it is lazy. `run` takes the first length behind which the rest
of the pattern matches, and gives the run of each item. What a pattern takes is shown item by item
(`run_one`, `run_greedy`, `run_lazy`), from `run_take`.
-/

namespace Lib.Backtrack

variable {α : Type}

/-- An item of a pattern. -/
inductive Item (α : Type) where
  /-- One character. -/
  | one (p : α → Bool)
  /-- At least `least` characters, as many as possible first. -/
  | greedy (least : Nat) (p : α → Bool)
  /-- At least `least` characters, as few as possible first. -/
  | lazy (least : Nat) (p : α → Bool)
  /-- One character if possible. -/
  | optional (p : α → Bool)
  /-- Nothing is left, or nothing but a last character. -/
  | finish (last : α → Bool)

/-- The lengths an item may take, in the order in which they are tried. -/
def lengths : Item α → List α → List Nat
  | .one p, s => if s.head?.any p then [1] else []
  | .greedy least p, s =>
      ((List.range ((s.takeWhile p).length + 1)).filter (least ≤ ·)).reverse
  | .lazy least p, s => (List.range ((s.takeWhile p).length + 1)).filter (least ≤ ·)
  | .optional p, s => if s.head?.any p then [1, 0] else [0]
  | .finish last, s => if s = [] ∨ (s.length = 1 ∧ s.all last) then [0] else []

/-- The runs of the items in the first match, from the start of the sequence on. -/
def run : List (Item α) → List α → Option (List (List α))
  | [], _ => some []
  | it :: items, s =>
      (lengths it s).findSome? fun n => (run items (s.drop n)).map (s.take n :: ·)

variable {it : Item α} {items : List (Item α)} {s t : List α} {parts : List (List α)} {n : Nat}
  {p : α → Bool}

/-! ## What a match took -/

theorem run_cons_some (h : run (it :: items) s = some parts) :
    ∃ n ∈ lengths it s, ∃ rest, run items (s.drop n) = some rest ∧ parts = s.take n :: rest := by
  obtain ⟨n, hn, hrun⟩ := List.exists_of_findSome?_eq_some h
  obtain ⟨rest, hrest, rfl⟩ := Option.map_eq_some_iff.mp hrun
  exact ⟨n, hn, rest, hrest, rfl⟩

/-- A character that has to be there is in the sequence. -/
theorem exists_of_one (hit : .one p ∈ items) (h : run items s = some parts) : ∃ c ∈ s, p c := by
  induction items generalizing s parts with
  | nil => cases hit
  | cons it items ih =>
      obtain ⟨n, hn, rest, hrest, rfl⟩ := run_cons_some h
      rcases List.mem_cons.mp hit with rfl | hit
      · cases s with
        | nil => cases hn
        | cons c s =>
            rw [lengths] at hn
            split at hn
            · rename_i hp
              exact ⟨c, List.mem_cons_self, hp⟩
            · cases hn
      · obtain ⟨c, hc, hpc⟩ := ih hit hrest
        exact ⟨c, List.mem_of_mem_drop hc, hpc⟩

/-! ## What is taken first -/

/-- The first length behind which the rest matches is the one that is taken. -/
theorem run_take (before after : List Nat) (hlengths : lengths it s = before ++ n :: after)
    (hbefore : ∀ m ∈ before, run items (s.drop m) = none)
    (hrun : run items (s.drop n) = some parts) :
    run (it :: items) s = some (s.take n :: parts) := by
  rw [run, hlengths, List.findSome?_append]
  have hnone : before.findSome? (fun m => (run items (s.drop m)).map (s.take m :: ·)) = none := by
    rw [List.findSome?_eq_none_iff]
    intro m hm
    rw [hbefore m hm]
    rfl
  rw [hnone, Option.none_or, List.findSome?_cons, hrun]
  rfl

theorem run_one {c : α} (hc : p c) (hrun : run items s = some parts) :
    run (.one p :: items) (c :: s) = some ([c] :: parts) := by
  refine run_take (n := 1) [] [] ?_ (by simp) hrun
  rw [lengths, if_pos (by simpa using hc)]
  rfl

theorem run_optional {c : α} (hc : p c) (hrun : run items s = some parts) :
    run (.optional p :: items) (c :: s) = some ([c] :: parts) := by
  refine run_take (n := 1) [] [0] ?_ (by simp) hrun
  rw [lengths, if_pos (by simpa using hc)]
  rfl

/-- A greedy item takes all it can when the rest matches behind it. -/
theorem run_greedy (pre : List α) (hpre : ∀ c ∈ pre, p c) (hend : ∀ c ∈ s.head?, p c = false)
    (hrun : run items s = some parts) :
    run (.greedy 0 p :: items) (pre ++ s) = some (pre :: parts) := by
  have hwhile : (pre ++ s).takeWhile p = pre := by
    rw [List.takeWhile_append_of_pos hpre]
    cases s with
    | nil => simp
    | cons c s => simp [hend c (by simp)]
  have hlengths : lengths (.greedy 0 p) (pre ++ s) =
      [] ++ pre.length :: (List.range pre.length).reverse := by
    rw [lengths, hwhile]
    simp [List.range_succ]
  have hdrop : run items ((pre ++ s).drop pre.length) = some parts := by rwa [List.drop_left]
  have htake := run_take _ _ hlengths (by simp) hdrop
  rwa [List.take_left] at htake

/-- A character the rest cannot start with ends the match. -/
theorem run_greedy_one_none {q : α → Bool} (h : ∀ c ∈ s.head?, p c = false ∧ q c = false) :
    run (.greedy 0 p :: .one q :: items) s = none := by
  cases s with
  | nil => rfl
  | cons c s =>
      obtain ⟨hp, hq⟩ := h c rfl
      simp [run, lengths, hp, hq]

/-- A lazy item takes the shortest run behind which the rest matches. -/
theorem run_lazy {least : Nat} {pre : List α} (hpre : ∀ c ∈ pre, p c) (hleast : least ≤ pre.length)
    (hshort : ∀ m, least ≤ m → m < pre.length → run items ((pre ++ s).drop m) = none)
    (hrun : run items s = some parts) :
    run (.lazy least p :: items) (pre ++ s) = some (pre :: parts) := by
  have hlengths : lengths (.lazy least p) (pre ++ s) =
      (List.range pre.length).filter (least ≤ ·) ++ pre.length ::
        ((List.range' (pre.length + 1) (s.takeWhile p).length).filter (least ≤ ·)) := by
    rw [lengths, List.takeWhile_append_of_pos hpre, List.length_append,
      show pre.length + (s.takeWhile p).length + 1 =
          pre.length + ((s.takeWhile p).length + 1) by omega,
      List.range_add, List.filter_append, ← List.range'_eq_map_range, List.range'_succ,
      List.filter_cons_of_pos (by simpa using hleast)]
  have hdrop : run items ((pre ++ s).drop pre.length) = some parts := by rwa [List.drop_left]
  have hnone : ∀ m ∈ (List.range pre.length).filter (least ≤ ·),
      run items ((pre ++ s).drop m) = none := by
    intro m hm
    obtain ⟨hlt, hle⟩ := List.mem_filter.mp hm
    exact hshort m (by simpa using hle) (List.mem_range.mp hlt)
  have htake := run_take _ _ hlengths hnone hdrop
  rwa [List.take_left] at htake

end Lib.Backtrack
