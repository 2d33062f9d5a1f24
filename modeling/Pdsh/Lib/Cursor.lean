import Mathlib.Data.List.Basic
import Mathlib.Tactic

/-!
# A cursor that removes what it has passed

A cursor goes through a list that is stored as chunks and may take out the element it passed last.
When that was all of its chunk, the chunk goes away and the cursor is put into the chunk in front
of it, behind the *first* element there: it turns back, and passes the others of that chunk again.

`Walk S` is the walk that takes out what it passes at the steps of `S`. It passes every element
once, in order, exactly when it never turns back (`walk_once_iff`); `TurnsBack` says of a step,
from the boundaries of the chunks and `S` alone, whether the walk does.
-/

namespace Lib

variable {α : Type}

/-- A place between two elements of a list of chunks. -/
structure Cursor (α : Type) where
  /-- the chunks in front of its chunk, the nearest first -/
  before : List (List α)
  /-- what it has passed of its chunk -/
  past : List α
  /-- what is left of its chunk -/
  rest : List α
  /-- the chunks behind its chunk -/
  after : List (List α)

namespace Cursor

variable {s s' e : Cursor α} {a x : α} {q l : List α} {cs : List (List α)} {S : Nat → Bool} {j k : Nat}

/-- In front of all. -/
def start : List (List α) → Cursor α
  | [] => ⟨[], [], [], []⟩
  | c :: cs => ⟨[], [], c, cs⟩

/-- All elements it has passed. -/
def behind (s : Cursor α) : List α := s.before.reverse.flatten ++ s.past

/-- All elements that are to come. -/
def ahead (s : Cursor α) : List α := s.rest ++ s.after.flatten

/-- The whole list. -/
def content (s : Cursor α) : List α := s.behind ++ s.ahead

/-- Pass one element. -/
def next (s : Cursor α) : Option (α × Cursor α) :=
  match s.rest, s.after with
  | a :: rest, after => some (a, ⟨s.before, s.past ++ [a], rest, after⟩)
  | [], (a :: rest) :: after => some (a, ⟨s.past :: s.before, [a], rest, after⟩)
  | [], _ => none

/-- Take out the element that was passed last. Inside a chunk this cuts the chunk in two. -/
def remove (s : Cursor α) : Cursor α :=
  if s.past.dropLast ≠ [] ∧ s.rest ≠ [] then ⟨s.past.dropLast :: s.before, [], s.rest, s.after⟩
  else if s.past.dropLast ≠ [] ∨ s.rest ≠ [] then ⟨s.before, s.past.dropLast, s.rest, s.after⟩
  else
    match s.before with
    | (b :: bs) :: before => ⟨before, [b], bs, s.after⟩
    | _ => start s.after

/-- No chunk is empty. -/
structure Sound (s : Cursor α) : Prop where
  before : ∀ c ∈ s.before, c ≠ []
  after : ∀ c ∈ s.after, c ≠ []
  here : s.past = [] → s.rest = [] → s.before = [] ∧ s.after = []

theorem start_sound (h : ∀ c ∈ cs, c ≠ []) : (start cs).Sound := by
  cases cs with
  | nil => exact ⟨h, h, fun _ _ => ⟨rfl, rfl⟩⟩
  | cons c cs =>
      refine ⟨fun c hc => absurd hc List.not_mem_nil, fun d hd => h d (List.mem_cons_of_mem _ hd), ?_⟩
      intro _ hnil
      exact absurd hnil (h c List.mem_cons_self)

@[simp] theorem start_behind : (start cs).behind = [] := by
  cases cs <;> rfl

@[simp] theorem start_ahead : (start cs).ahead = cs.flatten := by
  cases cs <;> rfl

/-- What a step can do: go on in the chunk, or enter the next one. -/
theorem next_cases (h : s.next = some (a, s')) :
    (∃ l, s.rest = a :: l ∧ s' = ⟨s.before, s.past ++ [a], l, s.after⟩) ∨
      ∃ l cs, s.rest = [] ∧ s.after = (a :: l) :: cs ∧ s' = ⟨s.past :: s.before, [a], l, cs⟩ := by
  unfold next at h
  split at h
  · rename_i b l hrest
    cases h
    exact .inl ⟨l, hrest, rfl⟩
  · rename_i b l cs hrest hafter
    cases h
    exact .inr ⟨l, cs, hrest, hafter, rfl⟩
  · cases h

/-- What taking out an element can do: cut the chunk in two, make it shorter, or drop it. -/
theorem remove_cases (hs : s.Sound) (hpast : s.past = q ++ [x]) :
    (q ≠ [] ∧ s.rest ≠ [] ∧ s.remove = ⟨q :: s.before, [], s.rest, s.after⟩) ∨
    ((q = [] ↔ s.rest ≠ []) ∧ s.remove = ⟨s.before, q, s.rest, s.after⟩) ∨
    (q = [] ∧ s.rest = [] ∧ s.before = [] ∧ s.remove = start s.after) ∨
    (q = [] ∧ s.rest = [] ∧ ∃ b bs before, s.before = (b :: bs) :: before ∧
      s.remove = ⟨before, [b], bs, s.after⟩) := by
  have hdrop : s.past.dropLast = q := by rw [hpast, List.dropLast_concat]
  unfold remove
  rw [hdrop]
  by_cases hq : q = []
  · by_cases hrest : s.rest = []
    · rw [if_neg (fun h => h.1 hq), if_neg (fun h => h.elim (absurd hq) (absurd hrest))]
      cases hcs : s.before with
      | nil => exact .inr (.inr (.inl ⟨hq, hrest, rfl, rfl⟩))
      | cons c before =>
          cases c with
          | nil => exact absurd rfl (hs.before [] (by rw [hcs]; exact List.mem_cons_self))
          | cons b bs => exact .inr (.inr (.inr ⟨hq, hrest, b, bs, before, rfl, rfl⟩))
    · rw [if_neg (fun h => h.1 hq), if_pos (.inr hrest)]
      exact .inr (.inl ⟨iff_of_true hq hrest, rfl⟩)
  · by_cases hrest : s.rest = []
    · rw [if_neg (fun h => h.2 hrest), if_pos (.inl hq)]
      exact .inr (.inl ⟨iff_of_false hq (fun h => h hrest), rfl⟩)
    · rw [if_pos ⟨hq, hrest⟩]
      exact .inl ⟨hq, hrest, rfl⟩

theorem next_none (hs : s.Sound) (h : s.next = none) : s.ahead = [] := by
  unfold next at h
  split at h
  · cases h
  · cases h
  · rename_i hrest hafter
    unfold ahead
    rw [hrest, List.nil_append]
    cases hcs : s.after with
    | nil => rfl
    | cons c cs =>
        cases c with
        | nil => exact absurd rfl (hs.after [] (by rw [hcs]; exact List.mem_cons_self))
        | cons b l => exact absurd hcs (hafter b l cs)

/-- A step passes the first element that is to come. -/
theorem next_some (hs : s.Sound) (h : s.next = some (a, s')) :
    s'.Sound ∧ s'.past ≠ [] ∧ s'.behind = s.behind ++ [a] ∧ s.ahead = a :: s'.ahead := by
  rcases next_cases h with ⟨l, hrest, rfl⟩ | ⟨l, cs, hrest, hafter, rfl⟩
  · refine ⟨⟨hs.before, hs.after, fun hnil => absurd hnil (by simp)⟩, by simp, ?_, ?_⟩
    · simp [behind]
    · simp [ahead, hrest]
  · have hpast : s.past ≠ [] := by
      intro hnil
      have hnone := (hs.here hnil hrest).2
      rw [hafter] at hnone
      cases hnone
    refine ⟨⟨?_, ?_, fun hnil => absurd hnil (by simp)⟩, by simp, ?_, ?_⟩
    · intro c hc
      rcases List.mem_cons.mp hc with rfl | hc
      · exact hpast
      · exact hs.before c hc
    · intro c hc
      exact hs.after c (by rw [hafter]; exact List.mem_cons_of_mem _ hc)
    · simp [behind]
    · simp [ahead, hrest, hafter]

/-- Taking out an element leaves the others in order. What the cursor has to pass again comes in
front of what was to come. -/
theorem remove_spec (hs : s.Sound) (hpast : s.past = q ++ [x]) :
    s.remove.Sound ∧ ∃ again, s.before.reverse.flatten ++ q = s.remove.behind ++ again ∧
      s.remove.ahead = again ++ s.ahead := by
  rcases remove_cases hs hpast with
    ⟨hq, hrest, heq⟩ | ⟨hone, heq⟩ | ⟨hq, hrest, hbefore, heq⟩ | ⟨hq, hrest, b, bs, before, hbefore, heq⟩
  · rw [heq]
    refine ⟨⟨?_, hs.after, fun _ hnil => absurd hnil hrest⟩, [], by simp [behind], by simp [ahead]⟩
    intro c hc
    rcases List.mem_cons.mp hc with rfl | hc
    · exact hq
    · exact hs.before c hc
  · rw [heq]
    exact ⟨⟨hs.before, hs.after, fun hnil hnil' => absurd hnil' (hone.mp hnil)⟩, [], by simp [behind],
      by simp [ahead]⟩
  · rw [heq]
    refine ⟨start_sound hs.after, [], by simp [hbefore, hq], ?_⟩
    rw [start_ahead, List.nil_append, ahead, hrest, List.nil_append]
  · rw [heq]
    refine ⟨⟨?_, hs.after, fun hnil => absurd hnil (List.cons_ne_nil _ _)⟩, bs, by simp [behind, hbefore, hq],
      by simp [ahead, hrest]⟩
    intro c hc
    exact hs.before c (by rw [hbefore]; exact List.mem_cons_of_mem _ hc)

/-- Every chunk has fewer than `B` elements. -/
structure Within (B : Nat) (s : Cursor α) : Prop where
  before : ∀ c ∈ s.before, c.length < B
  here : (s.past ++ s.rest).length < B
  after : ∀ c ∈ s.after, c.length < B

theorem start_within {B : Nat} (hB : 0 < B) (h : ∀ c ∈ cs, c.length < B) : (start cs).Within B := by
  cases cs with
  | nil => exact ⟨h, hB, h⟩
  | cons c cs =>
      exact ⟨fun d hd => absurd hd List.not_mem_nil, h c List.mem_cons_self,
        fun d hd => h d (List.mem_cons_of_mem _ hd)⟩

theorem Within.past {B : Nat} (h : s.Within B) : s.past.length < B := by
  have hhere := h.here
  rw [List.length_append] at hhere
  omega

theorem Within.next {B : Nat} (h : s.Within B) (hnext : s.next = some (a, s')) : s'.Within B := by
  have hhere := h.here
  rcases next_cases hnext with ⟨l, hrest, rfl⟩ | ⟨l, cs, hrest, hafter, rfl⟩
  · refine ⟨h.before, ?_, h.after⟩
    rw [hrest] at hhere
    simpa using hhere
  · refine ⟨?_, h.after (a :: l) (by rw [hafter]; exact List.mem_cons_self), ?_⟩
    · intro c hc
      rcases List.mem_cons.mp hc with rfl | hc
      · exact h.past
      · exact h.before c hc
    · intro c hc
      exact h.after c (by rw [hafter]; exact List.mem_cons_of_mem _ hc)

/-- The parts of a chunk are no longer than the chunk. -/
theorem Within.remove {B : Nat} (h : s.Within B) (hs : s.Sound) (hpast : s.past = q ++ [x]) :
    s.remove.Within B := by
  have hhere := h.here
  rw [hpast, List.length_append, List.length_append, List.length_singleton] at hhere
  rcases remove_cases hs hpast with
    ⟨-, -, heq⟩ | ⟨-, heq⟩ | ⟨-, -, -, heq⟩ | ⟨-, -, b, bs, before, hbefore, heq⟩
  · rw [heq]
    refine ⟨?_, ?_, h.after⟩
    · intro c hc
      rcases List.mem_cons.mp hc with rfl | hc
      · omega
      · exact h.before c hc
    · show s.rest.length < B
      omega
  · rw [heq]
    refine ⟨h.before, ?_, h.after⟩
    show (q ++ s.rest).length < B
    rw [List.length_append]
    omega
  · rw [heq]
    exact start_within (by omega) h.after
  · rw [heq]
    refine ⟨?_, h.before (b :: bs) (by rw [hbefore]; exact List.mem_cons_self), h.after⟩
    intro c hc
    exact h.before c (by rw [hbefore]; exact List.mem_cons_of_mem _ hc)

theorem next_content (hs : s.Sound) (h : s.next = some (a, s')) : s'.content = s.content := by
  obtain ⟨-, -, hbehind, hahead⟩ := next_some hs h
  rw [content, content, hbehind, hahead, List.append_assoc]
  rfl

theorem remove_content_length (hs : s.Sound) (hpast : s.past = q ++ [x]) :
    s.remove.content.length + 1 = s.content.length := by
  obtain ⟨-, again, hbehind, hahead⟩ := remove_spec hs hpast
  have hlen := congrArg List.length hbehind
  rw [List.length_append, List.length_append] at hlen
  rw [content, content, hahead, behind, behind, hpast]
  simp only [List.length_append, List.length_singleton]
  rw [behind, List.length_append] at hlen
  omega

/-! ## Walks -/

/-- The walk that takes out what it passes at the steps of `S`, from step `j` on: what it passes,
and where it ends. -/
inductive Walk (S : Nat → Bool) : Nat → Cursor α → List α → Cursor α → Prop
  | stop {j : Nat} {s : Cursor α} (h : s.next = none) : Walk S j s [] s
  | keep {j : Nat} {s s' e : Cursor α} {a : α} {l : List α} (h : s.next = some (a, s')) (hS : S j = false)
      (rest : Walk S (j + 1) s' l e) : Walk S j s (a :: l) e
  | drop {j : Nat} {s s' e : Cursor α} {a : α} {l : List α} (h : s.next = some (a, s')) (hS : S j = true)
      (rest : Walk S (j + 1) s'.remove l e) : Walk S j s (a :: l) e

/-- A walk passes all that is to come. -/
theorem Walk.length_le (hs : s.Sound) (h : Walk S j s l e) : s.ahead.length ≤ l.length := by
  induction h with
  | stop h =>
      rw [next_none hs h]
  | keep h _ _ ih =>
      obtain ⟨hs', -, -, hahead⟩ := next_some hs h
      rw [hahead]
      exact Nat.succ_le_succ (ih hs')
  | drop h _ _ ih =>
      obtain ⟨hs', hpast, -, hahead⟩ := next_some hs h
      obtain ⟨hsound, again, -, hagain⟩ := remove_spec hs' (List.dropLast_append_getLast hpast).symm
      have hle := ih hsound
      rw [hagain, List.length_append] at hle
      rw [hahead, List.length_cons, List.length_cons]
      omega

/-- There is one walk. -/
theorem Walk.unique {l' : List α} {e' : Cursor α} (h : Walk S j s l e) (h' : Walk S j s l' e') :
    l = l' ∧ e = e' := by
  -- the step and `S` say which constructor the other walk has
  induction h generalizing l' with
  | stop hnext =>
      cases h' with
      | stop => exact ⟨rfl, rfl⟩
      | keep hnext' =>
          rw [hnext] at hnext'
          cases hnext'
      | drop hnext' =>
          rw [hnext] at hnext'
          cases hnext'
  | keep hnext hS _ ih =>
      cases h' with
      | stop hnext' =>
          rw [hnext] at hnext'
          cases hnext'
      | keep hnext' _ rest =>
          rw [hnext] at hnext'
          cases hnext'
          obtain ⟨rfl, rfl⟩ := ih rest
          exact ⟨rfl, rfl⟩
      | drop _ hS' =>
          rw [hS] at hS'
          cases hS'
  | drop hnext hS _ ih =>
      cases h' with
      | stop hnext' =>
          rw [hnext] at hnext'
          cases hnext'
      | keep _ hS' =>
          rw [hS] at hS'
          cases hS'
      | drop hnext' _ rest =>
          rw [hnext] at hnext'
          cases hnext'
          obtain ⟨rfl, rfl⟩ := ih rest
          exact ⟨rfl, rfl⟩

/-- A place between two chunks, or at an end. -/
def Boundary (cs : List (List α)) (j : Nat) : Prop := ∃ front back, cs = front ++ back ∧ front.flatten.length = j

theorem boundary_zero (cs : List (List α)) : Boundary cs 0 := ⟨[], cs, rfl, rfl⟩

theorem Boundary.le (h : Boundary cs j) : j ≤ cs.flatten.length := by
  obtain ⟨front, back, rfl, rfl⟩ := h
  rw [List.flatten_append, List.length_append]
  exact Nat.le_add_right _ _

theorem boundary_cons_iff {c : List α} (hj : 0 < j) :
    Boundary (c :: cs) j ↔ c.length ≤ j ∧ Boundary cs (j - c.length) := by
  constructor
  · rintro ⟨front, back, heq, rfl⟩
    cases front with
    | nil => exact absurd hj (Nat.lt_irrefl 0)
    | cons d front =>
        cases heq
        rw [List.flatten_cons, List.length_append]
        exact ⟨Nat.le_add_right _ _, front, back, rfl, (Nat.add_sub_cancel_left _ _).symm⟩
  · rintro ⟨hle, front, back, rfl, hlen⟩
    refine ⟨c :: front, back, rfl, ?_⟩
    rw [List.flatten_cons, List.length_append, hlen]
    omega

/-- The last element before position `j` that is kept has one in front of it, in its chunk, that is
kept too. -/
def Doubled (cs : List (List α)) (S : Nat → Bool) (j : Nat) : Prop :=
  ∃ k < j, S k = false ∧ (∀ i, k < i → i < j → S i = true) ∧ ¬ Boundary cs k ∧ S (k - 1) = false

theorem doubled_succ_kept (h : S j = false) :
    Doubled cs S (j + 1) ↔ ¬ (Boundary cs j ∨ S (j - 1) = true) := by
  rw [not_or, Bool.not_eq_true]
  constructor
  · rintro ⟨k, hk, -, hall, hb, hprev⟩
    have heq : k = j := by
      by_contra hne
      have htaken := hall j (by omega) (Nat.lt_succ_self j)
      rw [h] at htaken
      cases htaken
    rw [← heq]
    exact ⟨hb, hprev⟩
  · rintro ⟨hb, hprev⟩
    exact ⟨j, Nat.lt_succ_self j, h, fun i hi hi' => by omega, hb, hprev⟩

theorem doubled_succ_taken (h : S j = true) : Doubled cs S (j + 1) ↔ Doubled cs S j := by
  constructor
  · rintro ⟨k, hk, hkept, hall, hrest⟩
    have hne : k ≠ j := by
      rintro rfl
      rw [h] at hkept
      cases hkept
    exact ⟨k, by omega, hkept, fun i hi hi' => hall i hi (by omega), hrest⟩
  · rintro ⟨k, hk, hkept, hall, hrest⟩
    refine ⟨k, by omega, hkept, fun i hi hi' => ?_, hrest⟩
    by_cases heq : i = j
    · rw [heq]
      exact h
    · exact hall i hi (by omega)

/-- Taking out the element at position `j` makes the walk turn back: it is the last of its chunk,
the one in front of it is of another chunk or taken out too, and the last element that is kept has
one in front of it that is passed again. -/
def TurnsBack (cs : List (List α)) (S : Nat → Bool) (j : Nat) : Prop :=
  S j = true ∧ Boundary cs (j + 1) ∧ (Boundary cs j ∨ S (j - 1) = true) ∧ Doubled cs S j

/-- The last elements that were kept, as far as they are of one chunk. -/
def lastPiece (s : Cursor α) : List α := if s.past = [] then s.before.headD [] else s.past

/-- A walk that did not turn back, before step `j`. -/
structure Straight (cs : List (List α)) (S : Nat → Bool) (j : Nat) (s : Cursor α) : Prop where
  sound : s.Sound
  count : j + s.ahead.length = cs.flatten.length
  boundary : ∀ i, 0 < i ∨ s.rest = [] →
    (Boundary cs (j + i) ↔ s.rest.length ≤ i ∧ Boundary s.after (i - s.rest.length))
  fresh : s.past = [] → Boundary cs j ∨ S (j - 1) = true
  inside : s.past ≠ [] → s.rest ≠ [] → ¬ (Boundary cs j ∨ S (j - 1) = true)
  doubled : Doubled cs S j ↔ 2 ≤ s.lastPiece.length

/-- A walk that did not turn back and has just passed the element at position `j`. -/
structure Passed (cs : List (List α)) (S : Nat → Bool) (j : Nat) (q : List α) (a : α) (s : Cursor α) : Prop where
  sound : s.Sound
  past : s.past = q ++ [a]
  count : j + 1 + s.ahead.length = cs.flatten.length
  boundary : ∀ i, Boundary cs (j + 1 + i) ↔ s.rest.length ≤ i ∧ Boundary s.after (i - s.rest.length)
  first : q = [] ↔ Boundary cs j ∨ S (j - 1) = true
  doubled : Doubled cs S j ↔ 2 ≤ (if q = [] then s.before.headD [] else q).length

theorem start_straight (h : ∀ c ∈ cs, c ≠ []) : Straight cs S 0 (start cs) := by
  have hnone : ¬ Doubled cs S 0 := by
    rintro ⟨k, hk, -⟩
    exact absurd hk (Nat.not_lt_zero k)
  refine ⟨start_sound h, by simp, ?_, fun _ => .inl (boundary_zero cs), ?_, iff_of_false hnone ?_⟩
  · intro i hi
    rw [Nat.zero_add]
    cases cs with
    | nil => exact ⟨fun hb => ⟨Nat.zero_le i, hb⟩, fun hb => hb.2⟩
    | cons c cs => exact boundary_cons_iff (hi.resolve_right (h c List.mem_cons_self))
  · intro hpast
    cases cs <;> exact absurd rfl hpast
  · cases cs with
    | nil => exact Nat.not_succ_le_zero 1
    | cons c cs => exact Nat.not_succ_le_zero 1

/-- Passing one more element. -/
theorem Straight.next (h : Straight cs S j s) (hnext : s.next = some (a, s')) :
    ∃ q, Passed cs S j q a s' := by
  obtain ⟨hsound, -, -, hahead⟩ := next_some h.sound hnext
  have hcount := h.count
  rw [hahead, List.length_cons] at hcount
  rcases next_cases hnext with ⟨l, hrest, rfl⟩ | ⟨l, after, hrest, hafter, rfl⟩
  · have hne : s.rest ≠ [] := by
      rw [hrest]
      exact List.cons_ne_nil a l
    refine ⟨s.past, hsound, rfl, by omega, ?_, ⟨h.fresh, fun hb => ?_⟩, h.doubled⟩
    · intro i
      have hb := h.boundary (i + 1) (.inl (Nat.succ_pos i))
      rw [hrest, List.length_cons, Nat.add_sub_add_right, Nat.add_le_add_iff_right] at hb
      rw [Nat.add_assoc, Nat.add_comm 1 i]
      exact hb
    · by_contra hpast
      exact h.inside hpast hne hb
  · have hpast : s.past ≠ [] := by
      intro hnil
      have hnone := (h.sound.here hnil hrest).2
      rw [hafter] at hnone
      cases hnone
    have hhere : Boundary cs j := by
      have hb := h.boundary 0 (.inr hrest)
      rw [hrest] at hb
      exact hb.mpr ⟨Nat.le_refl _, boundary_zero _⟩
    -- the element is the first of its chunk, and the boundaries behind are those of the chunks to come
    refine ⟨[], hsound, rfl, by omega, ?_, iff_of_true rfl (.inl hhere), ?_⟩
    · intro i
      have hb := h.boundary (i + 1) (.inl (Nat.succ_pos i))
      rw [hrest, hafter, List.length_nil, Nat.sub_zero, boundary_cons_iff (by omega), List.length_cons,
        Nat.add_sub_add_right, Nat.add_le_add_iff_right] at hb
      rw [Nat.add_assoc, Nat.add_comm 1 i, hb]
      exact and_iff_right (Nat.zero_le _)
    · rw [h.doubled, lastPiece, if_neg hpast, if_pos rfl]
      rfl

/-- The chunk ends behind the element exactly when nothing is left of it. -/
theorem Passed.last_iff (h : Passed cs S j q a s) : Boundary cs (j + 1) ↔ s.rest = [] := by
  have hb := h.boundary 0
  rw [Nat.add_zero, Nat.zero_sub] at hb
  rw [hb, ← List.length_eq_zero_iff, Nat.le_zero]
  exact and_iff_left (boundary_zero _)

/-- Keeping the element. -/
theorem Passed.keep (h : Passed cs S j q a s) (hS : S j = false) : Straight cs S (j + 1) s := by
  have hpast : s.past ≠ [] := by
    rw [h.past]
    simp
  refine ⟨h.sound, h.count, fun i _ => h.boundary i, fun hnil => absurd hnil hpast, ?_, ?_⟩
  · rintro - hrest (hb | htaken)
    · exact hrest (h.last_iff.mp hb)
    · rw [Nat.add_sub_cancel, hS] at htaken
      cases htaken
  · rw [doubled_succ_kept hS, ← h.first, lastPiece, if_neg hpast, h.past, List.length_append, ← ne_eq,
      ← List.length_pos_iff, List.length_singleton]
    omega

/-- Taking it out: the walk turns back, and passes something again, or goes straight on. -/
theorem Passed.drop (h : Passed cs S j q a s) (hS : S j = true) :
    (TurnsBack cs S j ∧ s.ahead.length < s.remove.ahead.length) ∨
      (¬ TurnsBack cs S j ∧ Straight cs S (j + 1) s.remove ∧ s.remove.ahead = s.ahead ∧
        s.remove.behind = s.before.reverse.flatten ++ q) := by
  have hsound := (remove_spec h.sound h.past).1
  -- what is the same in all cases in which nothing comes again
  have hstraight (t : Cursor α) (heq : s.remove = t) (hahead : t.ahead = s.ahead)
      (hbehind : t.behind = s.before.reverse.flatten ++ q)
      (hboundary : ∀ i, 0 < i ∨ t.rest = [] →
        (Boundary cs (j + 1 + i) ↔ t.rest.length ≤ i ∧ Boundary t.after (i - t.rest.length)))
      (hinside : t.past ≠ [] → t.rest = [])
      (hpiece : 2 ≤ t.lastPiece.length ↔ 2 ≤ (if q = [] then s.before.headD [] else q).length) :
      Straight cs S (j + 1) s.remove ∧ s.remove.ahead = s.ahead ∧
        s.remove.behind = s.before.reverse.flatten ++ q := by
    rw [heq] at hsound ⊢
    refine ⟨⟨hsound, by rw [hahead]; exact h.count, hboundary, fun _ => .inr hS,
      fun hpast hrest => absurd (hinside hpast) hrest, ?_⟩, hahead, hbehind⟩
    rw [doubled_succ_taken hS, h.doubled, hpiece]
  rcases remove_cases h.sound h.past with
    ⟨hq, hrest, heq⟩ | ⟨hone, heq⟩ | ⟨hq, hrest, hbefore, heq⟩ | ⟨hq, hrest, b, bs, before, hbefore, heq⟩
  · -- cut in two: something is kept in front of the element
    refine .inr ⟨fun hturn => hq (h.first.mpr hturn.2.2.1), hstraight _ heq rfl ?_ (fun i _ => h.boundary i)
      (fun hpast => absurd rfl hpast) ?_⟩
    · simp [behind]
    · rw [if_neg hq]
      rfl
  · refine .inr ⟨?_, hstraight _ heq rfl rfl (fun i _ => h.boundary i) ?_ Iff.rfl⟩
    · rintro ⟨-, hlast, hfirst, -⟩
      exact hone.mp (h.first.mpr hfirst) (h.last_iff.mp hlast)
    · intro hq
      by_contra hrest
      exact hq (hone.mpr hrest)
  · -- dropped, with nothing in front
    have hnone : ¬ Doubled cs S j := by
      rw [h.doubled, if_pos hq, hbefore]
      exact Nat.not_succ_le_zero 1
    refine .inr ⟨fun hturn => hnone hturn.2.2.2, hstraight _ heq ?_ ?_ ?_ ?_ ?_⟩
    · rw [start_ahead, ahead, hrest, List.nil_append]
    · rw [start_behind, hbefore, hq]
      rfl
    · intro i hi
      rw [h.boundary i, hrest]
      cases hafter : s.after with
      | nil => exact Iff.rfl
      | cons c cs' =>
          have hc : c ≠ [] := h.sound.after c (by rw [hafter]; exact List.mem_cons_self)
          rw [hafter] at hi
          have hpos : 0 < i := hi.resolve_right hc
          exact (and_iff_right (Nat.zero_le i)).trans (boundary_cons_iff hpos)
    · intro hpast
      cases hafter : s.after <;> rw [hafter] at hpast <;> exact absurd rfl hpast
    · rw [if_pos hq, hbefore]
      cases s.after <;> exact Iff.rfl
  · have hdoubled : Doubled cs S j ↔ bs ≠ [] := by
      rw [h.doubled, if_pos hq, hbefore, ← List.length_pos_iff]
      exact Nat.succ_le_succ_iff
    -- dropped: the cursor goes back to the first element of the chunk in front, which may be its only one
    by_cases hbs : bs = []
    · subst hbs
      refine .inr ⟨fun hturn => hdoubled.mp hturn.2.2.2 rfl, hstraight _ heq ?_ ?_ ?_ (fun _ => rfl) ?_⟩
      · rw [ahead, ahead, hrest]
      · simp [behind, hbefore, hq]
      · intro i _
        rw [h.boundary i, hrest]
      · rw [if_pos hq, hbefore]
        rfl
    · refine .inl ⟨⟨hS, h.last_iff.mpr hrest, h.first.mp hq, hdoubled.mpr hbs⟩, ?_⟩
      have hpos := List.length_pos_iff.mpr hbs
      rw [heq, ahead, ahead, hrest, List.nil_append]
      show s.after.flatten.length < (bs ++ s.after.flatten).length
      rw [List.length_append]
      omega

/-- The elements of `l`, numbered from `j` on, whose numbers are not in `S`. -/
def kept (S : Nat → Bool) (j : Nat) (l : List α) : List α := ((l.zipIdx j).filter fun x => !S x.2).map Prod.fst

theorem kept_cons_kept (h : S j = false) : kept S j (a :: l) = a :: kept S (j + 1) l := by
  simp [kept, h]

theorem kept_cons_taken (h : S j = true) : kept S j (a :: l) = kept S (j + 1) l := by
  simp [kept, h]

/-- Without turning back a walk passes each element once. -/
theorem Straight.walk (h : Straight cs S j s) (hno : ∀ i, ¬ TurnsBack cs S i) :
    ∃ e, Walk S j s s.ahead e ∧ e.content = s.behind ++ kept S j s.ahead := by
  -- induction on what is to come
  generalize hl : s.ahead = l
  induction l generalizing j s with
  | nil =>
      refine ⟨s, .stop ?_, ?_⟩
      · cases hnext : s.next with
        | none => rfl
        | some found =>
            have hahead := (next_some h.sound hnext).2.2.2
            rw [hl] at hahead
            cases hahead
      · rw [content, hl]
        rfl
  | cons b l ih =>
      cases hnext : s.next with
      | none =>
          have hahead := next_none h.sound hnext
          rw [hl] at hahead
          cases hahead
      | some found =>
          obtain ⟨a, s'⟩ := found
          obtain ⟨-, -, hbehind, hahead⟩ := next_some h.sound hnext
          rw [hl] at hahead
          cases hahead
          obtain ⟨q, hpassed⟩ := h.next hnext
          cases hS : S j with
          | false =>
              obtain ⟨e, hwalk, hcontent⟩ := ih (hpassed.keep hS) rfl
              refine ⟨e, .keep hnext hS hwalk, ?_⟩
              rw [hcontent, hbehind, kept_cons_kept hS, List.append_assoc]
              rfl
          | true =>
              obtain ⟨hturn, -⟩ | ⟨-, hstraight, hsame, hleft⟩ := hpassed.drop hS
              · exact absurd hturn (hno j)
              · obtain ⟨e, hwalk, hcontent⟩ := ih hstraight hsame
                refine ⟨e, .drop hnext hS hwalk, ?_⟩
                have hbefore : s.behind = s'.before.reverse.flatten ++ q := by
                  have htwo := hbehind
                  rw [behind, hpassed.past, ← List.append_assoc] at htwo
                  exact (List.append_cancel_right htwo).symm
                rw [hcontent, hleft, kept_cons_taken hS, hbefore]

/-- A walk that passes no more than is to come does not turn back. -/
theorem Straight.not_turnsBack (h : Straight cs S j s) (hwalk : Walk S j s l e)
    (hlen : l.length ≤ s.ahead.length) : ∀ i, j ≤ i → ¬ TurnsBack cs S i := by
  induction hwalk with
  | stop hnext =>
      rintro i hi ⟨-, hlast, -⟩
      have hle := hlast.le
      have hcount := h.count
      rw [next_none h.sound hnext, List.length_nil] at hcount
      omega
  | keep hnext hS _ ih =>
      obtain ⟨-, -, -, hahead⟩ := next_some h.sound hnext
      obtain ⟨q, hpassed⟩ := h.next hnext
      rw [hahead, List.length_cons, List.length_cons] at hlen
      intro i hi hturn
      rcases Nat.eq_or_lt_of_le hi with rfl | hlt
      · rw [hturn.1] at hS
        cases hS
      · exact ih (hpassed.keep hS) (by omega) i hlt hturn
  | drop hnext hS hrest ih =>
      obtain ⟨hs', hpast, -, hahead⟩ := next_some h.sound hnext
      obtain ⟨q, hpassed⟩ := h.next hnext
      rw [hahead, List.length_cons, List.length_cons] at hlen
      -- turning back, it would pass more than is left
      have hle := hrest.length_le (remove_spec hs' hpassed.past).1
      obtain ⟨-, hmore⟩ | ⟨hno, hstraight, hsame, -⟩ := hpassed.drop hS
      · omega
      · intro i hi hturn
        rcases Nat.eq_or_lt_of_le hi with rfl | hlt
        · exact hno hturn
        · exact ih hstraight (by rw [hsame]; omega) i hlt hturn

/-- A walk over a list of chunks passes no more than there is exactly when it nowhere turns back. -/
theorem walk_once_iff (hne : ∀ c ∈ cs, c ≠ []) :
    (∃ l e, Walk S 0 (start cs) l e ∧ l.length ≤ cs.flatten.length) ↔ ∀ j, ¬ TurnsBack cs S j := by
  have hstart : Straight cs S 0 (start cs) := start_straight hne
  constructor
  · rintro ⟨l, e, hwalk, hlen⟩ j
    exact hstart.not_turnsBack hwalk (by rw [start_ahead]; exact hlen) j (Nat.zero_le j)
  · intro hno
    obtain ⟨e, hwalk, -⟩ := hstart.walk hno
    rw [start_ahead] at hwalk
    exact ⟨cs.flatten, e, hwalk, Nat.le_refl _⟩

/-- Such a walk passes each element once, in order, and leaves those it did not take out. -/
theorem Walk.once (hne : ∀ c ∈ cs, c ≠ []) (h : Walk S 0 (start cs) l e) (hlen : l.length ≤ cs.flatten.length) :
    l = cs.flatten ∧ e.content = kept S 0 cs.flatten := by
  have hstart : Straight cs S 0 (start cs) := start_straight hne
  obtain ⟨e', hwalk, hcontent⟩ := hstart.walk ((walk_once_iff hne).mp ⟨l, e, h, hlen⟩)
  rw [start_ahead] at hwalk hcontent
  rw [start_behind, List.nil_append] at hcontent
  obtain ⟨rfl, rfl⟩ := h.unique hwalk
  exact ⟨rfl, hcontent⟩

/-! ## Other names for the elements -/

variable {β : Type} {f : α → β}

theorem kept_map : (kept S j l).map f = kept S j (l.map f) := by
  induction l generalizing j with
  | nil => rfl
  | cons a l ih =>
      rw [List.map_cons]
      cases h : S j with
      | false => rw [kept_cons_kept h, kept_cons_kept h, List.map_cons, ih]
      | true => rw [kept_cons_taken h, kept_cons_taken h, ih]

theorem boundary_map : Boundary (cs.map (List.map f)) j ↔ Boundary cs j := by
  constructor
  · rintro ⟨front, back, heq, hlen⟩
    obtain ⟨front, back, rfl, rfl, rfl⟩ := List.map_eq_append_iff.mp heq
    refine ⟨front, back, rfl, ?_⟩
    rw [← List.map_flatten, List.length_map] at hlen
    exact hlen
  · rintro ⟨front, back, rfl, hlen⟩
    refine ⟨front.map (List.map f), back.map (List.map f), List.map_append, ?_⟩
    rw [← List.map_flatten, List.length_map]
    exact hlen

/-- Where a walk turns back depends on the lengths of the chunks alone. -/
theorem turnsBack_map : TurnsBack (cs.map (List.map f)) S j ↔ TurnsBack cs S j := by
  simp only [TurnsBack, Doubled, boundary_map]

end Cursor

end Lib
