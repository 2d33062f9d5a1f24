import Mathlib.Data.List.Basic
import Mathlib.Tactic

/-!
# Lines of a sequence

A line is a run of values up to and with the first terminator `nl`; behind the last one a
piece without terminator may be left. `mark` puts a label in front of every line and of that
piece. A sequence that ends with a terminator can be marked apart from what follows
(`mark_append`), so the labels do not depend on where a stream was cut. `lines` are the lines
themselves, and `cut` the pieces that a buffer of fixed length makes of one.
-/

namespace Lib.Lines

variable {α : Type} {nl : α}

/-- No line is left open. -/
def Ended (nl : α) (s : List α) : Prop := s = [] ∨ s.getLast? = some nl

/-- No line, and no piece left, is longer than `k`, its terminator included. -/
def AtMost (nl : α) (k : Nat) (s : List α) : Prop :=
  ∀ before line after, s = before ++ line ++ after → nl ∉ line.dropLast → line.length ≤ k

theorem ended_append {s t : List α} (hs : Ended nl s) (ht : Ended nl t) : Ended nl (s ++ t) := by
  rcases ht with rfl | ht
  · simpa using hs
  · exact .inr (by rw [List.getLast?_append, ht]; rfl)

theorem ended_line (p : List α) : Ended nl (p ++ [nl]) := .inr (by simp)

/-- Two texts cut behind their first lines. -/
theorem cut_inj {p q s t : List α} (hp : nl ∉ p) (hq : nl ∉ q) (h : p ++ nl :: s = q ++ nl :: t) :
    p = q ∧ s = t := by
  rcases List.append_eq_append_iff.mp h with ⟨x, rfl, hx⟩ | ⟨x, rfl, hx⟩
  · cases x with
    | nil =>
        cases hx
        exact ⟨(List.append_nil p).symm, rfl⟩
    | cons c x =>
        cases hx
        exact absurd (List.mem_append_right p List.mem_cons_self) hq
  · cases x with
    | nil =>
        cases hx
        exact ⟨List.append_nil q, rfl⟩
    | cons c x =>
        cases hx
        exact absurd (List.mem_append_right q List.mem_cons_self) hp

theorem Ended.tail {t : List α} (p : List α) (h : Ended nl (p ++ nl :: t)) : Ended nl t := by
  rcases h with hnil | hlast
  · simp at hnil
  · cases t with
    | nil => exact .inl rfl
    | cons c t =>
        right
        rwa [List.getLast?_append_cons, List.getLast?_cons_cons] at hlast

/-- Every sequence is cut in two behind its last line. -/
theorem exists_ended (nl : α) (s : List α) : ∃ done open_, s = done ++ open_ ∧ Ended nl done ∧
    nl ∉ open_ := by
  induction s using List.reverseRecOn with
  | nil => exact ⟨[], [], rfl, .inl rfl, by simp⟩
  | append_singleton s c ih =>
      by_cases hc : c = nl
      · subst hc
        exact ⟨s ++ [c], [], by simp, ended_line s, by simp⟩
      · obtain ⟨done, open_, rfl, hdone, hopen⟩ := ih
        refine ⟨done, open_ ++ [c], by simp, hdone, ?_⟩
        simp [hopen, Ne.symm hc]

/-- There is one way to cut a sequence behind its last line. -/
theorem ended_unique {s t p q : List α} (hs : Ended nl s) (ht : Ended nl t) (hp : nl ∉ p)
    (hq : nl ∉ q)
    (h : s ++ p = t ++ q) : s = t ∧ p = q := by
  have hnil : ∀ {u x : List α}, Ended nl (u ++ x) → nl ∉ x → x = [] := by
    intro u x hended hx
    by_contra hne
    rcases hended with hempty | hlast
    · exact hne (List.append_eq_nil_iff.mp hempty).2
    · rw [List.getLast?_append_of_ne_nil _ hne] at hlast
      exact hx (List.mem_of_getLast? hlast)
  rcases List.append_eq_append_iff.mp h with ⟨x, rfl, rfl⟩ | ⟨x, rfl, rfl⟩
  · obtain rfl := hnil ht fun hc => hp (List.mem_append_left _ hc)
    simp
  · obtain rfl := hnil hs fun hc => hq (List.mem_append_left _ hc)
    simp

/-- An open piece and what follows it up to the end of its line are one line. -/
theorem AtMost.piece {k : Nat} {s before line after : List α} (h : AtMost nl k s)
    (hs : s = before ++ line ++ after) (hline : nl ∉ line) : line.length ≤ k :=
  h before line after hs fun hmem => hline (List.dropLast_subset line hmem)

/-- A piece of the full length is followed by nothing. -/
theorem AtMost.full {k : Nat} {s before line after : List α} (h : AtMost nl k s)
    (hs : s = before ++ line ++ after) (hline : nl ∉ line) (hlen : line.length = k) :
    after = [] := by
  cases after with
  | nil => rfl
  | cons c after =>
      have hlong := h before (line ++ [c]) after (by rw [hs]; simp) (by simpa using hline)
      rw [List.length_append, List.length_singleton] at hlong
      omega

/-! ## Pieces of a fixed length -/

/-- A sequence cut into pieces of `k`, in at most `fuel` pieces. -/
def cutLoop (k : Nat) : Nat → List α → List (List α)
  | 0, _ => []
  | _ + 1, [] => []
  | fuel + 1, c :: s => (c :: s).take k :: cutLoop k fuel ((c :: s).drop k)

/-- A sequence cut into pieces of `k`; the last one may be shorter. -/
def cut (k : Nat) (s : List α) : List (List α) := cutLoop k s.length s

variable {k : Nat}

theorem cutLoop_enough (hk : 0 < k) {s : List α} {fuel : Nat} (h : s.length ≤ fuel) :
    cutLoop k fuel s = cut k s := by
  have hgo : ∀ n (s : List α) fuel fuel', s.length ≤ n → s.length ≤ fuel → s.length ≤ fuel' →
      cutLoop k fuel s = cutLoop k fuel' s := by
    intro n
    induction n with
    | zero =>
        intro s fuel fuel' hn _ _
        obtain rfl := List.length_eq_zero_iff.mp (Nat.le_zero.mp hn)
        cases fuel <;> cases fuel' <;> rfl
    | succ n ih =>
        intro s fuel fuel' hn hfuel hfuel'
        cases s with
        | nil => cases fuel <;> cases fuel' <;> rfl
        | cons c s =>
            obtain ⟨fuel, rfl⟩ := Nat.exists_eq_succ_of_ne_zero (n := fuel)
                (by simp at hfuel; omega)
            obtain ⟨fuel', rfl⟩ := Nat.exists_eq_succ_of_ne_zero (n := fuel')
                (by simp at hfuel'; omega)
            have hdrop : ((c :: s).drop k).length ≤ s.length := by
              rw [List.length_drop, List.length_cons]
              omega
            simp only [List.length_cons, Nat.succ_eq_add_one] at hn hfuel hfuel'
            rw [cutLoop, cutLoop, ih _ fuel fuel' (by omega) (by omega) (by omega)]
  exact hgo s.length s fuel s.length (Nat.le_refl _) h (Nat.le_refl _)

theorem cut_ne_nil (hk : 0 < k) {s : List α} (hs : s ≠ []) :
    cut k s = s.take k :: cut k (s.drop k) := by
  cases s with
  | nil => exact absurd rfl hs
  | cons c s =>
      rw [cut, List.length_cons, cutLoop, cutLoop_enough hk]
      rw [List.length_drop, List.length_cons]
      omega

theorem cut_short (hk : 0 < k) {s : List α} (hs : s ≠ []) (hlen : s.length ≤ k) :
    cut k s = [s] := by
  rw [cut_ne_nil hk hs, List.take_of_length_le hlen, List.drop_of_length_le hlen]
  rfl

/-- The pieces are the sequence. -/
theorem flatten_cut (hk : 0 < k) (s : List α) : (cut k s).flatten = s := by
  induction hn : s.length using Nat.strong_induction_on generalizing s with
  | _ n ih =>
    by_cases hs : s = []
    · subst hs
      rfl
    · have hpos := List.length_pos_iff.mpr hs
      rw [cut_ne_nil hk hs, List.flatten_cons, ih _ _ _ rfl, List.take_append_drop]
      rw [List.length_drop]
      omega

/-- A piece with another one behind it is full. -/
theorem length_of_cut (hk : 0 < k) {s c : List α} {a cs : List (List α)}
    (h : cut k s = a ++ c :: cs) (hcs : cs ≠ []) :
    c.length = k := by
  induction a generalizing s with
  | nil =>
      have hs : s ≠ [] := by
        rintro rfl
        cases h
      rw [cut_ne_nil hk hs] at h
      obtain ⟨rfl, rfl⟩ := List.cons.inj h
      have hdrop : s.drop k ≠ [] := by
        intro hnil
        rw [hnil] at hcs
        exact hcs rfl
      have hlen := List.length_pos_iff.mpr hdrop
      rw [List.length_drop] at hlen
      rw [List.length_take]
      omega
  | cons b a ih =>
      have hs : s ≠ [] := by
        rintro rfl
        cases h
      rw [cut_ne_nil hk hs] at h
      exact ih (List.cons.inj h).2

/-! ## Labels -/

variable [DecidableEq α] {label : List α}

/-- The sequence with the label in front of each line; `fresh` when a line begins here. -/
def mark (nl : α) (label : List α) : (fresh : Bool) → List α → List α
  | _, [] => []
  | fresh, c :: s => (if fresh then label else []) ++ c :: mark nl label (c = nl) s

/-- A run without a terminator goes on as it is. -/
theorem mark_open_append (p t : List α) (hp : nl ∉ p) :
    mark nl label false (p ++ t) = p ++ mark nl label false t := by
  induction p with
  | nil => rfl
  | cons c p ih =>
      have hc : ¬ c = nl := fun h => hp (h ▸ List.mem_cons_self)
      rw [List.cons_append, mark, decide_eq_false hc, ih fun h => hp (List.mem_cons_of_mem _ h)]
      simp

/-- What is left open has one label. -/
theorem mark_open (p : List α) (hp : nl ∉ p) :
    mark nl label true p = if p = [] then [] else label ++ p := by
  cases p with
  | nil => rfl
  | cons c p =>
      have hc : ¬ c = nl := fun h => hp (h ▸ List.mem_cons_self)
      have hrest := @mark_open_append α nl _ label p [] fun h => hp (List.mem_cons_of_mem _ h)
      rw [List.append_nil, mark, List.append_nil] at hrest
      rw [mark, decide_eq_false hc, hrest]
      simp

/-- One line has one label. -/
theorem mark_line (p t : List α) (hp : nl ∉ p) :
    mark nl label true (p ++ nl :: t) = label ++ p ++ nl :: mark nl label true t := by
  cases p with
  | nil => simp [mark]
  | cons c p =>
      have hc : ¬ c = nl := fun h => hp (h ▸ List.mem_cons_self)
      rw [List.cons_append, mark, decide_eq_false hc,
        mark_open_append p _ fun h => hp (List.mem_cons_of_mem _ h), mark]
      simp

/-- Where a line has ended, the labels of what follows are its own. -/
theorem mark_append {s : List α} (hs : Ended nl s) (t : List α) :
    mark nl label true (s ++ t) = mark nl label true s ++ mark nl label true t := by
  have hgo : ∀ (s : List α) (fresh : Bool), s.getLast? = some nl →
      mark nl label fresh (s ++ t) = mark nl label fresh s ++ mark nl label true t := by
    intro s
    induction s with
    | nil => intro fresh h; cases h
    | cons c s ih =>
        intro fresh h
        cases s with
        | nil =>
            obtain rfl : c = nl := by simpa using h
            simp [mark]
        | cons c' s =>
            rw [List.getLast?_cons_cons] at h
            show (if fresh then label else []) ++ c :: mark nl label (c = nl) (c' :: s ++ t) =
              ((if fresh then label else []) ++ c :: mark nl label (c = nl) (c' :: s)) ++
                mark nl label true t
            rw [ih _ h, List.append_assoc, List.cons_append]
  rcases hs with rfl | hs
  · rfl
  · exact hgo s true hs

/-! ## The lines -/

/-- The lines of a sequence, each with its terminator; what is left open is the last. -/
def lines (nl : α) : List α → List (List α)
  | [] => []
  | c :: s =>
      if c = nl then [c] :: lines nl s
      else match lines nl s with
        | [] => [[c]]
        | l :: ls => (c :: l) :: ls

theorem lines_line (p t : List α) (hp : nl ∉ p) :
    lines nl (p ++ nl :: t) = (p ++ [nl]) :: lines nl t := by
  induction p with
  | nil => simp [lines]
  | cons c p ih =>
      have hc : ¬ c = nl := fun h => hp (h ▸ List.mem_cons_self)
      rw [List.cons_append, lines, if_neg hc, ih fun h => hp (List.mem_cons_of_mem _ h)]
      rfl

theorem lines_open {p : List α} (hp : nl ∉ p) (hne : p ≠ []) : lines nl p = [p] := by
  induction p with
  | nil => exact absurd rfl hne
  | cons c p ih =>
      have hc : ¬ c = nl := fun h => hp (h ▸ List.mem_cons_self)
      cases p with
      | nil => simp [lines, hc]
      | cons d p =>
          rw [lines, if_neg hc, ih (fun h => hp (List.mem_cons_of_mem _ h)) (List.cons_ne_nil d p)]

/-- Labels taken off again: the lines of a text are those that stand behind the labels. -/
theorem lines_of_mark (label : List α) (hlabel : nl ∉ label) {bodies : List (List α)}
    (hbodies : ∀ b ∈ bodies, nl ∉ b) {s : List α} (hs : Ended nl s)
    (h : mark nl label true s = bodies.flatMap fun b => label ++ b ++ [nl]) :
    lines nl s = bodies.map (· ++ [nl]) := by
  induction bodies generalizing s with
  | nil =>
      cases s with
      | nil => rfl
      | cons c s => simp [mark] at h
  | cons b bodies ih =>
      have hmem : nl ∈ s := by
        rcases hs with rfl | hlast
        · simp [mark] at h
        · exact List.mem_of_getLast? hlast
      obtain ⟨p, t, rfl, hp⟩ := List.eq_append_cons_of_mem hmem
      have hopen : ∀ {x : List α}, nl ∉ x → nl ∉ label ++ x := by
        intro x hx hc
        exact (List.mem_append.mp hc).elim hlabel hx
      have hb := hbodies b List.mem_cons_self
      rw [mark_line _ _ hp, List.flatMap_cons, List.append_assoc _ [nl], List.singleton_append] at h
      obtain ⟨hhead, htail⟩ := cut_inj (hopen hp) (hopen hb) h
      rw [lines_line _ _ hp, List.append_cancel_left hhead, List.map_cons,
        ih (fun b' hb' => hbodies b' (List.mem_cons_of_mem b hb')) (hs.tail p) htail]

end Lib.Lines
