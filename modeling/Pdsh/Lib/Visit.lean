import Mathlib.Logic.Relation
import Mathlib.Data.List.Nodup
import Mathlib.Data.Set.Insert

/-!
# Visiting each place once

A visit starts from some roots and goes on from every place it enters, depth first, but enters
no place that was seen before. `Visit succ seen roots new` says what such a visit has done when
it comes to its end: `new` are the places it has entered. Places seen before may still be in
progress, so nothing is said about where they lead. A visit that starts with nothing seen enters
exactly what can be reached (`Visit.mem_iff`).
-/

namespace Lib

variable {α β : Type} {succ : α → List α} {seen : Set α} {roots roots' new new' : List α} {p : α}

/-- The place can be reached from one of the roots. -/
def Reached (succ : α → List α) (roots : List α) (p : α) : Prop :=
  ∃ r ∈ roots, Relation.ReflTransGen (fun a b => b ∈ succ a) r p

/-- A visit from `roots` entered the places `new`, with `seen` left out. -/
structure Visit (succ : α → List α) (seen : Set α) (roots new : List α) : Prop where
  nodup : new.Nodup
  fresh : ∀ p ∈ new, p ∉ seen
  reached : ∀ p ∈ new, Reached succ roots p
  roots : ∀ p ∈ roots, p ∈ seen ∨ p ∈ new
  closed : ∀ p ∈ new, ∀ q ∈ succ p, q ∈ seen ∨ q ∈ new

theorem Reached.mono (h : Reached succ roots p) (hsub : roots ⊆ roots') : Reached succ roots' p := by
  obtain ⟨r, hr, hpath⟩ := h
  exact ⟨r, hsub hr, hpath⟩

/-- No roots, nothing to do. -/
theorem Visit.nil : Visit succ seen [] [] :=
  ⟨List.nodup_nil, fun _ h => absurd h List.not_mem_nil, fun _ h => absurd h List.not_mem_nil,
    fun _ h => absurd h List.not_mem_nil, fun _ h => absurd h List.not_mem_nil⟩

/-- A place that was seen before is not entered. -/
theorem Visit.skip (h : p ∈ seen) : Visit succ seen [p] [] := by
  refine ⟨List.nodup_nil, fun _ h => absurd h List.not_mem_nil, fun _ h => absurd h List.not_mem_nil, ?_,
    fun _ h => absurd h List.not_mem_nil⟩
  intro q hq
  rw [List.mem_singleton.mp hq]
  exact .inl h

/-- Another one is seen from then on, and the visit goes on from it. -/
theorem Visit.enter (h : p ∉ seen) (hv : Visit succ (insert p seen) (succ p) new) :
    Visit succ seen [p] (p :: new) := by
  have hmem {q : α} (hq : q ∈ insert p seen ∨ q ∈ new) : q ∈ seen ∨ q ∈ p :: new := by
    rcases hq with hq | hq
    · rcases Set.mem_insert_iff.mp hq with rfl | hq
      · exact .inr List.mem_cons_self
      · exact .inl hq
    · exact .inr (List.mem_cons_of_mem _ hq)
  refine ⟨List.nodup_cons.mpr ⟨fun hp => ?_, hv.nodup⟩, ?_, ?_, ?_, ?_⟩
  · exact hv.fresh p hp (Set.mem_insert p seen)
  · intro q hq
    rcases List.mem_cons.mp hq with rfl | hq
    · exact h
    · exact fun hseen => hv.fresh q hq (Set.mem_insert_of_mem p hseen)
  · intro q hq
    rcases List.mem_cons.mp hq with rfl | hq
    · exact ⟨q, List.mem_cons_self, .refl⟩
    · obtain ⟨r, hr, hpath⟩ := hv.reached q hq
      exact ⟨p, List.mem_cons_self, .head hr hpath⟩
  · intro q hq
    rw [List.mem_singleton.mp hq]
    exact .inr List.mem_cons_self
  · intro q hq s hs
    rcases List.mem_cons.mp hq with rfl | hq
    · exact hmem (hv.roots s hs)
    · exact hmem (hv.closed q hq s hs)

/-- One visit behind the other. -/
theorem Visit.append (h : Visit succ seen roots new) (h' : Visit succ (seen ∪ {p | p ∈ new}) roots' new') :
    Visit succ seen (roots ++ roots') (new ++ new') := by
  have hfirst {q : α} (hq : q ∈ seen ∨ q ∈ new) : q ∈ seen ∨ q ∈ new ++ new' :=
    hq.imp_right (List.mem_append_left new')
  have hsecond {q : α} (hq : q ∈ seen ∪ {p | p ∈ new} ∨ q ∈ new') : q ∈ seen ∨ q ∈ new ++ new' := by
    rcases hq with hq | hq
    · exact hfirst hq
    · exact .inr (List.mem_append_right new hq)
  refine ⟨List.nodup_append'.mpr ⟨h.nodup, h'.nodup, fun q hq hq' => h'.fresh q hq' (.inr hq)⟩, ?_, ?_, ?_, ?_⟩
  · intro q hq
    rcases List.mem_append.mp hq with hq | hq
    · exact h.fresh q hq
    · exact fun hseen => h'.fresh q hq (.inl hseen)
  · intro q hq
    rcases List.mem_append.mp hq with hq | hq
    · exact (h.reached q hq).mono (List.subset_append_left _ _)
    · exact (h'.reached q hq).mono (List.subset_append_right _ _)
  · intro q hq
    rcases List.mem_append.mp hq with hq | hq
    · exact hfirst (h.roots q hq)
    · exact hsecond (h'.roots q hq)
  · intro q hq s hs
    rcases List.mem_append.mp hq with hq | hq
    · exact hfirst (h.closed q hq s hs)
    · exact hsecond (h'.closed q hq s hs)

/-- With nothing seen before, what is entered is what can be reached. -/
theorem Visit.mem_iff (h : Visit succ ∅ roots new) : p ∈ new ↔ Reached succ roots p := by
  constructor
  · exact h.reached p
  · rintro ⟨r, hr, hpath⟩
    induction hpath with
    | refl => exact (h.roots r hr).resolve_left id
    | tail _ hstep ih => exact (h.closed _ ih _ hstep).resolve_left id

/-- A value that the places lead to comes up once if and only if one place at most leads to it. -/
theorem count_filterMap_le_one_iff [DecidableEq β] {f : α → Option β} {b : β} (hnodup : new.Nodup) :
    (new.filterMap f).count b ≤ 1 ↔ ∀ p ∈ new, ∀ q ∈ new, f p = some b → f q = some b → p = q := by
  induction new with
  | nil => exact iff_of_true (Nat.zero_le 1) fun p hp => absurd hp List.not_mem_nil
  | cons a new ih =>
      obtain ⟨ha, hnew⟩ := List.nodup_cons.mp hnodup
      have hrest : (∀ p ∈ a :: new, ∀ q ∈ a :: new, f p = some b → f q = some b → p = q) ↔
          (f a = some b → ∀ q ∈ new, f q ≠ some b) ∧
            ∀ p ∈ new, ∀ q ∈ new, f p = some b → f q = some b → p = q := by
        constructor
        · intro hone
          refine ⟨fun hab q hq hqb => ha ?_, fun p hp q hq =>
            hone p (List.mem_cons_of_mem _ hp) q (List.mem_cons_of_mem _ hq)⟩
          exact hone a List.mem_cons_self q (List.mem_cons_of_mem _ hq) hab hqb ▸ hq
        · rintro ⟨hno, hone⟩ p hp q hq hpb hqb
          rcases List.mem_cons.mp hp with rfl | hp'
          · rcases List.mem_cons.mp hq with rfl | hq'
            · rfl
            · exact absurd hqb (hno hpb q hq')
          · rcases List.mem_cons.mp hq with rfl | hq'
            · exact absurd hpb (hno hqb p hp')
            · exact hone p hp' q hq' hpb hqb
      rw [hrest, ← ih hnew]
      cases hfa : f a with
      | none =>
          rw [List.filterMap_cons_none hfa]
          exact ⟨fun h => ⟨fun hno => (nomatch hno), h⟩, fun h => h.2⟩
      | some c =>
          rw [List.filterMap_cons_some hfa]
          by_cases hc : c = b
          · -- then none of the others may lead to `b`
            subst hc
            have hzero : (new.filterMap f).count c = 0 ↔ ∀ q ∈ new, f q ≠ some c := by
              rw [List.count_eq_zero, List.mem_filterMap]
              exact ⟨fun hno q hq hqb => hno ⟨q, hq, hqb⟩, fun hno ⟨q, hq, hqb⟩ => hno q hq hqb⟩
            rw [List.count_cons_self, ← hzero]
            exact ⟨fun h => ⟨fun _ => by omega, by omega⟩, fun h => by have := h.1 rfl; omega⟩
          · rw [List.count_cons_of_ne hc]
            exact ⟨fun h => ⟨fun heq => absurd (Option.some.inj heq) hc, h⟩, fun h => h.2⟩

end Lib
