import Mathlib.Data.List.Nodup
import Mathlib.Data.Set.Insert

/-!
# Searches that may stop

A search works through tasks, depth first. A task goes to a place, whose own tasks come before
the ones that are left, and no place is entered twice; or it stops the whole search. Which places
were entered until then can be said without running the search: those with a way to them
(`Search.mem_iff`). A way comes by no place twice, and nothing to the left of it stops: neither
its earlier tasks nor what these lead to around the way.
-/

namespace Lib

/-- What a search is to do next. -/
inductive SearchTask (α : Type) where
  | go (p : α)
  | stop
deriving DecidableEq, Repr

variable {α : Type}

/-- A search through `todo` that enters the places `new`, with `seen` left out. -/
inductive Search (tasks : α → List (SearchTask α)) : Set α → List (SearchTask α) → List α → Bool → Prop where
  | nil {seen} : Search tasks seen [] [] false
  | stop {seen todo} : Search tasks seen (.stop :: todo) [] true
  | skip {seen todo p new stopped} : p ∈ seen → Search tasks seen todo new stopped →
      Search tasks seen (.go p :: todo) new stopped
  | stopped {seen todo p new} : p ∉ seen → Search tasks (insert p seen) (tasks p) new true →
      Search tasks seen (.go p :: todo) (p :: new) true
  | enter {seen todo p new new' stopped} : p ∉ seen → Search tasks (insert p seen) (tasks p) new false →
      Search tasks (seen ∪ {q | q ∈ p :: new}) todo new' stopped →
      Search tasks seen (.go p :: todo) (p :: new ++ new') stopped

/-- `p` can be reached from `q` around the `barred` places. -/
inductive Around (tasks : α → List (SearchTask α)) (barred : Set α) (q : α) : α → Prop where
  | here : q ∉ barred → Around tasks barred q q
  | next {p r} : Around tasks barred q p → .go r ∈ tasks p → r ∉ barred → Around tasks barred q r

/-- A way to `target` by places that are not `barred` and come once. Nothing stops in front of it. -/
inductive Way (tasks : α → List (SearchTask α)) (target : α) : Set α → List (SearchTask α) → Prop where
  | here {barred todo} : target ∉ barred → Way tasks target barred (.go target :: todo)
  | enter {barred todo p} : p ∉ barred → Way tasks target (insert p barred) (tasks p) →
      Way tasks target barred (.go p :: todo)
  | behind {barred todo q} : (∀ p, Around tasks barred q p → .stop ∉ tasks p) →
      Way tasks target barred todo → Way tasks target barred (.go q :: todo)

variable {tasks : α → List (SearchTask α)} {seen barred done : Set α} {todo todo' : List (SearchTask α)} {new new' : List α}
  {p q r target : α} {stopped : Bool}

/-! ## One search behind the other -/

theorem Search.append (h : Search tasks seen todo new false)
    (h' : Search tasks (seen ∪ {q | q ∈ new}) todo' new' stopped) :
    Search tasks seen (todo ++ todo') (new ++ new') stopped := by
  generalize hb : false = b at h
  induction h with
  | nil =>
      have hseen : ∀ s : Set α, s ∪ {q | q ∈ ([] : List α)} = s := fun s =>
        Set.ext fun q => or_iff_left List.not_mem_nil
      rw [hseen] at h'
      exact h'
  | stop => cases hb
  | stopped => cases hb
  | skip hp _ ih => exact .skip hp (ih h' hb)
  | @enter seen todo p new new₂ _ hp hsub _ _ ih =>
      have hset : seen ∪ {q | q ∈ p :: new ++ new₂} = seen ∪ {q | q ∈ p :: new} ∪ {q | q ∈ new₂} := by
        ext q
        simp only [Set.mem_union, Set.mem_ofPred_eq, List.mem_append]
        tauto
      rw [hset] at h'
      rw [List.append_assoc]
      exact .enter hp hsub (ih h' hb)

/-- What is behind a stop is not searched. -/
theorem Search.append_stopped (h : Search tasks seen todo new true) (todo' : List (SearchTask α)) :
    Search tasks seen (todo ++ todo') new true := by
  generalize hb : true = b at h
  induction h with
  | nil => cases hb
  | stop => exact .stop
  | skip hp _ ih => exact .skip hp (ih hb)
  | stopped hp hsub => exact .stopped hp hsub
  | enter hp hsub _ _ ih => exact .enter hp hsub (ih hb)

/-! ## Each place once -/

theorem Search.fresh (h : Search tasks seen todo new stopped) : ∀ p ∈ new, p ∉ seen := by
  induction h with
  | nil => exact fun p hp => absurd hp List.not_mem_nil
  | stop => exact fun p hp => absurd hp List.not_mem_nil
  | skip _ _ ih => exact ih
  | stopped hp _ ih =>
      intro q hq
      rcases List.mem_cons.mp hq with rfl | hq
      · exact hp
      · exact fun hseen => ih q hq (.inr hseen)
  | enter hp _ _ ih ih' =>
      intro q hq
      rcases List.mem_append.mp hq with hq | hq
      · rcases List.mem_cons.mp hq with rfl | hq
        · exact hp
        · exact fun hseen => ih q hq (.inr hseen)
      · exact fun hseen => ih' q hq (.inl hseen)

theorem Search.nodup (h : Search tasks seen todo new stopped) : new.Nodup := by
  induction h with
  | nil => exact List.nodup_nil
  | stop => exact List.nodup_nil
  | skip _ _ ih => exact ih
  | stopped _ hsub ih =>
      exact List.nodup_cons.mpr ⟨fun hp => hsub.fresh _ hp (.inl rfl), ih⟩
  | enter _ hsub hrest ih ih' =>
      refine List.nodup_append'.mpr ⟨List.nodup_cons.mpr ⟨fun hp => hsub.fresh _ hp (.inl rfl), ih⟩, ih', ?_⟩
      exact fun q hq hq' => hrest.fresh q hq' (.inr hq)

/-! ## What can be reached around places -/

theorem Around.start (h : Around tasks barred q p) : q ∉ barred := by
  induction h with
  | here hq => exact hq
  | next _ _ _ ih => exact ih

theorem Around.mono (h : Around tasks barred q p) (hsub : done ⊆ barred) : Around tasks done q p := by
  induction h with
  | here hq => exact .here fun hmem => hq (hsub hmem)
  | next _ hgo hr ih => exact .next ih hgo fun hmem => hr (hsub hmem)

theorem Around.trans (h : Around tasks barred q p) (hgo : .go r ∈ tasks p) {s : α}
    (h' : Around tasks barred r s) : Around tasks barred q s := by
  induction h' with
  | here hr => exact .next h hgo hr
  | next _ hgo' hr ih => exact .next ih hgo' hr

/-- A search that stopped met a task that stops. -/
theorem Search.stops (h : Search tasks seen todo new true) :
    .stop ∈ todo ∨ ∃ q, .go q ∈ todo ∧ ∃ p, Around tasks seen q p ∧ .stop ∈ tasks p := by
  generalize hb : true = b at h
  induction h with
  | nil => cases hb
  | stop => exact .inl List.mem_cons_self
  | skip _ _ ih =>
      rcases ih hb with hstop | ⟨q, hgo, hq⟩
      · exact .inl (List.mem_cons_of_mem _ hstop)
      · exact .inr ⟨q, List.mem_cons_of_mem _ hgo, hq⟩
  | @stopped _ _ p _ hp _ ih =>
      refine .inr ⟨p, List.mem_cons_self, ?_⟩
      rcases ih hb with hstop | ⟨q, hgo, s, hs, hstop⟩
      · exact ⟨p, .here hp, hstop⟩
      · exact ⟨s, (Around.here hp).trans hgo (hs.mono (Set.subset_insert _ _)), hstop⟩
  | enter _ _ _ _ ih =>
      rcases ih hb with hstop | ⟨q, hgo, s, hs, hstop⟩
      · exact .inl (List.mem_cons_of_mem _ hstop)
      · exact .inr ⟨q, List.mem_cons_of_mem _ hgo, s, hs.mono Set.subset_union_left, hstop⟩

/-! ## Places that are done -/

/-- The places `done` do not stop, and lead to each other and to `barred` ones only. -/
def Finished (tasks : α → List (SearchTask α)) (barred done : Set α) : Prop :=
  ∀ p ∈ done, .stop ∉ tasks p ∧ ∀ q, .go q ∈ tasks p → q ∈ barred ∨ q ∈ done

theorem Finished.mono (h : Finished tasks seen done) (hsub : seen ⊆ barred) : Finished tasks barred done :=
  fun p hp => ⟨(h p hp).1, fun q hq => ((h p hp).2 q hq).imp_left fun hmem => hsub hmem⟩

/-- A search that came to its end is done with what it entered. -/
theorem Search.finished (h : Search tasks seen todo new false) :
    (.stop ∉ todo ∧ ∀ q, .go q ∈ todo → q ∈ seen ∨ q ∈ new) ∧ Finished tasks seen {q | q ∈ new} := by
  generalize hb : false = b at h
  induction h with
  | nil =>
      exact ⟨⟨List.not_mem_nil, fun q hq => absurd hq List.not_mem_nil⟩, fun q hq => absurd hq List.not_mem_nil⟩
  | stop => cases hb
  | stopped => cases hb
  | @skip seen todo p new _ hp _ ih =>
      obtain ⟨⟨hstop, hgo⟩, hdone⟩ := ih hb
      refine ⟨⟨fun hmem => ?_, fun q hq => ?_⟩, hdone⟩
      · rcases List.mem_cons.mp hmem with heq | hmem
        · cases heq
        · exact hstop hmem
      · rcases List.mem_cons.mp hq with heq | hq
        · cases heq
          exact .inl hp
        · exact hgo q hq
  | @enter seen todo p new new' _ hp _ _ ih ih' =>
      -- the search below `p`, and the one of the tasks behind
      obtain ⟨⟨hstop, hgo⟩, hdone⟩ := ih rfl
      obtain ⟨⟨hstop', hgo'⟩, hdone'⟩ := ih' hb
      have hfirst {q : α} (hq : q ∈ insert p seen ∨ q ∈ new) : q ∈ seen ∨ q ∈ p :: new ++ new' := by
        simp only [Set.mem_insert_iff, List.mem_append, List.mem_cons] at hq ⊢
        tauto
      have hsecond {q : α} (hq : q ∈ seen ∪ {q | q ∈ p :: new} ∨ q ∈ new') : q ∈ seen ∨ q ∈ p :: new ++ new' := by
        simp only [Set.mem_union, Set.mem_ofPred_eq, List.mem_append] at hq ⊢
        tauto
      refine ⟨⟨fun hmem => ?_, fun q hq => ?_⟩, fun q hq => ?_⟩
      · rcases List.mem_cons.mp hmem with heq | hmem
        · cases heq
        · exact hstop' hmem
      · rcases List.mem_cons.mp hq with heq | hq
        · cases heq
          exact hfirst (.inl (.inl rfl))
        · exact hsecond (hgo' q hq)
      · rcases List.mem_append.mp hq with hq | hq
        · rcases List.mem_cons.mp hq with rfl | hq
          · exact ⟨hstop, fun s hs => hfirst (hgo s hs)⟩
          · exact ⟨(hdone q hq).1, fun s hs => hfirst ((hdone q hq).2 s hs)⟩
        · exact ⟨(hdone' q hq).1, fun s hs => hsecond ((hdone' q hq).2 s hs)⟩

/-- What is reached is done, or is reached around what is done. -/
theorem Around.split (h : Around tasks barred q p) (hdone : Finished tasks barred done) :
    p ∈ done ∨ Around tasks (barred ∪ done) q p := by
  induction h with
  | here hq =>
      by_cases hmem : q ∈ done
      · exact .inl hmem
      · exact .inr (.here fun hu => hu.elim hq hmem)
  | @next p r _ hgo hr ih =>
      by_cases hmem : r ∈ done
      · exact .inl hmem
      rcases ih with hp | haround
      · exact .inl (((hdone p hp).2 r hgo).resolve_left hr)
      · exact .inr (.next haround hgo fun hu => hu.elim hr hmem)

/-- To stop, a search has to leave what is done. -/
theorem safe_union_iff (hdone : Finished tasks barred done) :
    (∀ p, Around tasks (barred ∪ done) q p → .stop ∉ tasks p) ↔ ∀ p, Around tasks barred q p → .stop ∉ tasks p := by
  constructor
  · intro h p hp
    rcases hp.split hdone with hmem | haround
    · exact (hdone p hmem).1
    · exact h p haround
  · intro h p hp
    exact h p (hp.mono Set.subset_union_left)

/-! ## Ways -/

/-- A way does not leave what is done. -/
theorem Way.mem_done (h : Way tasks target barred todo) (hdone : Finished tasks barred done)
    (hgo : ∀ q, .go q ∈ todo → q ∈ barred ∨ q ∈ done) : target ∈ done := by
  induction h with
  | here hp => exact (hgo _ List.mem_cons_self).resolve_left hp
  | @enter barred todo p hp _ ih =>
      have hmem : p ∈ done := (hgo p List.mem_cons_self).resolve_left hp
      exact ih (hdone.mono (Set.subset_insert _ _)) fun q hq => ((hdone p hmem).2 q hq).imp_left .inr
  | behind _ _ ih => exact ih hdone fun q hq => hgo q (List.mem_cons_of_mem _ hq)

/-- A way to a place that is not done goes around what is done. -/
theorem way_union_iff (hdone : Finished tasks barred done) (htarget : target ∉ done) :
    Way tasks target (barred ∪ done) todo ↔ Way tasks target barred todo := by
  constructor
  · intro h
    generalize hb : barred ∪ done = b at h
    induction h generalizing barred with
    | here hp => exact .here fun hmem => hp (hb ▸ .inl hmem)
    | @enter b todo p hp _ ih =>
        refine .enter (fun hmem => hp (hb ▸ .inl hmem)) ?_
        exact ih (hdone.mono (Set.subset_insert _ _)) (by rw [Set.insert_union, hb])
    | behind hsafe _ ih =>
        subst hb
        exact .behind ((safe_union_iff hdone).mp hsafe) (ih hdone rfl)
  · intro h
    induction h with
    | here hp => exact .here fun hmem => hmem.elim hp htarget
    | @enter barred todo p hp hway ih =>
        -- were `p` done, all it leads to would be, the target too
        have hgrow : Finished tasks (insert p barred) done := hdone.mono (Set.subset_insert _ _)
        refine .enter (fun hmem => hmem.elim hp fun hin => htarget ?_) ?_
        · exact hway.mem_done hgrow fun q hq => ((hdone p hin).2 q hq).imp_left .inr
        · rw [← Set.insert_union]
          exact ih hgrow
    | behind hsafe _ ih => exact .behind ((safe_union_iff hdone).mpr hsafe) (ih hdone)

/-- A search enters the places with a way to them. -/
theorem Search.mem_iff (h : Search tasks seen todo new stopped) : target ∈ new ↔ Way tasks target seen todo := by
  induction h with
  | nil => exact iff_of_false List.not_mem_nil fun hway => by cases hway
  | stop => exact iff_of_false List.not_mem_nil fun hway => by cases hway
  | skip hp _ ih =>
      rw [ih]
      constructor
      · exact .behind fun q hq => absurd hp hq.start
      · intro hway
        cases hway with
        | here hnew => exact absurd hp hnew
        | enter hnew _ => exact absurd hp hnew
        | behind _ hway => exact hway
  | @stopped seen todo p new hp hsub ih =>
      rw [List.mem_cons, ih]
      constructor
      · rintro (rfl | hway)
        · exact .here hp
        · exact .enter hp hway
      · intro hway
        cases hway with
        | here _ => exact .inl rfl
        | enter _ hway => exact .inr hway
        | behind hsafe _ =>
            -- the search stopped below `p`
            rcases hsub.stops with hstop | ⟨q, hgo, s, hs, hstop⟩
            · exact absurd hstop (hsafe p (.here hp))
            · exact absurd hstop (hsafe s ((Around.here hp).trans hgo (hs.mono (Set.subset_insert _ _))))
  | @enter seen todo p new new' _ hp hsub _ ih ih' =>
      obtain ⟨⟨hstop, hgo⟩, hfin⟩ := hsub.finished
      have hdone : Finished tasks seen {q | q ∈ p :: new} := by
        intro q hq
        have hmem {s : α} (hs : s ∈ insert p seen ∨ s ∈ new) : s ∈ seen ∨ s ∈ p :: new := by
          simp only [Set.mem_insert_iff, List.mem_cons] at hs ⊢
          tauto
        rcases List.mem_cons.mp hq with rfl | hq
        · exact ⟨hstop, fun s hs => hmem (hgo s hs)⟩
        · exact ⟨(hfin q hq).1, fun s hs => hmem ((hfin q hq).2 s hs)⟩
      have hsafe : ∀ q, Around tasks seen p q → .stop ∉ tasks q := by
        refine (safe_union_iff hdone).mp fun q hq => ?_
        exact absurd (Or.inr List.mem_cons_self) hq.start
      -- a way to a place that was entered below `p` leads through `p`, any other goes around
      rw [List.mem_append, ih']
      by_cases hin : target ∈ p :: new
      · refine iff_of_true (.inl hin) ?_
        rcases List.mem_cons.mp hin with rfl | hin
        · exact .here hp
        · exact .enter hp (ih.mp hin)
      · rw [way_union_iff hdone hin]
        constructor
        · intro hway
          exact .behind hsafe (hway.resolve_left hin)
        · intro hway
          cases hway with
          | here _ => exact absurd List.mem_cons_self hin
          | enter _ hway => exact absurd (List.mem_cons_of_mem _ (ih.mpr hway)) hin
          | behind _ hway => exact .inr hway

end Lib
