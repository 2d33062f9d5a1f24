import Mathlib.Data.List.Basic
import Mathlib.Data.List.Perm.Basic
import Mathlib.Tactic

/-!
# Collecting a list under keys

A program goes through a list and keeps, for each key, a value that it updates with every item of
that key: a table of lists, of counts, of states. `collect` is this loop over a table in the order
in which the keys come up. Each key is there once (`collect_nodup`), and its value is that of a
loop over the items of that key alone (`mem_collect_iff`). The items are cut up by their keys
(`flatMap_filter_perm`).
-/

namespace Lib

variable {α β κ : Type*} [DecidableEq κ] {key : α → κ} {step : β → α → β} {init b : β}
  {m : List (κ × β)} {l : List α} {ks : List κ} {k k' : κ}

/-- The value under a key is updated; a new key is put at the end. -/
def upsert (k : κ) (f : Option β → β) : List (κ × β) → List (κ × β)
  | [] => [(k, f none)]
  | x :: m => if x.1 = k then (k, f (some x.2)) :: m else x :: upsert k f m

/-- The table of a list, with one value for each key. -/
def collect (key : α → κ) (step : β → α → β) (init : β) (l : List α) : List (κ × β) :=
  l.foldl (fun m a => upsert (key a) (fun b => step (b.getD init) a) m) []

/-! ## One item -/

theorem mem_keys_upsert_iff {f : Option β → β} :
    k' ∈ (upsert k f m).map Prod.fst ↔ k' = k ∨ k' ∈ m.map Prod.fst := by
  induction m with
  | nil => simp [upsert]
  | cons x m ih =>
      rw [upsert]
      split
      · rename_i heq
        simp [heq]
      · rw [List.map_cons, List.mem_cons, ih, List.map_cons, List.mem_cons]
        tauto

theorem upsert_nodup {f : Option β → β} (h : (m.map Prod.fst).Nodup) :
    ((upsert k f m).map Prod.fst).Nodup := by
  induction m with
  | nil => simp [upsert]
  | cons x m ih =>
      rw [List.map_cons, List.nodup_cons] at h
      rw [upsert]
      split
      · rename_i heq
        rw [List.map_cons, List.nodup_cons]
        exact ⟨heq ▸ h.1, h.2⟩
      · rename_i hne
        rw [List.map_cons, List.nodup_cons, mem_keys_upsert_iff]
        exact ⟨not_or.mpr ⟨hne, h.1⟩, ih h.2⟩

/-- Under other keys nothing changes. -/
theorem mem_upsert_of_ne {f : Option β → β} (hne : k' ≠ k) :
    (k', b) ∈ upsert k f m ↔ (k', b) ∈ m := by
  induction m with
  | nil => simp [upsert, hne]
  | cons x m ih =>
      obtain ⟨k'', b'⟩ := x
      rw [upsert]
      split
      · rename_i heq
        have heq' : k'' = k := heq
        simp [hne, heq']
      · rw [List.mem_cons, ih, List.mem_cons]

/-- The value under the key is the updated one. -/
theorem mem_upsert_self {f : Option β → β} (h : (m.map Prod.fst).Nodup) :
    (k, b) ∈ upsert k f m ↔
      (k ∉ m.map Prod.fst ∧ b = f none) ∨ ∃ b', (k, b') ∈ m ∧ b = f (some b') := by
  induction m with
  | nil => simp [upsert]
  | cons x m ih =>
      obtain ⟨k', b'⟩ := x
      rw [List.map_cons, List.nodup_cons] at h
      rw [upsert]
      split
      · rename_i heq
        have heq' : k' = k := heq
        subst heq'
        have hnot : ∀ b, (k', b) ∉ m := fun b hb => h.1 (List.mem_map.mpr ⟨(k', b), hb, rfl⟩)
        simp [hnot]
      · rename_i hne
        have hne' : ¬ k = k' := fun heq => hne heq.symm
        rw [List.mem_cons, ih h.2]
        simp [hne']

/-! ## The table -/

theorem collect_concat (a : α) : collect key step init (l ++ [a]) =
    upsert (key a) (fun b => step (b.getD init) a) (collect key step init l) := by
  unfold collect
  rw [List.foldl_append]
  rfl

/-- The keys of the table are those of the items. -/
theorem mem_keys_collect_iff : k ∈ (collect key step init l).map Prod.fst ↔ ∃ a ∈ l, key a = k := by
  induction l using List.reverseRecOn with
  | nil => simp [collect]
  | append_singleton l a ih =>
      rw [collect_concat, mem_keys_upsert_iff, ih]
      constructor
      · rintro (rfl | ⟨a', ha', hk⟩)
        · exact ⟨a, by simp, rfl⟩
        · exact ⟨a', List.mem_append_left _ ha', hk⟩
      · rintro ⟨a', ha', hk⟩
        rcases List.mem_append.mp ha' with ha' | ha'
        · exact .inr ⟨a', ha', hk⟩
        · rw [List.mem_singleton.mp ha'] at hk
          exact .inl hk.symm

/-- Each key is there once. -/
theorem collect_nodup (l : List α) : ((collect key step init l).map Prod.fst).Nodup := by
  induction l using List.reverseRecOn with
  | nil => simp [collect]
  | append_singleton l a ih =>
      rw [collect_concat]
      exact upsert_nodup ih

/-- The value under a key comes from the items of that key alone. -/
theorem mem_collect_iff : (k, b) ∈ collect key step init l ↔
    (∃ a ∈ l, key a = k) ∧ b = (l.filter fun a => key a = k).foldl step init := by
  induction l using List.reverseRecOn generalizing b with
  | nil => simp [collect]
  | append_singleton l a ih =>
      rw [collect_concat, List.filter_append, List.foldl_append]
      by_cases hk : key a = k
      · subst hk
        have hall : List.filter (fun a' => decide (key a' = key a)) [a] = [a] := by simp
        rw [mem_upsert_self (collect_nodup l), mem_keys_collect_iff, hall, List.foldl_cons, List.foldl_nil]
        constructor
        · rintro (⟨hnew, rfl⟩ | ⟨b', hb', rfl⟩)
          · have hnone : (l.filter fun a' => key a' = key a) = [] := by
              rw [List.filter_eq_nil_iff]
              intro a' ha' heq
              exact hnew ⟨a', ha', by simpa using heq⟩
            refine ⟨⟨a, by simp, rfl⟩, ?_⟩
            rw [hnone]
            rfl
          · obtain ⟨-, rfl⟩ := ih.mp hb'
            exact ⟨⟨a, by simp, rfl⟩, rfl⟩
        · rintro ⟨-, rfl⟩
          by_cases hold : ∃ a' ∈ l, key a' = key a
          · exact .inr ⟨_, ih.mpr ⟨hold, rfl⟩, rfl⟩
          · have hnone : (l.filter fun a' => key a' = key a) = [] := by
              rw [List.filter_eq_nil_iff]
              intro a' ha' heq
              exact hold ⟨a', ha', by simpa using heq⟩
            refine .inl ⟨hold, ?_⟩
            rw [hnone]
            rfl
      · have hnone : List.filter (fun a' => decide (key a' = k)) [a] = [] := by simp [hk]
        rw [mem_upsert_of_ne (Ne.symm hk), ih, hnone, List.foldl_nil]
        refine and_congr_left fun _ => ?_
        simp [hk]

/-- The table is made of its keys. -/
theorem collect_eq_map (l : List α) : collect key step init l =
    ((collect key step init l).map Prod.fst).map fun k =>
      (k, (l.filter fun a => key a = k).foldl step init) := by
  rw [List.map_map]
  refine ((List.map_congr_left fun x hx => ?_).trans (List.map_id _)).symm
  obtain ⟨k, b⟩ := x
  obtain ⟨-, rfl⟩ := mem_collect_iff.mp hx
  rfl

/-! ## Cutting up by keys -/

/-- The items of all keys, key by key, are the items. -/
theorem flatMap_filter_perm (hks : ks.Nodup) (h : ∀ a ∈ l, key a ∈ ks) :
    (ks.flatMap fun k => l.filter fun a => key a = k).Perm l := by
  induction ks generalizing l with
  | nil =>
      cases l with
      | nil => exact List.Perm.refl _
      | cons a l => exact absurd (h a (by simp)) (by simp)
  | cons k ks ih =>
      rw [List.nodup_cons] at hks
      -- the items of another key are those of the rest
      have hrest : (ks.flatMap fun k' => l.filter fun a => key a = k') =
          ks.flatMap fun k' => (l.filter fun a => !decide (key a = k)).filter fun a => key a = k' := by
        refine List.flatMap_congr fun k' hk' => ?_
        rw [List.filter_filter]
        refine List.filter_congr fun a _ => ?_
        by_cases heq : key a = k'
        · have hne : key a ≠ k := by
            rintro rfl
            exact hks.1 (heq ▸ hk')
          simp [heq, heq ▸ hne]
        · simp [heq]
      rw [List.flatMap_cons, hrest]
      refine (List.Perm.append_left _ (ih hks.2 ?_)).trans (List.filter_append_perm _ l)
      intro a ha
      obtain ⟨hal, hne⟩ := List.mem_filter.mp ha
      have hne' : key a ≠ k := by simpa using hne
      exact (List.mem_cons.mp (h a hal)).resolve_left hne'

end Lib
