import Pdsh.LinkedList.Chain

/-!
# `list_sort`

The nodes are sorted in place: one that is below the node in front of it is taken out and put in front
of the first it is below (`Chain.move`). `sortItems` is what that does to the items.

* `listSort_spec`: for every comparison function, the loops end, and follow no null pointer;
* `sortItems_perm`, `sortItems_sorted`, `sortItems_stable`: for a weak order it is a stable sort.
-/

namespace Pdsh.LinkedList

open Lib (Bookmark Marked transfer)
open scoped List

variable {α : Type} {s s' : State α} {cells : List Nat} {items done rest : List α} {k j p : Nat}
  {x y z : α} {f : α → α → Int32} {a : Marked Nat α}

/-! ## On items -/

/-- In front of the first item it is below, when it is below the last. -/
def insertItem (f : α → α → Int32) (done : List α) (x : α) : List α :=
  if done.getLast?.any (f x · < 0) then done.insertIdx (done.findIdx (f x · < 0)) x else done ++ [x]

def sortItems (f : α → α → Int32) (items : List α) : List α := items.foldl (insertItem f) []

/-- `f` compares as a weak order does. -/
structure IsWeakOrder (f : α → α → Int32) : Prop where
  asymm : ∀ x y, f x y < 0 → ¬f y x < 0
  trans : ∀ x y z, ¬f y x < 0 → ¬f z y < 0 → ¬f z x < 0

theorem insertItem_perm : (insertItem f done x).Perm (x :: done) := by
  rw [insertItem]
  split
  · exact List.perm_insertIdx x done List.findIdx_le_length
  · exact List.perm_append_singleton x done

theorem foldl_insertItem_perm (done rest : List α) :
    (rest.foldl (insertItem f) done).Perm (done ++ rest) := by
  induction rest generalizing done with
  | nil => rw [List.append_nil, List.foldl_nil]
  | cons x rest ih =>
      rw [List.foldl_cons]
      calc rest.foldl (insertItem f) (insertItem f done x)
        _ ~ insertItem f done x ++ rest := ih _
        _ ~ (x :: done) ++ rest := insertItem_perm.append_right rest
        _ ~ done ++ x :: rest := List.perm_middle.symm

theorem sortItems_perm : (sortItems f items).Perm items := foldl_insertItem_perm [] items

theorem insertIdx_append (l r : List α) (x : α) : (l ++ r).insertIdx l.length x = l ++ x :: r := by
  induction l with
  | nil => rfl
  | cons y l ih => rw [List.cons_append, List.length_cons, List.insertIdx_succ_cons, ih, List.cons_append]

/-- They compare equal. -/
def levels (f : α → α → Int32) (x z : α) : Bool := decide (¬f x z < 0) && decide (¬f z x < 0)

/-- The place of an item in a sorted list: behind what is not above it, in front of what is. -/
theorem insertItem_split (hf : IsWeakOrder f) (hsorted : done.Pairwise fun y z => ¬f z y < 0) (x : α) :
    ∃ l r, done = l ++ r ∧ insertItem f done x = l ++ x :: r ∧ (∀ y ∈ l, ¬f x y < 0) ∧
      ∀ y ∈ r, f x y < 0 := by
  rw [insertItem]
  by_cases hlast : done.getLast?.any (f x · < 0)
  · rw [if_pos hlast]
    have hle : done.findIdx (f x · < 0) ≤ done.length := List.findIdx_le_length
    generalize hj : done.findIdx (f x · < 0) = j at hle ⊢
    have hsplit := List.take_append_drop j done
    refine ⟨done.take j, done.drop j, hsplit.symm, ?_, fun y hy => ?_, fun y hy => ?_⟩
    · have hput := insertIdx_append (done.take j) (done.drop j) x
      rwa [hsplit, List.length_take, Nat.min_eq_left hle] at hput
    · obtain ⟨i, hi, rfl⟩ := List.mem_take_iff_getElem.mp hy
      have hbefore := @List.not_of_lt_findIdx _ (fun y => decide (f x y < 0)) done i (by omega)
      simpa using hbefore
    · have hlt : j < done.length := by
        by_contra hge
        rw [List.drop_eq_nil_of_le (by omega)] at hy
        exact absurd hy List.not_mem_nil
      have hat : f x done[j] < 0 := by
        subst hj
        simpa using List.findIdx_getElem (w := hlt)
      rw [List.drop_eq_getElem_cons hlt] at hy
      rcases List.mem_cons.mp hy with rfl | hafter
      · exact hat
      · have hdrop : (done.drop j).Pairwise fun y z => ¬f z y < 0 := hsorted.drop
        rw [List.drop_eq_getElem_cons hlt] at hdrop
        by_contra hnot
        exact hf.trans _ y x ((List.pairwise_cons.mp hdrop).1 y hafter) hnot hat
  · rw [if_neg hlast]
    -- not below the last, so below none
    refine ⟨done, [], (List.append_nil _).symm, rfl, fun y hy hlt => hlast ?_, fun y hy => ?_⟩
    · obtain ⟨i, hi, rfl⟩ := List.mem_iff_getElem.mp hy
      have hend : done.length - 1 < done.length := by omega
      rw [List.getLast?_eq_getElem?, List.getElem?_eq_getElem hend, Option.any_some, decide_eq_true_eq]
      by_contra hnot
      rcases Nat.lt_or_ge i (done.length - 1) with hbefore | hat
      · exact hf.trans _ _ _ (List.pairwise_iff_getElem.mp hsorted i _ hi hend hbefore) hnot hlt
      · have heq : i = done.length - 1 := by omega
        subst heq
        exact hnot hlt
    · exact absurd hy List.not_mem_nil

theorem insertItem_sorted (hf : IsWeakOrder f) (hsorted : done.Pairwise fun y z => ¬f z y < 0) :
    (insertItem f done x).Pairwise fun y z => ¬f z y < 0 := by
  obtain ⟨l, r, rfl, hins, hl, hr⟩ := insertItem_split hf hsorted x
  obtain ⟨hsl, hsr, hcross⟩ := List.pairwise_append.mp hsorted
  rw [hins, List.pairwise_append, List.pairwise_cons]
  refine ⟨hsl, ⟨fun z hz => hf.asymm _ _ (hr z hz), hsr⟩, fun y hy z hz => ?_⟩
  rcases List.mem_cons.mp hz with rfl | hzr
  · exact hl y hy
  · exact hcross y hy z hzr

/-- The items that compare equal to `x` are, in order, the ones there and the new one. -/
theorem insertItem_filter (hf : IsWeakOrder f) (hsorted : done.Pairwise fun y z => ¬f z y < 0)
    (x y : α) : (insertItem f done y).filter (levels f x) =
      (done ++ [y]).filter (levels f x) := by
  obtain ⟨l, r, rfl, hins, hl, hr⟩ := insertItem_split hf hsorted y
  rw [hins, List.filter_append, List.filter_cons, List.filter_append, List.filter_append]
  cases heq : levels f x y with
  | true =>
      have hnone : r.filter (levels f x) = [] := by
        rw [List.filter_eq_nil_iff]
        intro z hz hboth
        rw [levels, Bool.and_eq_true, decide_eq_true_eq, decide_eq_true_eq] at hboth heq
        exact hf.trans z x y hboth.1 heq.2 (hr z hz)
      rw [if_pos rfl, hnone, List.append_nil, List.filter_cons_of_pos heq, List.filter_nil]
  | false =>
      rw [if_neg Bool.false_ne_true, List.filter_cons_of_neg (by simp [heq]), List.filter_nil,
        List.append_nil]

theorem foldl_insertItem (hf : IsWeakOrder f) (hsorted : done.Pairwise fun y z => ¬f z y < 0)
    (x : α) : (rest.foldl (insertItem f) done).Pairwise (fun y z => ¬f z y < 0) ∧
      (rest.foldl (insertItem f) done).filter (levels f x) =
        (done ++ rest).filter (levels f x) := by
  induction rest generalizing done with
  | nil => exact ⟨hsorted, by rw [List.append_nil, List.foldl_nil]⟩
  | cons y rest ih =>
      obtain ⟨hs, hfilter⟩ := ih (insertItem_sorted hf hsorted)
      refine ⟨hs, ?_⟩
      rw [List.foldl_cons, hfilter, List.filter_append, insertItem_filter hf hsorted,
        ← List.filter_append, List.append_assoc]
      rfl

theorem sortItems_sorted (hf : IsWeakOrder f) :
    (sortItems f items).Pairwise fun y z => ¬f z y < 0 := by
  cases items with
  | nil => exact List.Pairwise.nil
  | cons x items => exact (foldl_insertItem hf List.Pairwise.nil x).1

theorem sortItems_stable (hf : IsWeakOrder f) (x : α) :
    (sortItems f items).filter (levels f x) =
      items.filter (levels f x) :=
  (foldl_insertItem hf List.Pairwise.nil x).2

/-! ## On nodes -/

theorem Chain.congr_slots (h : Chain s cells items)
    (hload : ∀ slot, (load s slot).isSome → load s' slot = load s slot)
    (hdata : ∀ p, dataAt s' p = dataAt s p) : Chain s' cells items := by
  refine ⟨fun k hk => ?_, fun k p hp => ?_, h.length, h.nodup⟩
  · rw [hload _ (h.slot_isSome hk), h.loads k hk]
  · rw [hdata, h.reads k p hp]

/-- A node is taken out and put further to the front, by three stores that first lead on from it. -/
theorem Chain.move {s₁ s₂ s₃ : State α} (h : Chain s cells items) (hjk : j < k)
    (hk : k < items.length) (hp : cells[k]? = some p) (h₁ : Stored s (.next p) cells[j]? s₁)
    (h₂ : Stored s₁ (slotAt cells j) (some p) s₂) (h₃ : Stored s₂ (slotAt cells k) cells[k + 1]? s₃) :
    Chain s₃ ((cells.eraseIdx k).insertIdx j p) ((items.eraseIdx k).insertIdx j items[k]) := by
  have hkc : k < cells.length := h.length.symm ▸ hk
  have hdata : dataAt s p = some items[k] := by
    rw [h.reads k p hp, List.getElem?_eq_getElem hk]
  have hnext : (load s (.next p)).isSome := load_isSome hdata
  have hpk : slotAt cells k ≠ .next p := by
    rw [← slotAt_succ hp, Ne, slotAt_inj h.nodup hkc.le hkc]
    omega
  have hpj : slotAt cells j ≠ .next p := by
    rw [← slotAt_succ hp, Ne, slotAt_inj h.nodup (by omega) hkc]
    omega
  -- three slots, so the order of the stores does not matter
  have hkj : slotAt cells k ≠ slotAt cells j := by
    rw [Ne, slotAt_inj h.nodup hkc.le (by omega)]
    omega
  -- the same stores in the order of `erase` and `insert`
  obtain ⟨t₁, -, ht₁⟩ := store_spec (v := cells[k + 1]?) (h.slot_isSome hkc.le)
  obtain ⟨t₂, -, ht₂⟩ := store_spec (v := cells[j]?) ((ht₁.live _).trans hnext)
  have hout : Chain t₁ (cells.eraseIdx k) (items.eraseIdx k) := h.erase hkc ht₁
  have hgone : p ∉ cells.eraseIdx k := by
    intro hmem
    obtain ⟨i, hi, hip⟩ := List.mem_eraseIdx_iff_getElem?.mp hmem
    have hilt := (List.getElem?_eq_some_iff.mp hip).1
    exact hi ((getElem?_inj h.nodup hilt.le hkc.le).mp (hip.trans hp.symm))
  have hhead : t₂.list.head = t₁.list.head := by
    have hload := ht₂.slots .head rfl
    rw [if_neg Slot.noConfusion] at hload
    exact Option.some.inj hload
  have hout₂ : Chain t₂ (cells.eraseIdx k) (items.eraseIdx k) := by
    refine hout.congr hhead fun q hq => ht₂.other q fun he => hgone ?_
    cases he
    exact hq
  have hlink : load t₂ (.next p) = some (cells.eraseIdx k)[j]? := by
    rw [ht₂.slots _ ((ht₁.live _).trans hnext), if_pos rfl, List.getElem?_eraseIdx_of_lt hjk]
  have hdata₂ : dataAt t₂ p = some items[k] := by rw [ht₂.data, ht₁.data, hdata]
  have hlen : (cells.eraseIdx k).length = cells.length - 1 := by rw [List.length_eraseIdx, if_pos hkc]
  obtain ⟨t₃, -, ht₃⟩ := store_spec (v := some p) (hout₂.slot_isSome (show j ≤ _ by omega))
  have hin := hout₂.insert (by omega) hgone hlink hdata₂ ht₃
  rw [slotAt_eraseIdx_of_le hjk.le] at ht₃
  refine hin.congr_slots (fun slot hslot => ?_) fun q => ?_
  · rw [ht₃.live, ht₂.live, ht₁.live] at hslot
    rw [h₃.slots _ (by rw [h₂.live, h₁.live, hslot]), h₂.slots _ (by rw [h₁.live, hslot]),
      h₁.slots _ hslot, ht₃.slots _ (by rw [ht₂.live, ht₁.live, hslot]),
      ht₂.slots _ (by rw [ht₁.live, hslot]), ht₁.slots _ hslot]
    by_cases hat : slot = slotAt cells k
    · rw [if_pos hat, if_neg (hat ▸ hkj), if_neg (hat ▸ hpk), if_pos hat]
    · rw [if_neg hat]
      by_cases hatj : slot = slotAt cells j
      · rw [if_pos hatj, if_pos hatj]
      · rw [if_neg hatj, if_neg hatj, if_neg hat]
  · rw [h₃.data, h₂.data, h₁.data, ht₃.data, ht₂.data, ht₁.data]

/-- Only the links inside the list may have changed. -/
structure Relinked (s : State α) (cells : List Nat) (s' : State α) (cells' : List Nat) : Prop where
  perm : cells'.Perm cells
  other : ∀ q, q ∉ cells → s'.mem.cells q = s.mem.cells q
  free : s'.mem.free = s.mem.free
  list : s'.list = { s.list with head := s'.list.head }

variable {cells' cells'' : List Nat} {s'' : State α}

theorem Relinked.refl : Relinked s cells s cells := ⟨List.Perm.refl _, fun _ _ => rfl, rfl, rfl⟩

theorem Relinked.trans (h : Relinked s cells s' cells') (h' : Relinked s' cells' s'' cells'') :
    Relinked s cells s'' cells'' := by
  refine ⟨h'.perm.trans h.perm, fun q hq => ?_, h'.free.trans h.free, ?_⟩
  · rw [h'.other q fun hmem => hq (h.perm.mem_iff.mp hmem), h.other q hq]
  · rw [h'.list, h.list]

theorem Relinked.of_stored {pp : Slot} {v : Option Nat} (hs : Stored s pp v s')
    (hpp : ∀ q, pp = .next q → q ∈ cells) : Relinked s cells s' cells :=
  ⟨List.Perm.refl _, fun q hq => hs.other q fun he => hq (hpp q he), hs.free, hs.list⟩

/-- The inner loop stops at the first item that `x` is below, when its fuel lasts. -/
theorem findPlace_spec (steps : Nat) {m : Nat} (h : Chain s cells items) (hm : m < items.length)
    (hat : f x items[m] < 0) (hbefore : ∀ i (hi : i < m), ¬f x items[i] < 0) (hjm : j ≤ m) :
    findPlace s f x steps (slotAt cells j) = if m - j < steps then some (slotAt cells m) else none := by
  induction steps generalizing j with
  | zero => rfl
  | succ steps ih =>
      obtain ⟨p, hp, hnode⟩ := h.getElem? (show j < items.length by omega)
      have hload := h.loads j (h.length ▸ (by omega))
      rw [findPlace, hload, Option.bind_eq_bind, Option.bind_some, hp, Option.bind_eq_bind,
        Option.bind_some, hnode, Option.bind_eq_bind, Option.bind_some]
      rcases Nat.eq_or_lt_of_le hjm with rfl | hlt
      · rw [if_neg (Int32.not_le.mpr hat), if_pos (by omega)]
      · have hge : 0 ≤ f x items[j] := Int32.not_lt.mp (hbefore j hlt)
        rw [if_pos hge, ← slotAt_succ hp, ih hlt]
        congr 1
        exact propext (by omega)

/-- The step that moves a node: where it goes, and that the two slots the loop keeps stay right. -/
theorem sortStep_spec {m : Nat} (h : Chain s cells (done ++ x :: rest)) (hm : m < done.length)
    (hp : cells[done.length]? = some p) :
    ∃ s₁ s₂ s₃, store s (.next p) cells[m]? = some s₁ ∧
      store s₁ (slotAt cells m) (some p) = some s₂ ∧
      store s₂ (slotAt cells done.length) cells[done.length + 1]? = some s₃ ∧
      Chain s₃ ((cells.eraseIdx done.length).insertIdx m p) (done.insertIdx m x ++ rest) ∧
      Relinked s cells s₃ ((cells.eraseIdx done.length).insertIdx m p) ∧
      slotAt ((cells.eraseIdx done.length).insertIdx m p) (done.length + 1) =
        slotAt cells done.length ∧
      (if slotAt cells (done.length - 1) = slotAt cells m then after s₃ (slotAt cells (done.length - 1))
        else some (slotAt cells (done.length - 1))) =
        some (slotAt ((cells.eraseIdx done.length).insertIdx m p) done.length) := by
  have hlen : cells.length = done.length + (rest.length + 1) := by
    rw [h.length, List.length_append, List.length_cons]
  have hk : done.length < (done ++ x :: rest).length := by
    rw [← h.length]
    omega
  have hkc : done.length < cells.length := by omega
  have hmc : m < cells.length := by omega
  have hx : (done ++ x :: rest)[done.length] = x := by simp
  have hdata : dataAt s p = some x := by rw [h.reads _ p hp, List.getElem?_eq_getElem hk, hx]
  obtain ⟨s₁, hs₁, h₁⟩ := store_spec (v := cells[m]?) (load_isSome hdata)
  obtain ⟨s₂, hs₂, h₂⟩ := store_spec (v := some p) ((h₁.live _).trans (h.slot_isSome hmc.le))
  obtain ⟨s₃, hs₃, h₃⟩ := store_spec (v := cells[done.length + 1]?)
    ((h₂.live _).trans ((h₁.live _).trans (h.slot_isSome hkc.le)))
  have hchain := h.move hm hk hp h₁ h₂ h₃
  have hitems : ((done ++ x :: rest).eraseIdx done.length).insertIdx m x = done.insertIdx m x ++ rest := by
    rw [List.eraseIdx_append_of_length_le le_rfl, Nat.sub_self, List.eraseIdx_cons_zero]
    obtain ⟨l, r, rfl, rfl⟩ : ∃ l r, done = l ++ r ∧ m = l.length :=
      ⟨done.take m, done.drop m, (List.take_append_drop m done).symm, by simp [hm.le]⟩
    rw [insertIdx_append, List.append_assoc, insertIdx_append, List.append_assoc, List.cons_append]
  rw [hx, hitems] at hchain
  have hrelinked : Relinked s cells s₃ cells := by
    refine (Relinked.of_stored h₁ fun q hq => ?_).trans ((Relinked.of_stored h₂ fun q hq => ?_).trans
      (Relinked.of_stored h₃ fun q hq => mem_of_slotAt hq))
    · cases hq
      exact List.mem_of_getElem? hp
    · exact mem_of_slotAt hq
  have hperm : ((cells.eraseIdx done.length).insertIdx m p).Perm cells := by
    have hleft : m ≤ (cells.eraseIdx done.length).length := by
      rw [List.length_eraseIdx, if_pos hkc]
      omega
    have hpe : cells[done.length] = p := by
      rw [List.getElem?_eq_getElem hkc] at hp
      exact Option.some.inj hp
    calc (cells.eraseIdx done.length).insertIdx m p
      _ ~ p :: cells.eraseIdx done.length := List.perm_insertIdx p _ hleft
      _ ~ cells := hpe ▸ List.getElem_cons_eraseIdx_perm hkc
  have hpp : slotAt ((cells.eraseIdx done.length).insertIdx m p) (done.length + 1) =
      slotAt cells done.length := by
    rw [slotAt_insertIdx_of_lt hm, slotAt_eraseIdx_of_le le_rfl]
  refine ⟨s₁, s₂, s₃, hs₁, hs₂, hs₃, hchain, ⟨hperm, hrelinked.other, hrelinked.free, hrelinked.list⟩,
    hpp, ?_⟩
  -- `ppPrev == ppPos`: the node went in right in front of the last, so the slot is the moved node's
  by_cases hlast : m = done.length - 1
  · subst hlast
    have hsame : slotAt ((cells.eraseIdx done.length).insertIdx (done.length - 1) p) (done.length - 1) =
        slotAt cells (done.length - 1) := by
      rw [slotAt_insertIdx_of_le le_rfl, slotAt_eraseIdx_of_le (by omega)]
    rw [if_pos rfl, ← hsame, hchain.after, Nat.sub_add_cancel (by omega)]
    rw [List.length_append, List.length_insertIdx]
    split <;> omega
  · have hne : slotAt cells (done.length - 1) ≠ slotAt cells m := by
      rw [Ne, slotAt_inj h.nodup (by omega) hmc.le]
      omega
    rw [if_neg hne]
    obtain ⟨i, hi⟩ : ∃ i, done.length = i + 1 := ⟨done.length - 1, by omega⟩
    rw [hi, Nat.add_sub_cancel, slotAt_insertIdx_of_lt (by omega), slotAt_eraseIdx_of_le (by omega)]

theorem sortLoop_spec (steps fuel : Nat) (h : Chain s cells (done ++ rest)) (hdone : done ≠ []) :
    (sortLoop steps f fuel (slotAt cells (done.length - 1)) (slotAt cells done.length) s = none ∧
      (fuel ≤ rest.length ∨ steps < (done ++ rest).length)) ∨
    ∃ s' cells', sortLoop steps f fuel (slotAt cells (done.length - 1)) (slotAt cells done.length) s =
        some (slotAt cells' cells'.length, s') ∧
      Chain s' cells' (rest.foldl (insertItem f) done) ∧ Relinked s cells s' cells' := by
  induction fuel generalizing s cells done rest with
  | zero => exact .inl ⟨rfl, .inl (Nat.zero_le _)⟩
  | succ fuel ih =>
      have hlen := h.length
      rw [List.length_append] at hlen
      have hload := h.loads done.length (by omega)
      cases rest with
      | nil =>
          right
          have hend : done.length = cells.length := by simpa using hlen.symm
          refine ⟨s, cells, ?_, by rwa [List.append_nil] at h, Relinked.refl⟩
          rw [sortLoop, hload, List.getElem?_eq_none hend.ge, ← hend]
          rfl
      | cons x rest =>
          have hpos : 0 < done.length := List.length_pos_iff.mpr hdone
          have hk : done.length < (done ++ x :: rest).length := by simp
          obtain ⟨p, hp, hnode⟩ := h.getElem? hk
          have hbefore : done.length - 1 < (done ++ x :: rest).length := by omega
          obtain ⟨q, hq, hnodeq⟩ := h.getElem? hbefore
          have hx : (done ++ x :: rest)[done.length] = x := by simp
          have hlast : (done ++ x :: rest)[done.length - 1] = done.getLast hdone := by
            rw [List.getElem_append_left (by omega), List.getLast_eq_getElem]
          have hloadq := h.loads (done.length - 1) (by omega)
          have hgetLast : done.getLast?.any (f x · < 0) = decide (f x (done.getLast hdone) < 0) := by
            rw [List.getLast?_eq_some_getLast hdone, Option.any_some]
          rw [hx] at hnode
          rw [hlast] at hnodeq
          rw [sortLoop]
          simp only [hload, hp, hnode, hloadq, hq, hnodeq, Option.bind_eq_bind, Option.bind_some]
          rw [List.foldl_cons, insertItem, hgetLast]
          -- only an item below the last is moved; then the inner loop has an item to stop at
          by_cases hlt : f x (done.getLast hdone) < 0
          · rw [if_pos hlt, if_pos (decide_eq_true hlt)]
            generalize hm : done.findIdx (f x · < 0) = m
            have hmlt : m < done.length := by
              rw [← hm, List.findIdx_lt_length]
              exact ⟨_, List.getLast_mem hdone, decide_eq_true hlt⟩
            have hmx : m < (done ++ x :: rest).length := by omega
            have hat : f x (done ++ x :: rest)[m] < 0 := by
              rw [List.getElem_append_left hmlt]
              subst hm
              simpa using List.findIdx_getElem (w := hmlt)
            have hfirst : ∀ i (hi : i < m), ¬f x (done ++ x :: rest)[i] < 0 := by
              intro i hi
              rw [List.getElem_append_left (by omega)]
              have hnot := @List.not_of_lt_findIdx _ (fun y => decide (f x y < 0)) done i (by omega)
              simpa using hnot
            have hplace := findPlace_spec steps h hmx hat hfirst (Nat.zero_le m)
            obtain ⟨s₁, s₂, s₃, hs₁, hs₂, hs₃, hchain, hrel, hpp, hprev⟩ := sortStep_spec h hmlt hp
            rw [show Slot.head = slotAt cells 0 from rfl, hplace, Nat.sub_zero]
            by_cases hfuel : m < steps
            · have hloadm := h.loads m (by omega)
              rw [if_pos hfuel]
              simp only [Option.bind_some, hloadm, hs₁, hs₂, hs₃]
              have hnext : ∀ loop : Slot → Option (Slot × State α),
                  (if slotAt cells (done.length - 1) = slotAt cells m then
                    (after s₃ (slotAt cells (done.length - 1))).bind loop
                  else loop (slotAt cells (done.length - 1))) =
                  loop (slotAt ((cells.eraseIdx done.length).insertIdx m p) done.length) := by
                intro loop
                by_cases hsame : slotAt cells (done.length - 1) = slotAt cells m
                · rw [if_pos hsame] at hprev ⊢
                  rw [hprev, Option.bind_some]
                · rw [if_neg hsame] at hprev ⊢
                  rw [Option.some.inj hprev]
              rw [hnext fun ppPrev => sortLoop steps f fuel ppPrev (slotAt cells done.length) s₃]
              have hlen' : (done.insertIdx m x).length = done.length + 1 := by
                rw [List.length_insertIdx, if_pos hmlt.le]
              have hne : done.insertIdx m x ≠ [] := List.length_pos_iff.mp (by omega)
              have hrest := ih hchain hne
              rw [hlen', Nat.add_sub_cancel, hpp] at hrest
              rcases hrest with ⟨hnone, hless⟩ | ⟨s', cells', hsome, hend, hrel'⟩
              · refine .inl ⟨hnone, hless.imp (fun hle => ?_) fun hle => ?_⟩
                · rw [List.length_cons]
                  omega
                · rw [List.length_append] at hle ⊢
                  rw [List.length_cons]
                  omega
              · exact .inr ⟨s', cells', hsome, hend, hrel.trans hrel'⟩
            · refine .inl ⟨by rw [if_neg hfuel]; rfl, .inr (by omega)⟩
          · rw [if_neg hlt, if_neg (by simpa using hlt), ← slotAt_succ hp]
            have happend : Chain s cells (done ++ [x] ++ rest) := by rwa [List.append_assoc]
            have hrest := ih happend (by simp)
            rw [List.length_append, List.length_singleton, Nat.add_sub_cancel] at hrest
            rcases hrest with ⟨hnone, hless⟩ | hsome
            · refine .inl ⟨hnone, hless.imp (fun hle => ?_) fun hle => ?_⟩
              · rw [List.length_cons]
                omega
              · rwa [List.append_assoc] at hle
            · exact .inr hsome

theorem listSort_spec (fuel : Nat) (h : Represents s cells a) (hcount : 1 < Int32.ofNat a.items.length) :
    (listSort fuel f s = none ∧ fuel ≤ a.items.length) ∨
      ∃ s' cells', listSort fuel f s = some s' ∧
        Represents s' cells' (a.rearrange (sortItems f a.items)) ∧ Frame s.mem cells s'.mem cells' ∧
        s'.list.fDel = s.list.fDel := by
  have hne : a.items ≠ [] := by
    intro hnil
    rw [hnil, List.length_nil] at hcount
    exact absurd hcount (by decide)
  obtain ⟨x, rest, hitems⟩ := List.exists_cons_of_ne_nil hne
  have hchain : Chain s cells ([x] ++ rest) := by
    rw [List.singleton_append, ← hitems]
    exact h.chain
  have hcells : 0 < cells.length := by
    rw [hchain.length, List.length_append, List.length_singleton]
    omega
  have hafter : after s .head = some (slotAt cells 1) := by
    refine h.chain.after (k := 0) ?_
    rw [← h.chain.length]
    exact hcells
  have hloop := sortLoop_spec (f := f) fuel fuel hchain (List.cons_ne_nil x [])
  rw [listSort, h.count, if_pos hcount, hafter, Option.bind_eq_bind, Option.bind_some]
  rw [List.length_singleton, Nat.sub_self] at hloop
  rcases hloop with ⟨hnone, hfuel⟩ | ⟨s', cells', hsome, hend, hrel⟩
  · left
    refine ⟨by rw [show slotAt cells 0 = .head from rfl] at hnone; rw [hnone]; rfl, ?_⟩
    rw [hitems, List.length_cons]
    rw [List.length_append, List.length_singleton] at hfuel
    omega
  · right
    rw [show slotAt cells 0 = .head from rfl] at hsome
    rw [hsome, Option.bind_eq_bind, Option.bind_some]
    have hsorted : rest.foldl (insertItem f) [x] = sortItems f a.items := by
      rw [hitems]
      rfl
    rw [hsorted] at hend
    have hlen : (sortItems f a.items).length = a.items.length := sortItems_perm.length_eq
    refine ⟨_, cells', rfl, ⟨hend.congr rfl fun _ _ => rfl, rfl, ?_, ?_, ?_⟩, ?_, ?_⟩
    · have hreset : transfer (fun _ => (⟨s'.list.head, .head⟩ : ListIterator)) s'.list.iNext =
          transfer (itOf cells') (transfer (fun _ => Bookmark.start) a.marks) := by
        have hiNext : s'.list.iNext = s.list.iNext := by rw [hrel.list]
        rw [hiNext, h.iNext, Lib.transfer_transfer, Lib.transfer_transfer]
        refine Lib.transfer_congr fun m _ => ?_
        show (⟨s'.list.head, .head⟩ : ListIterator) = itOf cells' Bookmark.start
        rw [hend.head]
        rfl
      exact hreset
    · show s'.list.count = Int32.ofNat (sortItems f a.items).length
      rw [hrel.list, hlen]
      exact h.count
    · refine ⟨fun q hq => ?_, ?_⟩
      · have hfree : q ∈ s.mem.free := hrel.free ▸ hq
        have hidle := h.pool.idle q hfree
        show s'.mem.cells q = none
        rw [hrel.other q fun hmem => ?_, hidle]
        obtain ⟨n, hn⟩ := h.chain.live hmem
        rw [hn] at hidle
        cases hidle
      · show s'.mem.free.Nodup
        rw [hrel.free]
        exact h.pool.nodup
    · refine ⟨fun q n hq hn => ?_, fun q hq => .inl (hrel.perm.mem_iff.mp hq), fun q hq hcases => ?_⟩
      · show s'.mem.cells q = some n
        rw [hrel.other q hq, hn]
      · have hqc : q ∉ cells := fun hmem => hq (hrel.perm.mem_iff.mpr hmem)
        show s'.mem.cells q = none
        rw [hrel.other q hqc, hcases.resolve_left hqc]
    · show s'.list.fDel = _
      rw [hrel.list]

end Pdsh.LinkedList
