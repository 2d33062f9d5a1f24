import Pdsh.LinkedList.Functions
import Mathlib.Tactic

/-!
# Chains of nodes

`Chain s cells items`: the list holds `items`, in the nodes at the addresses `cells`. What is in front
of position `k` is the slot `slotAt cells k`: a store there inserts or takes out at `k`
(`Chain.insert`, `Chain.erase`), and changes nothing else.

* `Represents`: the list with its iterators, read as a list with bookmarks;
* `listNodeCreate_spec`, `listNodeDestroy_spec`: the two functions all changes go through.
-/

namespace Pdsh.LinkedList

open Lib (Bookmark Marked transfer)

variable {α β : Type} {s s' : State α} {cells : List Nat} {items : List α} {k j p q : Nat} {x : α}
  {v : Option Nat} {pp slot : Slot}

/-! ## Slots -/

/-- The slot in front of position `k`. -/
def slotAt (cells : List Nat) : Nat → Slot
  | 0 => .head
  | k + 1 =>
      match cells[k]? with
      | some p => .next p
      | none => .head

theorem slotAt_succ (h : cells[k]? = some p) : slotAt cells (k + 1) = .next p := by
  rw [slotAt, h]

theorem slotAt_ne_head (h : k + 1 ≤ cells.length) : slotAt cells (k + 1) ≠ .head := by
  rw [slotAt_succ (List.getElem?_eq_getElem h)]
  exact Slot.noConfusion

theorem mem_of_slotAt (h : slotAt cells k = .next p) : p ∈ cells := by
  cases k with
  | zero => cases h
  | succ k =>
      rw [slotAt] at h
      cases hk : cells[k]? with
      | none =>
          rw [hk] at h
          cases h
      | some q =>
          rw [hk] at h
          cases h
          exact List.mem_of_getElem? hk

/-- Positions are told apart by what stands there, the end included. -/
theorem getElem?_inj (hnd : cells.Nodup) (hk : k ≤ cells.length) (hj : j ≤ cells.length) :
    cells[k]? = cells[j]? ↔ k = j := by
  refine ⟨fun h => ?_, fun h => h ▸ rfl⟩
  rcases Nat.lt_or_eq_of_le hk with hlt | rfl
  · exact (List.getElem?_inj hlt hnd).mp h
  · rcases Nat.lt_or_eq_of_le hj with hlt | rfl
    · exact ((List.getElem?_inj hlt hnd).mp h.symm).symm
    · rfl

theorem slotAt_inj (hnd : cells.Nodup) (hk : k ≤ cells.length) (hj : j ≤ cells.length) :
    slotAt cells k = slotAt cells j ↔ k = j := by
  refine ⟨fun h => ?_, fun h => h ▸ rfl⟩
  match k, j with
  | 0, 0 => rfl
  | 0, j + 1 => exact absurd h.symm (slotAt_ne_head hj)
  | k + 1, 0 => exact absurd h (slotAt_ne_head hk)
  | k + 1, j + 1 =>
      rw [slotAt_succ (List.getElem?_eq_getElem hk), slotAt_succ (List.getElem?_eq_getElem hj)] at h
      have heq : cells[k]? = cells[j]? := by
        rw [List.getElem?_eq_getElem hk, List.getElem?_eq_getElem hj, Slot.next.inj h]
      rw [(getElem?_inj hnd (Nat.le_of_lt hk) (Nat.le_of_lt hj)).mp heq]

theorem slotAt_insertIdx_of_le (hj : j ≤ k) : slotAt (cells.insertIdx k p) j = slotAt cells j := by
  cases j with
  | zero => rfl
  | succ j => rw [slotAt, List.getElem?_insertIdx_of_lt hj, slotAt]

theorem slotAt_insertIdx_succ (hk : k ≤ cells.length) :
    slotAt (cells.insertIdx k p) (k + 1) = .next p :=
  slotAt_succ (by rw [List.getElem?_insertIdx_self, if_pos hk])

theorem slotAt_insertIdx_of_lt (hj : k < j) :
    slotAt (cells.insertIdx k p) (j + 1) = slotAt cells j := by
  obtain ⟨i, rfl⟩ : ∃ i, j = i + 1 := ⟨j - 1, by omega⟩
  rw [slotAt, List.getElem?_insertIdx_of_gt hj, slotAt, Nat.add_sub_cancel]

theorem slotAt_eraseIdx_of_le (hj : j ≤ k) : slotAt (cells.eraseIdx k) j = slotAt cells j := by
  cases j with
  | zero => rfl
  | succ j => rw [slotAt, List.getElem?_eraseIdx_of_lt hj, slotAt]

theorem slotAt_eraseIdx_of_lt (hj : k < j) : slotAt (cells.eraseIdx k) j = slotAt cells (j + 1) := by
  obtain ⟨i, rfl⟩ : ∃ i, j = i + 1 := ⟨j - 1, by omega⟩
  rw [slotAt, List.getElem?_eraseIdx_of_ge (by omega), slotAt]

/-! ## Loads and stores -/

/-- The data of the node at an address. -/
def dataAt (s : State α) (p : Nat) : Option α := (s.mem.cells p).map (·.data)

/-- A store changes what one slot holds. -/
structure Stored (s : State α) (pp : Slot) (v : Option Nat) (s' : State α) : Prop where
  slots : ∀ slot, (load s slot).isSome → load s' slot = if slot = pp then some v else load s slot
  live : ∀ slot, (load s' slot).isSome = (load s slot).isSome
  data : ∀ p, dataAt s' p = dataAt s p
  other : ∀ p, pp ≠ .next p → s'.mem.cells p = s.mem.cells p
  free : s'.mem.free = s.mem.free
  list : s'.list = { s.list with head := s'.list.head }

theorem store_spec (h : (load s pp).isSome) : ∃ s', store s pp v = some s' ∧ Stored s pp v s' := by
  cases pp with
  | head =>
      refine ⟨_, rfl, fun slot _ => ?_, fun slot => ?_, fun _ => rfl, fun _ _ => rfl, rfl, rfl⟩
      · cases slot with
        | head => rfl
        | next q => rfl
      · cases slot with
        | head => rfl
        | next q => rfl
  | next p =>
      obtain ⟨n, hn⟩ : ∃ n, s.mem.cells p = some n := by
        rw [load, Option.isSome_map] at h
        exact Option.isSome_iff_exists.mp h
      refine ⟨_, by rw [store, hn]; rfl, ?_⟩
      refine ⟨fun slot _ => ?_, fun slot => ?_, fun q => ?_, fun q hq => ?_, rfl, rfl⟩
      · cases slot with
        | head => rfl
        | next q =>
            by_cases hq : q = p
            · subst hq
              rw [if_pos rfl]
              simp [load]
            · rw [if_neg fun he => hq (Slot.next.inj he)]
              simp [load, Function.update_of_ne hq]
      · cases slot with
        | head => rfl
        | next q =>
            by_cases hq : q = p
            · subst hq
              simp [load, hn]
            · simp [load, Function.update_of_ne hq]
      · by_cases hq : q = p
        · subst hq
          simp [dataAt, hn]
        · simp [dataAt, Function.update_of_ne hq]
      · have hne : q ≠ p := fun he => hq (he ▸ rfl)
        simp [Function.update_of_ne hne]

theorem load_isSome (h : dataAt s p = some x) : (load s (.next p)).isSome := by
  rw [load, Option.isSome_map, ← Option.isSome_map (f := fun n => n.data)]
  exact Option.isSome_of_eq_some h

/-! ## Chains -/

/-- The list holds `items` in the nodes `cells`. -/
structure Chain (s : State α) (cells : List Nat) (items : List α) : Prop where
  loads : ∀ k ≤ cells.length, load s (slotAt cells k) = some cells[k]?
  reads : ∀ (k p : Nat), cells[k]? = some p → dataAt s p = items[k]?
  length : cells.length = items.length
  nodup : cells.Nodup

namespace Chain

theorem head (h : Chain s cells items) : s.list.head = cells[0]? :=
  Option.some.inj (h.loads 0 (Nat.zero_le _))

theorem getElem? (h : Chain s cells items) (hk : k < items.length) :
    ∃ p, cells[k]? = some p ∧ s.mem.cells p = some ⟨items[k], cells[k + 1]?⟩ := by
  have hlt : k < cells.length := h.length.symm ▸ hk
  refine ⟨cells[k], List.getElem?_eq_getElem hlt, ?_⟩
  have hdata := h.reads k _ (List.getElem?_eq_getElem hlt)
  have hload := h.loads (k + 1) hlt
  rw [slotAt_succ (List.getElem?_eq_getElem hlt), load] at hload
  rw [dataAt, List.getElem?_eq_getElem hk] at hdata
  cases hn : s.mem.cells cells[k] with
  | none =>
      rw [hn] at hdata
      cases hdata
  | some n =>
      rw [hn] at hdata hload
      cases n
      simp only [Option.map_some, Option.some.injEq] at hdata hload
      rw [hdata, hload]

theorem after (h : Chain s cells items) (hk : k < items.length) :
    after s (slotAt cells k) = some (slotAt cells (k + 1)) := by
  have hlt : k < cells.length := h.length.symm ▸ hk
  rw [LinkedList.after, h.loads k (Nat.le_of_lt hlt), List.getElem?_eq_getElem hlt,
    slotAt_succ (List.getElem?_eq_getElem hlt)]
  rfl

/-- What a list holds is what its nodes say. -/
theorem unique {cells' : List Nat} {items' : List α} (h : Chain s cells items)
    (h' : Chain s cells' items') : items = items' := by
  have hcells : ∀ k : Nat, cells[k]? = cells'[k]? := by
    intro k
    induction k with
    | zero => rw [← h.head, h'.head]
    | succ k ih =>
        cases hk : cells[k]? with
        | none =>
            have hend := List.getElem?_eq_none_iff.mp hk
            have hend' := List.getElem?_eq_none_iff.mp (ih ▸ hk)
            rw [List.getElem?_eq_none (by omega), List.getElem?_eq_none (by omega)]
        | some p =>
            have hlt := (List.getElem?_eq_some_iff.mp hk).1
            have hlt' := (List.getElem?_eq_some_iff.mp (ih ▸ hk)).1
            have hload := h.loads (k + 1) hlt
            rw [slotAt_succ hk, ← slotAt_succ (ih ▸ hk), h'.loads (k + 1) hlt'] at hload
            exact (Option.some.inj hload).symm
  apply List.ext_getElem?
  intro k
  cases hk : cells[k]? with
  | none =>
      have hend := List.getElem?_eq_none_iff.mp hk
      have hend' := List.getElem?_eq_none_iff.mp (hcells k ▸ hk)
      rw [List.getElem?_eq_none (h.length ▸ hend), List.getElem?_eq_none (h'.length ▸ hend')]
  | some p => rw [← h.reads k p hk, h'.reads k p (hcells k ▸ hk)]

/-- Only the nodes of the chain count. -/
theorem congr (h : Chain s cells items) (hhead : s'.list.head = s.list.head)
    (hmem : ∀ p ∈ cells, s'.mem.cells p = s.mem.cells p) : Chain s' cells items := by
  refine ⟨fun k hk => ?_, fun k p hp => ?_, h.length, h.nodup⟩
  · rw [← h.loads k hk]
    cases hslot : slotAt cells k with
    | head => exact congrArg some hhead
    | next p => rw [load, load, hmem p (mem_of_slotAt hslot)]
  · rw [dataAt, hmem p (List.mem_of_getElem? hp)]
    exact h.reads k p hp

theorem live (h : Chain s cells items) (hp : p ∈ cells) : ∃ n, s.mem.cells p = some n := by
  obtain ⟨k, hk, rfl⟩ := List.mem_iff_getElem.mp hp
  obtain ⟨q, hq, hn⟩ := h.getElem? (h.length ▸ hk)
  rw [List.getElem?_eq_getElem hk] at hq
  exact ⟨_, Option.some.inj hq ▸ hn⟩

theorem slot_isSome (h : Chain s cells items) (hk : k ≤ cells.length) :
    (load s (slotAt cells k)).isSome := by
  rw [h.loads k hk]
  rfl

/-- A node whose link leads to position `k` is put in front of it. -/
theorem insert (h : Chain s cells items) (hk : k ≤ cells.length) (hp : p ∉ cells)
    (hlink : load s (.next p) = some cells[k]?) (hdata : dataAt s p = some x)
    (hs : Stored s (slotAt cells k) (some p) s') :
    Chain s' (cells.insertIdx k p) (items.insertIdx k x) := by
  have hlen : (cells.insertIdx k p).length = cells.length + 1 := by
    rw [List.length_insertIdx, if_pos hk]
  have hne : ∀ j, slotAt cells j ≠ .next p := fun j hj => hp (mem_of_slotAt hj)
  refine ⟨fun j hj => ?_, fun j q hq => ?_, ?_, ?_⟩
  · rw [hlen] at hj
    -- in front of the new node, at it, and behind it
    rcases Nat.lt_trichotomy j k with hlt | rfl | hgt
    · rw [slotAt_insertIdx_of_le hlt.le, List.getElem?_insertIdx_of_lt hlt,
        hs.slots _ (h.slot_isSome (by omega)), if_neg, h.loads j (by omega)]
      rw [slotAt_inj h.nodup (by omega) hk]
      omega
    · rw [slotAt_insertIdx_of_le le_rfl, List.getElem?_insertIdx_self, if_pos hk,
        hs.slots _ (h.slot_isSome hk), if_pos rfl]
    · rw [List.getElem?_insertIdx_of_gt hgt]
      obtain ⟨i, rfl⟩ : ∃ i, j = i + 1 := ⟨j - 1, by omega⟩
      -- the slot of the new node holds what `k` held; the ones behind are those of the old nodes
      rcases Nat.lt_or_eq_of_le (Nat.le_of_lt_succ hgt) with hki | rfl
      · rw [slotAt_insertIdx_of_lt hki, hs.slots _ (h.slot_isSome (by omega)), if_neg,
          h.loads i (by omega), Nat.add_sub_cancel]
        rw [slotAt_inj h.nodup (by omega) hk]
        omega
      · rw [slotAt_insertIdx_succ hk, hs.slots _ (by rw [hlink]; rfl), if_neg (hne k).symm, hlink,
          Nat.add_sub_cancel]
  · rw [hs.data]
    rcases Nat.lt_trichotomy j k with hlt | rfl | hgt
    · rw [List.getElem?_insertIdx_of_lt hlt] at hq ⊢
      exact h.reads j q hq
    · rw [List.getElem?_insertIdx_self, if_pos hk] at hq
      rw [List.getElem?_insertIdx_self, if_pos (h.length ▸ hk), ← Option.some.inj hq, hdata]
    · rw [List.getElem?_insertIdx_of_gt hgt] at hq ⊢
      exact h.reads _ q hq
  · rw [hlen, List.length_insertIdx, if_pos (h.length ▸ hk), h.length]
  · rw [(List.perm_insertIdx p cells hk).nodup_iff, List.nodup_cons]
    exact ⟨hp, h.nodup⟩

/-- The slot in front of position `k` is led past it. -/
theorem erase (h : Chain s cells items) (hk : k < cells.length)
    (hs : Stored s (slotAt cells k) cells[k + 1]? s') :
    Chain s' (cells.eraseIdx k) (items.eraseIdx k) := by
  have hlen : (cells.eraseIdx k).length = cells.length - 1 := by
    rw [List.length_eraseIdx, if_pos hk]
  refine ⟨fun j hj => ?_, fun j q hq => ?_, ?_, h.nodup.eraseIdx k⟩
  · rw [hlen] at hj
    rcases Nat.lt_trichotomy j k with hlt | rfl | hgt
    · rw [slotAt_eraseIdx_of_le hlt.le, List.getElem?_eraseIdx_of_lt hlt,
        hs.slots _ (h.slot_isSome (by omega)), if_neg, h.loads j (by omega)]
      rw [slotAt_inj h.nodup (by omega) hk.le]
      omega
    · rw [slotAt_eraseIdx_of_le le_rfl, List.getElem?_eraseIdx_of_ge le_rfl,
        hs.slots _ (h.slot_isSome hk.le), if_pos rfl]
    · rw [slotAt_eraseIdx_of_lt hgt, List.getElem?_eraseIdx_of_ge hgt.le,
        hs.slots _ (h.slot_isSome (by omega)), if_neg, h.loads (j + 1) (by omega)]
      rw [slotAt_inj h.nodup (by omega) hk.le]
      omega
  · rw [hs.data]
    rcases Nat.lt_or_ge j k with hlt | hge
    · rw [List.getElem?_eraseIdx_of_lt hlt] at hq ⊢
      exact h.reads j q hq
    · rw [List.getElem?_eraseIdx_of_ge hge] at hq ⊢
      exact h.reads _ q hq
  · rw [hlen, List.length_eraseIdx, if_pos (h.length ▸ hk), h.length]

end Chain

/-! ## The free list -/

/-- What lies on the free list is not in use, and there once. -/
structure Pool.Ok (m : Pool β) : Prop where
  idle : ∀ p ∈ m.free, m.cells p = none
  nodup : m.free.Nodup

/-- What `malloc` may give: memory that is not in use. -/
def Pool.Fresh (m : Pool β) (chunk : Option Nat) : Prop :=
  m.free = [] → ∀ px, chunk = some px → ∀ i < LIST_ALLOC, m.cells (px + i) = none

variable {m m' m'' : Pool β} {chunk : Option Nat} {c c' c'' : List Nat}

theorem chunk_nodup (px n : Nat) : ((List.range n).map (px + ·)).Nodup :=
  List.nodup_range.map fun _ _ h => Nat.add_left_cancel h

theorem listAllocAux_spec (h : m.Ok) (hfresh : m.Fresh chunk) :
    (listAllocAux chunk m = (none, m) ∧ chunk = none) ∨
      ∃ p m', listAllocAux chunk m = (some p, m') ∧ m'.Ok ∧ m'.cells = m.cells ∧ m.cells p = none ∧
        p ∉ m'.free := by
  cases hfree : m.free with
  | cons p free =>
      have hnd := h.nodup
      have hidle := h.idle
      rw [hfree] at hnd hidle
      have halloc : listAllocAux chunk m = (some p, { m with free }) := by
        unfold listAllocAux
        rw [hfree]
      refine .inr ⟨p, { m with free }, halloc, ?_, rfl, ?_, ?_⟩
      · exact ⟨fun q hq => hidle q (List.mem_cons_of_mem _ hq), (List.nodup_cons.mp hnd).2⟩
      · exact hidle p List.mem_cons_self
      · exact (List.nodup_cons.mp hnd).1
  | nil =>
      cases chunk with
      | none =>
          refine .inl ⟨?_, rfl⟩
          unfold listAllocAux
          rw [hfree]
      | some px =>
          right
          have hall : ∀ q ∈ (List.range LIST_ALLOC).map (px + ·), m.cells q = none := by
            intro q hq
            obtain ⟨i, hi, rfl⟩ := List.mem_map.mp hq
            exact hfresh hfree px rfl i (List.mem_range.mp hi)
          have hnd := chunk_nodup px LIST_ALLOC
          obtain ⟨p, free, hchunk⟩ := List.exists_cons_of_ne_nil
            (l := (List.range LIST_ALLOC).map (px + ·)) (by simp [LIST_ALLOC])
          rw [hchunk] at hall hnd
          refine ⟨p, { m with free }, ?_, ?_, rfl, hall p List.mem_cons_self,
            (List.nodup_cons.mp hnd).1⟩
          · unfold listAllocAux
            simp only [hfree, hchunk]
          · exact ⟨fun q hq => hall q (List.mem_cons_of_mem _ hq), (List.nodup_cons.mp hnd).2⟩

/-- The nodes of other lists stay as they are, new ones were not in use, and those that are left behind
are not in use any more. -/
structure Frame (m : Pool β) (c : List Nat) (m' : Pool β) (c' : List Nat) : Prop where
  other : ∀ q n, q ∉ c → m.cells q = some n → m'.cells q = some n
  fresh : ∀ q ∈ c', q ∈ c ∨ m.cells q = none
  gone : ∀ q, q ∉ c' → q ∈ c ∨ m.cells q = none → m'.cells q = none

theorem Frame.refl : Frame m c m c :=
  ⟨fun _ _ _ h => h, fun _ h => .inl h, fun _ hq h => h.resolve_left hq⟩

theorem Frame.trans (h : Frame m c m' c') (h' : Frame m' c' m'' c'') : Frame m c m'' c'' := by
  refine ⟨fun q n hq hn => h'.other q n (fun hmem => ?_) (h.other q n hq hn), fun q hq => ?_,
    fun q hq hcases => ?_⟩
  · rcases h.fresh q hmem with hc | hnone
    · exact hq hc
    · rw [hn] at hnone
      cases hnone
  · rcases h'.fresh q hq with hc | hnone
    · exact h.fresh q hc
    · by_cases hqc : q ∈ c
      · exact .inl hqc
      · right
        cases hq' : m.cells q with
        | none => rfl
        | some n =>
            rw [h.other q n hqc hq'] at hnone
            cases hnone
  · by_cases hqc : q ∈ c'
    · exact h'.gone q hq (.inl hqc)
    · exact h'.gone q hq (.inr (h.gone q hqc hcases))

/-! ## Lists with their iterators -/

/-- The iterator that stands at a bookmark. -/
def itOf (cells : List Nat) (b : Bookmark) : ListIterator := ⟨cells[b.ahead]?, slotAt cells b.passed⟩

/-- The list in the nodes `cells`, with its iterators. -/
structure Represents (s : State α) (cells : List Nat) (a : Marked Nat α) : Prop where
  chain : Chain s cells a.items
  tail : s.list.tail = slotAt cells cells.length
  iNext : s.list.iNext = transfer (itOf cells) a.marks
  count : s.list.count = Int32.ofNat a.items.length
  pool : s.mem.Ok

variable {a a' : Marked Nat α} {b : Bookmark}

theorem assertIterator_itOf (h : Chain s cells items) (hb : b.Fits items.length) :
    assertIterator s (itOf cells b) = some () := by
  have hle : b.ahead ≤ cells.length := h.length ▸ hb
  have hpassed := b.passed_le_ahead
  have hload : load s (itOf cells b).prev = some cells[b.passed]? := h.loads _ (hpassed.trans hle)
  simp only [assertIterator, hload, Option.bind_eq_bind, Option.bind_some]
  cases hheld : b.held with
  | false =>
      have heq : b.ahead = b.passed := by simp [Bookmark.ahead, hheld]
      have hpos : (itOf cells b).pos = cells[b.passed]? := congrArg (cells[·]?) heq
      rw [if_pos hpos]
  | true =>
      have heq : b.ahead = b.passed + 1 := by simp [Bookmark.ahead, hheld]
      have hlt : b.passed < items.length := by
        rw [← h.length]
        omega
      obtain ⟨p, hp, hn⟩ := h.getElem? hlt
      have hpos : (itOf cells b).pos = cells[b.passed + 1]? := congrArg (cells[·]?) heq
      have hne : (itOf cells b).pos ≠ cells[b.passed]? := by
        rw [hpos, Ne, getElem?_inj h.nodup (heq ▸ hle) (hpassed.trans hle)]
        omega
      rw [if_neg hne, hp, Option.bind_some, hn, Option.bind_some, if_pos hpos]

theorem fixIterators_spec (marks : List (Nat × Bookmark)) {fix : ListIterator → ListIterator}
    {g : Bookmark → Bookmark} {cells' : List Nat} (h : Chain s cells' items)
    (hfix : ∀ m ∈ marks, fix (itOf cells m.2) = itOf cells' (g m.2) ∧ (g m.2).Fits items.length) :
    fixIterators s fix (transfer (itOf cells) marks) =
      some (transfer (itOf cells') (transfer g marks)) := by
  induction marks with
  | nil => rfl
  | cons m marks ih =>
      obtain ⟨heq, hfits⟩ := hfix m List.mem_cons_self
      rw [Lib.transfer_cons, fixIterators, heq, assertIterator_itOf h hfits,
        ih fun m' hm' => hfix m' (List.mem_cons_of_mem _ hm')]
      rfl

/-- An iterator behind a new node. -/
theorem itOf_inserted (hnd : cells.Nodup) (hk : k ≤ cells.length) (hb : b.ahead ≤ cells.length) :
    fixCreated p (slotAt cells k) cells[k]? (itOf cells b) =
      itOf (cells.insertIdx k p) (b.inserted k) := by
  have hlow := b.passed_le_ahead
  have hhigh := b.ahead_le
  have hahead := @Bookmark.ahead_inserted b k
  simp only [fixCreated, itOf, slotAt_inj hnd (hlow.trans hb) hk, getElem?_inj hnd hb hk]
  -- the slot is the iterator's, or one in front: then the new node is behind it
  rcases Nat.lt_or_ge b.passed k with hlt | hge
  · have hins : b.inserted k = b := if_neg (by omega)
    rw [if_neg (by omega), hins, slotAt_insertIdx_of_le hlt.le]
    by_cases hat : b.ahead = k
    · rw [if_pos hat, hat, List.getElem?_insertIdx_self, if_pos hk]
    · rw [if_neg hat, List.getElem?_insertIdx_of_lt (by omega)]
  · have hins : (b.inserted k).passed = b.passed + 1 := by rw [Bookmark.inserted, if_pos hge]
    rw [if_pos hge] at hahead
    rw [hins, hahead, List.getElem?_insertIdx_of_gt (by omega), Nat.add_sub_cancel]
    rcases Nat.eq_or_lt_of_le hge with rfl | hgt
    · rw [if_pos rfl, slotAt_insertIdx_succ hk]
    · rw [if_neg (by omega), if_neg (by omega), slotAt_insertIdx_of_lt hgt]

/-- An iterator behind a node that goes away. -/
theorem itOf_erased (hnd : cells.Nodup) (hk : cells[k]? = some p) (hb : b.ahead ≤ cells.length) :
    fixDestroyed p (slotAt cells k) cells[k + 1]? (itOf cells b) =
      itOf (cells.eraseIdx k) (b.erased k) := by
  have hlow := b.passed_le_ahead
  have hhigh := b.ahead_le
  have hlt : k < cells.length := (List.getElem?_eq_some_iff.mp hk).1
  have hnext : slotAt cells (k + 1) = .next p := slotAt_succ hk
  have hahead := @Bookmark.ahead_erased b k
  simp only [fixDestroyed, itOf, ← hk, ← hnext, slotAt_inj hnd (hlow.trans hb) hlt,
    getElem?_inj hnd hb hlt.le]
  by_cases hat : b.ahead = k
  · have her : b.erased k = ⟨k, false⟩ := if_pos (.inl hat)
    rw [if_pos hat, her]
    show _ = (⟨(cells.eraseIdx k)[k]?, slotAt (cells.eraseIdx k) k⟩ : ListIterator)
    rw [List.getElem?_eraseIdx_of_ge le_rfl, slotAt_eraseIdx_of_le le_rfl]
  rw [if_neg hat]
  -- `passed = k` is the iterator that holds the node: the code has nothing to change there
  rcases Nat.lt_trichotomy b.passed k with hless | heq | hgt
  · have her : b.erased k = b := by rw [Bookmark.erased, if_neg (by omega), if_neg (by omega)]
    rw [if_neg (by omega), her, List.getElem?_eraseIdx_of_lt (by omega),
      slotAt_eraseIdx_of_le hless.le]
  · have her : b.erased k = ⟨k, false⟩ := if_pos (.inr heq)
    have hnear : b.ahead = k + 1 := by omega
    rw [if_neg (by omega), her, hnear, heq]
    show _ = (⟨(cells.eraseIdx k)[k]?, slotAt (cells.eraseIdx k) k⟩ : ListIterator)
    rw [List.getElem?_eraseIdx_of_ge le_rfl, slotAt_eraseIdx_of_le le_rfl]
  · have her : (b.erased k).passed = b.passed - 1 := by
      rw [Bookmark.erased, if_neg (by omega), if_pos hgt]
    rw [if_pos (by omega)] at hahead
    rw [her, hahead, List.getElem?_eraseIdx_of_ge (by omega), Nat.sub_add_cancel (by omega)]
    by_cases hsucc : b.passed = k + 1
    · rw [if_pos hsucc, hsucc, Nat.add_sub_cancel, slotAt_eraseIdx_of_le le_rfl]
    · rw [if_neg hsucc, slotAt_eraseIdx_of_lt (by omega), Nat.sub_add_cancel (by omega)]

/-! ## Creating and destroying nodes -/

theorem Represents.marks_fit (h : Represents s cells a) {m : Nat × Bookmark} (hm : m ∈ a.marks) :
    m.2.ahead ≤ cells.length := h.chain.length ▸ a.fits m hm

theorem Represents.slot_tail (h : Represents s cells a) : s.list.tail = slotAt cells a.items.length := by
  rw [h.tail, h.chain.length]

theorem listNodeCreate_spec (h : Represents s cells a) (hfresh : s.mem.Fresh chunk)
    (hk : k ≤ a.items.length) (x : α) :
    (listNodeCreate chunk (slotAt cells k) x s = some (none, s) ∧ chunk = none) ∨
      ∃ p s', listNodeCreate chunk (slotAt cells k) x s = some (some x, s') ∧
        Represents s' (cells.insertIdx k p) (a.insertAt k x) ∧
        Frame s.mem cells s'.mem (cells.insertIdx k p) ∧ s'.list.fDel = s.list.fDel := by
  have hkc : k ≤ cells.length := h.chain.length ▸ hk
  rcases listAllocAux_spec h.pool hfresh with ⟨halloc, hnone⟩ | ⟨p, mem, halloc, hok, hcells, hidle, hfree⟩
  · exact .inl ⟨by rw [listNodeCreate, halloc], hnone⟩
  right
  have hp : p ∉ cells := by
    intro hmem
    obtain ⟨n, hn⟩ := h.chain.live hmem
    rw [hn] at hidle
    cases hidle
  have hnot : ∀ q ∈ cells, q ≠ p := fun q hq he => hp (he ▸ hq)
  -- the new node is written before the list leads to it
  let s₁ : State α :=
    { s with mem := { mem with cells := Function.update mem.cells p (some ⟨x, cells[k]?⟩) } }
  let s₂ : State α := if cells[k]? = none then { s₁ with list.tail := .next p } else s₁
  have hmem₂ : s₂.mem = s₁.mem := by
    show (if cells[k]? = none then _ else _ : State α).mem = _
    split <;> rfl
  have hlist₂ : s₂.list = { s.list with tail := if cells[k]? = none then .next p else s.list.tail } := by
    show (if cells[k]? = none then _ else _ : State α).list = _
    split <;> rfl
  have hnode : s₂.mem.cells p = some ⟨x, cells[k]?⟩ := by
    rw [hmem₂]
    exact Function.update_self ..
  have hold : ∀ q, q ≠ p → s₂.mem.cells q = s.mem.cells q := by
    intro q hq
    rw [hmem₂, ← hcells]
    exact Function.update_of_ne hq ..
  have hchain₂ : Chain s₂ cells a.items :=
    h.chain.congr (by rw [hlist₂]) fun q hq => hold q (hnot q hq)
  obtain ⟨s₃, hstore, hstored⟩ := store_spec (v := some p) (hchain₂.slot_isSome hkc)
  have hchain₃ : Chain s₃ (cells.insertIdx k p) (a.items.insertIdx k x) :=
    hchain₂.insert hkc hp (by rw [load, hnode]; rfl) (by rw [dataAt, hnode]; rfl) hstored
  let s₄ : State α := { s₃ with list.count := s₃.list.count + 1 }
  have hchain₄ : Chain s₄ (cells.insertIdx k p) (a.items.insertIdx k x) :=
    hchain₃.congr rfl fun _ _ => rfl
  have hfix := fixIterators_spec a.marks hchain₄ (g := Bookmark.inserted k)
    (fun m hm => ⟨itOf_inserted h.chain.nodup hkc (h.marks_fit hm), (a.fits m hm).inserted k x⟩)
  have hiNext : s₄.list.iNext = transfer (itOf cells) a.marks := by
    rw [← h.iNext]
    show s₃.list.iNext = _
    rw [hstored.list, hlist₂]
  have hother : ∀ q, q ∉ cells → q ≠ p → s₃.mem.cells q = s.mem.cells q := by
    intro q hq hqp
    rw [hstored.other q fun he => hq (mem_of_slotAt he), hold q hqp]
  refine ⟨p, { s₄ with list.iNext := transfer (itOf (cells.insertIdx k p)) (a.insertAt k x).marks },
    ?_, ?_, ?_, ?_⟩
  · have hload := h.chain.loads k hkc
    unfold listNodeCreate
    rw [halloc]
    simp only [hload, Option.bind_eq_bind, Option.bind_some]
    rw [show (if cells[k]? = none then _ else _ : State α) = s₂ from rfl, hstore, Option.bind_some]
    rw [show fixIterators _ _ _ = _ from hiNext ▸ hfix]
    rfl
  · refine ⟨hchain₄.congr rfl fun _ _ => rfl, ?_, rfl, ?_, ?_, ?_⟩
    · have htail : s₃.list.tail = if cells[k]? = none then .next p else s.list.tail := by
        rw [hstored.list, hlist₂]
      show s₃.list.tail = _
      rw [htail, List.length_insertIdx, if_pos hkc]
      rcases Nat.lt_or_eq_of_le hkc with hlt | rfl
      · rw [List.getElem?_eq_getElem hlt, if_neg (Option.some_ne_none _), h.tail,
          slotAt_insertIdx_of_lt hlt]
      · rw [List.getElem?_eq_none le_rfl, if_pos rfl, slotAt_insertIdx_succ le_rfl]
    · have hcount : s₃.list.count = s.list.count := by rw [hstored.list, hlist₂]
      show s₃.list.count + 1 = Int32.ofNat (a.items.insertIdx k x).length
      rw [hcount, h.count, List.length_insertIdx, if_pos hk, Int32.ofNat_add]
      rfl
    · intro q hq
      have hqf : q ∈ mem.free := by
        have hfree₃ : s₃.mem.free = mem.free := by rw [hstored.free, hmem₂]
        exact hfree₃ ▸ hq
      have hidleq : s.mem.cells q = none := hcells ▸ hok.idle q hqf
      have hqc : q ∉ cells := by
        intro hmem
        obtain ⟨n, hn⟩ := h.chain.live hmem
        rw [hn] at hidleq
        cases hidleq
      show s₃.mem.cells q = none
      rw [hother q hqc fun he => hfree (he ▸ hqf), hidleq]
    · show s₃.mem.free.Nodup
      rw [hstored.free, hmem₂]
      exact hok.nodup
  · refine ⟨fun q n hq hn => ?_, fun q hq => ?_, fun q hq hcases => ?_⟩
    · show s₃.mem.cells q = some n
      rw [hother q hq fun he => ?_, hn]
      rw [← he, hn] at hidle
      cases hidle
    · rw [List.mem_insertIdx hkc] at hq
      rcases hq with rfl | hqc
      · exact .inr hidle
      · exact .inl hqc
    · rw [List.mem_insertIdx hkc, not_or] at hq
      show s₃.mem.cells q = none
      rw [hother q hq.2 hq.1, hcases.resolve_left hq.2]
  · show s₃.list.fDel = _
    rw [hstored.list, hlist₂]

theorem listNodeDestroy_spec (h : Represents s cells a) (hk : k < a.items.length) :
    ∃ s', listNodeDestroy (slotAt cells k) s = some (some a.items[k], s') ∧
      Represents s' (cells.eraseIdx k) (a.eraseAt k) ∧
      Frame s.mem cells s'.mem (cells.eraseIdx k) ∧ s'.list.fDel = s.list.fDel := by
  obtain ⟨p, hp, hnode⟩ := h.chain.getElem? hk
  have hlt : k < cells.length := h.chain.length.symm ▸ hk
  have hpmem : p ∈ cells := List.mem_of_getElem? hp
  obtain ⟨s₁, hstore, hstored⟩ := store_spec (v := cells[k + 1]?) (h.chain.slot_isSome hlt.le)
  have hchain₁ : Chain s₁ (cells.eraseIdx k) (a.items.eraseIdx k) := h.chain.erase hlt hstored
  let s₂ : State α := if cells[k + 1]? = none then { s₁ with list.tail := slotAt cells k } else s₁
  have hmem₂ : s₂.mem = s₁.mem := by
    show (if cells[k + 1]? = none then _ else _ : State α).mem = _
    split <;> rfl
  have hlist₂ : s₂.list =
      { s₁.list with tail := if cells[k + 1]? = none then slotAt cells k else s₁.list.tail } := by
    show (if cells[k + 1]? = none then _ else _ : State α).list = _
    split <;> rfl
  let s₃ : State α := { s₂ with list.count := s₂.list.count - 1 }
  have hchain₃ : Chain s₃ (cells.eraseIdx k) (a.items.eraseIdx k) :=
    hchain₁.congr (show s₂.list.head = _ by rw [hlist₂]) fun q _ =>
      show s₂.mem.cells q = _ by rw [hmem₂]
  have hfix := fixIterators_spec a.marks hchain₃ (g := Bookmark.erased k)
    (fun m hm => ⟨itOf_erased h.chain.nodup hp (h.marks_fit hm), (a.fits m hm).erased k⟩)
  have hiNext : s₃.list.iNext = transfer (itOf cells) a.marks := by
    rw [← h.iNext]
    show s₂.list.iNext = _
    rw [hlist₂]
    show s₁.list.iNext = _
    rw [hstored.list]
  -- no node is in the chain twice, so the one that is freed is out of it
  have hgone : p ∉ cells.eraseIdx k := by
    intro hmem
    obtain ⟨j, hj, hjp⟩ := List.mem_eraseIdx_iff_getElem?.mp hmem
    have hjlt := (List.getElem?_eq_some_iff.mp hjp).1
    exact hj ((getElem?_inj h.chain.nodup hjlt.le hlt.le).mp (hjp.trans hp.symm))
  have hcells : ∀ q, q ≠ p → (listFreeAux p s₂.mem).cells q = s₁.mem.cells q := by
    intro q hq
    rw [listFreeAux, hmem₂]
    exact Function.update_of_ne hq ..
  have hother : ∀ q, q ∉ cells → (listFreeAux p s₂.mem).cells q = s.mem.cells q := by
    intro q hq
    rw [hcells q fun he => hq (he ▸ hpmem), hstored.other q fun he => hq (mem_of_slotAt he)]
  refine ⟨⟨listFreeAux p s₂.mem,
    { s₃.list with iNext := transfer (itOf (cells.eraseIdx k)) (a.eraseAt k).marks }⟩, ?_, ?_, ?_, ?_⟩
  · have hload := h.chain.loads k hlt.le
    unfold listNodeDestroy
    simp only [hload, Option.bind_eq_bind, Option.bind_some, hp, hnode, hstore]
    rw [show (if cells[k + 1]? = none then _ else _ : State α) = s₂ from rfl]
    rw [show fixIterators _ _ _ = _ from hiNext ▸ hfix]
    rfl
  · refine ⟨hchain₃.congr rfl fun q hq => ?_, ?_, rfl, ?_, ?_, ?_⟩
    · show (listFreeAux p s₂.mem).cells q = s₂.mem.cells q
      rw [hcells q fun he => hgone (he ▸ hq), hmem₂]
    · have htail : s₂.list.tail = if cells[k + 1]? = none then slotAt cells k else s.list.tail := by
        rw [hlist₂, hstored.list]
      show s₂.list.tail = _
      rw [htail, List.length_eraseIdx, if_pos hlt]
      rcases Nat.lt_or_ge (k + 1) cells.length with hmore | hlast
      · rw [List.getElem?_eq_getElem hmore, if_neg (Option.some_ne_none _), h.tail,
          slotAt_eraseIdx_of_lt (by omega), Nat.sub_add_cancel (by omega)]
      · have heq : cells.length - 1 = k := by omega
        rw [List.getElem?_eq_none hlast, if_pos rfl, heq, slotAt_eraseIdx_of_le le_rfl]
    · have hcount : s₂.list.count = s.list.count := by rw [hlist₂, hstored.list]
      show s₂.list.count - 1 = Int32.ofNat (a.items.eraseIdx k).length
      rw [hcount, h.count, List.length_eraseIdx, if_pos hk]
      obtain ⟨n, hn⟩ : ∃ n, a.items.length = n + 1 := ⟨a.items.length - 1, by omega⟩
      rw [hn, Int32.ofNat_add, Nat.add_sub_cancel]
      exact Int32.add_sub_cancel ..
    · intro q hq
      show (listFreeAux p s₂.mem).cells q = none
      rcases List.mem_cons.mp hq with rfl | hqf
      · exact Function.update_self ..
      · rw [hmem₂, hstored.free] at hqf
        have hidle := h.pool.idle q hqf
        rw [hother q fun hmem => ?_, hidle]
        obtain ⟨n, hn⟩ := h.chain.live hmem
        rw [hn] at hidle
        cases hidle
    · show (p :: s₂.mem.free).Nodup
      rw [hmem₂, hstored.free, List.nodup_cons]
      refine ⟨fun hmem => ?_, h.pool.nodup⟩
      have hidle := h.pool.idle p hmem
      rw [hnode] at hidle
      cases hidle
  · refine ⟨fun q n hq hn => ?_, fun q hq => .inl (List.mem_of_mem_eraseIdx hq), fun q hq hcases => ?_⟩
    · show (listFreeAux p s₂.mem).cells q = some n
      rw [hother q hq, hn]
    · show (listFreeAux p s₂.mem).cells q = none
      by_cases hqp : q = p
      · rw [hqp]
        exact Function.update_self ..
      · have hqc : q ∉ cells := by
          intro hmem
          obtain ⟨j, hj, rfl⟩ := List.mem_iff_getElem.mp hmem
          refine hq (List.mem_eraseIdx_iff_getElem?.mpr ⟨j, fun he => hqp ?_, List.getElem?_eq_getElem hj⟩)
          subst he
          rw [List.getElem?_eq_getElem hj] at hp
          exact Option.some.inj hp
        rw [hother q hqc, hcases.resolve_left hqc]
  · show s₂.list.fDel = _
    rw [hlist₂, hstored.list]

theorem listNodeDestroy_end (h : Represents s cells a) :
    listNodeDestroy (slotAt cells a.items.length) s = some (none, s) := by
  have hload := h.chain.loads _ h.chain.length.symm.le
  unfold listNodeDestroy
  rw [hload, List.getElem?_eq_none h.chain.length.le]
  rfl

end Pdsh.LinkedList
