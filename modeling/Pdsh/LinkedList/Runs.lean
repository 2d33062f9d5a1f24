import Pdsh.Lib.Transition
import Pdsh.LinkedList.Operations

/-!
# Runs over many lists

`World` is the memory of a process with all its lists, and `Command` a call on one of them; as each call
runs under the mutex of its list, what threads do is some sequence of calls. `Meaning` says what a
call does to lists with bookmarks, which know nothing of nodes.

* `lists_refine`: in every run the calls answer as the lists with bookmarks do, and no call meets a
  null or a freed pointer, or a failed assertion.
-/

namespace Pdsh.LinkedList

open Lib (Bookmark Marked)
open Lib.Transition (Trace)

variable {α : Type}

/-! ## Calls -/

/-- A call on a list. Where memory is needed, `chunk` is what `malloc` gives. -/
inductive ListOp (α : Type) where
  | isEmpty
  | count
  | append (chunk : Option Nat) (x : α)
  | prepend (chunk : Option Nat) (x : α)
  | push (chunk : Option Nat) (x : α)
  | enqueue (chunk : Option Nat) (x : α)
  | pop
  | dequeue
  | peek
  | findFirst (f : α → Bool)
  | deleteAll (f : α → Bool)
  | forEach (f : List α → α → Int32)
  | sort (f : α → α → Int32)
  /-- under a new name, or with no memory for it -/
  | iteratorCreate (name : Option Nat)
  | iteratorReset (name : Nat)
  | iteratorDestroy (name : Nat)
  | next (name : Nat)
  | insert (chunk : Option Nat) (name : Nat) (x : α)
  | remove (name : Nat)

inductive Answer (α : Type) where
  | done
  | flag (b : Bool)
  | number (n : Int32)
  | item (x : Option α)
  /-- a number, and the items a function was called on -/
  | items (n : Int32) (xs : List α)
  | handle (name : Option Nat)
deriving DecidableEq

def answerItem (r : Option α × State α) : Answer α × State α := (.item r.1, r.2)

/-- The call on the list. -/
def ListOp.exec (fuel : Nat) (op : ListOp α) (s : State α) : Option (Answer α × State α) :=
  match op with
  | .isEmpty => some (.flag (listIsEmpty s), s)
  | .count => some (.number (listCount s), s)
  | .append chunk x => (listAppend chunk x s).map answerItem
  | .prepend chunk x => (listPrepend chunk x s).map answerItem
  | .push chunk x => (listPush chunk x s).map answerItem
  | .enqueue chunk x => (listEnqueue chunk x s).map answerItem
  | .pop => (listPop s).map answerItem
  | .dequeue => (listDequeue s).map answerItem
  | .peek => (listPeek s).map fun x => (.item x, s)
  | .findFirst f => (listFindFirst fuel f s).map fun x => (.item x, s)
  | .deleteAll f => (listDeleteAll fuel f s).map fun r => (.items r.1.1 r.1.2, r.2)
  | .forEach f => (listForEach fuel f s).map fun r => (.items r.1 r.2, s)
  | .sort f => (listSort fuel f s).map fun s => (.done, s)
  | .iteratorCreate none => some (.handle none, s)
  | .iteratorCreate (some name) => some (.handle (some name), listIteratorCreate name s)
  | .iteratorReset name => some (.done, listIteratorReset name s)
  | .iteratorDestroy name => some (.done, listIteratorDestroy name s)
  | .next name => (listNext name s).map answerItem
  | .insert chunk name x => (listInsert chunk name x s).map answerItem
  | .remove name => (listRemove name s).map answerItem

/-- What a caller and the allocators keep to: an iterator that is used is there, a new one has a name of
its own, and `malloc` gives memory that is not in use. -/
def ListOp.Ready (s : State α) : ListOp α → Prop
  | .append chunk _ | .prepend chunk _ | .push chunk _ | .enqueue chunk _ => s.mem.Fresh chunk
  | .insert chunk name _ => s.mem.Fresh chunk ∧ (s.list.iNext.lookup name).isSome
  | .next name | .remove name | .iteratorReset name | .iteratorDestroy name =>
      (s.list.iNext.lookup name).isSome
  | .iteratorCreate (some name) => s.list.iNext.lookup name = none
  | _ => True

/-- An item is put in at a position, unless there is no memory. -/
def Put (chunk : Option Nat) (k : Nat) (x : α) (m : Marked Nat α) (r : Answer α) (m' : Marked Nat α) :
    Prop :=
  (r = .item (some x) ∧ m' = m.insertAt k x) ∨ (chunk = none ∧ r = .item none ∧ m' = m)

/-- The item at a position is taken out, if there is one. -/
def Taken (k : Nat) (m : Marked Nat α) (r : Answer α) (m' : Marked Nat α) : Prop :=
  r = .item m.items[k]? ∧ m' = if k < m.items.length then m.eraseAt k else m

/-- What a call means for a list with bookmarks; `fDel` says whether it has a function to delete data. -/
def ListOp.Meaning (fDel : Bool) (op : ListOp α) (m : Marked Nat α) (r : Answer α) (m' : Marked Nat α) :
    Prop :=
  match op with
  | .isEmpty => r = .flag (Int32.ofNat m.items.length == 0) ∧ m' = m
  | .count => r = .number (Int32.ofNat m.items.length) ∧ m' = m
  | .append chunk x | .enqueue chunk x => Put chunk m.items.length x m r m'
  | .prepend chunk x | .push chunk x => Put chunk 0 x m r m'
  | .pop | .dequeue => Taken 0 m r m'
  | .peek => r = .item m.items[0]? ∧ m' = m
  | .findFirst f => r = .item (m.items.find? f) ∧ m' = m
  | .deleteAll f =>
      r = .items (Int32.ofNat (m.items.countP f)) (if fDel then m.items.filter f else []) ∧
        m' = m.purge f m.items 0
  | .forEach f => r = .items (visit f m.items 0 []).1 (visit f m.items 0 []).2 ∧ m' = m
  | .sort f =>
      r = .done ∧ m' = if 1 < Int32.ofNat m.items.length then m.rearrange (sortItems f m.items) else m
  | .iteratorCreate none => r = .handle none ∧ m' = m
  | .iteratorCreate (some name) => r = .handle (some name) ∧ m' = m.open_ name
  | .iteratorReset name => r = .done ∧ m' = m.rewind name
  | .iteratorDestroy name => r = .done ∧ m' = m.close name
  | .next name => ∃ b, m.mark name = some b ∧ r = .item m.items[b.ahead]? ∧ m' = m.advance name
  | .insert chunk name x => ∃ b, m.mark name = some b ∧ Put chunk b.passed x m r m'
  | .remove name => ∃ b, m.mark name = some b ∧
      if b.held then Taken b.passed m r m' else r = .item none ∧ m' = m

/-! ## One list -/

section OneList

variable {s : State α} {cells : List Nat} {m : Marked Nat α} {k fuel name : Nat} {x : α}
  {chunk : Option Nat} {P : Answer α → Marked Nat α → Prop}

/-- The call comes to an end, as `P` says. -/
def Lands (s : State α) (cells : List Nat) (o : Option (Answer α × State α))
    (P : Answer α → Marked Nat α → Prop) : Prop :=
  ∃ r s' cells' m', o = some (r, s') ∧ P r m' ∧ Represents s' cells' m' ∧
    Frame s.mem cells s'.mem cells' ∧ s'.list.fDel = s.list.fDel

theorem Lands.same {r : Answer α} (h : Represents s cells m) (hP : P r m) :
    Lands s cells (some (r, s)) P :=
  ⟨r, s, cells, m, rfl, hP, h, Frame.refl, rfl⟩

theorem Represents.mark_of_isSome (h : Represents s cells m)
    (hname : (s.list.iNext.lookup name).isSome) : ∃ b, m.mark name = some b := by
  rw [h.iNext, Lib.lookup_transfer, Option.isSome_map] at hname
  exact Option.isSome_iff_exists.mp hname

theorem lands_create (h : Represents s cells m) (hfresh : s.mem.Fresh chunk) (hk : k ≤ m.items.length)
    (x : α) : Lands s cells ((listNodeCreate chunk (slotAt cells k) x s).map answerItem)
      (Put chunk k x m) := by
  rcases listNodeCreate_spec h hfresh hk x with ⟨hnone, hchunk⟩ | ⟨p, s', hsome, hrep, hframe, hdel⟩
  · rw [hnone]
    exact .same h (.inr ⟨hchunk, rfl, rfl⟩)
  · rw [hsome]
    exact ⟨_, s', _, _, rfl, .inl ⟨rfl, rfl⟩, hrep, hframe, hdel⟩

theorem lands_destroy (h : Represents s cells m) (hk : k ≤ m.items.length) :
    Lands s cells ((listNodeDestroy (slotAt cells k) s).map answerItem) (Taken k m) := by
  rcases Nat.lt_or_eq_of_le hk with hlt | rfl
  · obtain ⟨s', hsome, hrep, hframe, hdel⟩ := listNodeDestroy_spec h hlt
    rw [hsome]
    refine ⟨_, s', _, _, rfl, ⟨?_, ?_⟩, hrep, hframe, hdel⟩
    · rw [List.getElem?_eq_getElem hlt]
    · rw [if_pos hlt]
  · rw [listNodeDestroy_end h]
    refine .same h ⟨?_, ?_⟩
    · rw [List.getElem?_eq_none le_rfl]
    · rw [if_neg (lt_irrefl _)]

/-- Every call ends as it is meant, when the fuel of its loop lasts. -/
theorem exec_spec (op : ListOp α) (fuel : Nat) (h : Represents s cells m) (hready : op.Ready s) :
    (op.exec fuel s = none ∧ fuel ≤ m.items.length) ∨
      Lands s cells (op.exec fuel s) (op.Meaning s.list.fDel m) := by
  have hnone : ∀ {β : Type} {o : Option β} (f : β → Answer α × State α), o = none → o.map f = none :=
    fun f ho => by rw [ho, Option.map_none]
  cases op with
  | isEmpty =>
      refine .inr (.same h ⟨?_, rfl⟩)
      rw [listIsEmpty, h.count]
  | count =>
      refine .inr (.same h ⟨?_, rfl⟩)
      rw [listCount, h.count]
  | append chunk x =>
      right
      rw [ListOp.exec, listAppend, h.slot_tail]
      exact lands_create h hready le_rfl x
  | enqueue chunk x =>
      right
      rw [ListOp.exec, listEnqueue, h.slot_tail]
      exact lands_create h hready le_rfl x
  | prepend chunk x => exact .inr (lands_create h hready (Nat.zero_le _) x)
  | push chunk x => exact .inr (lands_create h hready (Nat.zero_le _) x)
  | pop => exact .inr (lands_destroy h (Nat.zero_le _))
  | dequeue => exact .inr (lands_destroy h (Nat.zero_le _))
  | peek =>
      right
      -- the head is null exactly when there is no item
      have hpeek : listPeek s = some m.items[0]? := by
        rw [listPeek, h.chain.head]
        rcases Nat.eq_zero_or_pos m.items.length with hzero | hpos
        · rw [List.getElem?_eq_none (by rw [h.chain.length]; omega), List.getElem?_eq_none (by omega)]
        · obtain ⟨p, hp, hnode⟩ := h.chain.getElem? hpos
          rw [hp, List.getElem?_eq_getElem hpos]
          dsimp only
          rw [hnode]
          rfl
      rw [ListOp.exec, hpeek]
      exact .same h ⟨rfl, rfl⟩
  | findFirst f =>
      rw [ListOp.exec, listFindFirst, h.chain.head]
      rcases findLoop_spec (f := f) h.chain (Nat.zero_le _) with ⟨hfail, hfuel⟩ | hsome
      · exact .inl ⟨hnone _ hfail, hfuel⟩
      · rw [hsome, List.drop_zero]
        exact .inr (.same h ⟨rfl, rfl⟩)
  | deleteAll f =>
      rw [ListOp.exec, listDeleteAll]
      rcases deleteLoop_spec (f := f) fuel 0 [] h (Nat.zero_le _) List.drop_zero with
        ⟨hfail, hfuel⟩ | ⟨s', cells', hsome, hrep, hframe, hdel⟩
      · exact .inl ⟨hnone _ hfail, hfuel⟩
      · right
        rw [show Slot.head = slotAt cells 0 from rfl, hsome, Int32.zero_add]
        exact ⟨_, s', cells', _, rfl, ⟨rfl, rfl⟩, hrep, hframe, hdel⟩
  | forEach f =>
      rw [ListOp.exec, listForEach, h.chain.head]
      rcases forEachLoop_spec (f := f) fuel 0 [] h.chain (Nat.zero_le _) with
        ⟨hfail, hfuel⟩ | hsome
      · exact .inl ⟨hnone _ hfail, hfuel⟩
      · rw [hsome, List.drop_zero]
        exact .inr (.same h ⟨rfl, rfl⟩)
  | sort f =>
      -- a list of one item or none is left as it is
      by_cases hcount : 1 < Int32.ofNat m.items.length
      · rcases listSort_spec (f := f) fuel h hcount with
          ⟨hfail, hfuel⟩ | ⟨s', cells', hsome, hrep, hframe, hdel⟩
        · exact .inl ⟨hnone _ hfail, hfuel⟩
        · right
          rw [ListOp.exec, hsome]
          exact ⟨_, s', cells', _, rfl, ⟨rfl, by rw [if_pos hcount]⟩, hrep, hframe, hdel⟩
      · right
        rw [ListOp.exec, listSort, if_neg (by rwa [h.count])]
        exact .same h ⟨rfl, by rw [if_neg hcount]⟩
  | iteratorCreate name =>
      cases name with
      | none => exact .inr (.same h ⟨rfl, rfl⟩)
      | some name =>
          exact .inr ⟨_, _, cells, _, rfl, ⟨rfl, rfl⟩, listIteratorCreate_spec h, Frame.refl, rfl⟩
  | iteratorReset name =>
      obtain ⟨b, hb⟩ := h.mark_of_isSome hready
      exact .inr ⟨_, _, cells, _, rfl, ⟨rfl, rfl⟩, listIteratorReset_spec h hb, Frame.refl, rfl⟩
  | iteratorDestroy name =>
      exact .inr ⟨_, _, cells, _, rfl, ⟨rfl, rfl⟩, listIteratorDestroy_spec h, Frame.refl, rfl⟩
  | next name =>
      right
      obtain ⟨b, hb⟩ := h.mark_of_isSome hready
      obtain ⟨s', hsome, hrep, hmem, hdel⟩ := listNext_spec h hb
      rw [ListOp.exec, hsome]
      exact ⟨_, s', cells, _, rfl, ⟨b, hb, rfl, rfl⟩, hrep, hmem ▸ Frame.refl, hdel⟩
  | insert chunk name x =>
      right
      obtain ⟨b, hb⟩ := h.mark_of_isSome hready.2
      have hfits : b.ahead ≤ m.items.length := Marked.fits_mark hb
      -- the item goes to where the iterator has come, in front of what it gives next
      have hput := lands_create h hready.1 (b.passed_le_ahead.trans hfits) x
      rw [ListOp.exec, listInsert, lookup_iNext h hb]
      obtain ⟨r, s', cells', m', hsome, hP, hrep⟩ := hput
      exact ⟨r, s', cells', m', hsome, ⟨b, hb, hP⟩, hrep⟩
  | remove name =>
      right
      obtain ⟨b, hb⟩ := h.mark_of_isSome hready
      rw [ListOp.exec]
      rcases listRemove_spec h hb with ⟨hheld, hsome⟩ | ⟨hheld, hlt, s', hsome, hrep, hframe, hdel⟩
      · rw [hsome]
        refine .same h ⟨b, hb, ?_⟩
        rw [hheld]
        exact ⟨rfl, rfl⟩
      · rw [hsome]
        refine ⟨_, s', _, _, rfl, ⟨b, hb, ?_⟩, hrep, hframe, hdel⟩
        rw [if_pos hheld]
        refine ⟨?_, ?_⟩
        · rw [List.getElem?_eq_getElem hlt]
        · rw [if_pos hlt]

end OneList

/-! ## All lists -/

/-- The nodes in memory, and the lists by their handles. -/
structure World (α : Type) where
  mem : Pool (ListNode α)
  lists : Nat → Option CList

def World.start : World α := ⟨⟨fun _ => none, []⟩, fun _ => none⟩

inductive Command (α : Type) where
  /-- under the handle `list_alloc` gives, or with no memory -/
  | create (l : Option Nat) (fDel : Bool)
  | destroy (l : Nat)
  | on (l : Nat) (op : ListOp α)

def Command.exec (fuel : Nat) (c : Command α) (w : World α) : Option (Answer α × World α) :=
  match c with
  | .create none _ => some (.handle none, w)
  | .create (some l) fDel =>
      some (.handle (some l), { w with lists := Function.update w.lists l (some (listCreate fDel)) })
  | .destroy l => do
      let list ← w.lists l
      let (gone, mem) ← listDestroy fuel ⟨w.mem, list⟩
      some (.items 0 gone, ⟨mem, Function.update w.lists l none⟩)
  | .on l op => do
      let list ← w.lists l
      let (r, s) ← op.exec fuel ⟨w.mem, list⟩
      some (r, ⟨s.mem, Function.update w.lists l (some s.list)⟩)

def Command.Ready (w : World α) : Command α → Prop
  | .create none _ => True
  | .create (some l) _ => w.lists l = none
  | .destroy l => (w.lists l).isSome
  | .on l op => ∃ list, w.lists l = some list ∧ op.Ready ⟨w.mem, list⟩

/-- A call that is made rightly, and comes to its end. -/
def Runs (w : World α) (c : Command α) (r : Answer α) (w' : World α) : Prop :=
  c.Ready w ∧ ∃ fuel, c.exec fuel w = some (r, w')

/-- The lists as lists with bookmarks, and whether they delete data. -/
abbrev Shelf (α : Type) := Nat → Option (Bool × Marked Nat α)

def Shelf.start : Shelf α := fun _ => none

/-- What a call means. -/
def Command.Meaning (a : Shelf α) (c : Command α) (r : Answer α) (a' : Shelf α) : Prop :=
  match c with
  | .create none _ => r = .handle none ∧ a' = a
  | .create (some l) fDel =>
      r = .handle (some l) ∧ a' = Function.update a l (some (fDel, Marked.empty))
  | .destroy l => ∃ fDel m, a l = some (fDel, m) ∧ r = .items 0 (if fDel then m.items else []) ∧
      a' = Function.update a l none
  | .on l op => ∃ fDel m m', a l = some (fDel, m) ∧ op.Meaning fDel m r m' ∧
      a' = Function.update a l (some (fDel, m'))

/-- The lists stand in memory, each in nodes of its own. -/
structure Holds (w : World α) (cells : Nat → List Nat) (a : Shelf α) : Prop where
  dead : ∀ l, a l = none → w.lists l = none ∧ cells l = []
  live : ∀ l fDel m, a l = some (fDel, m) → ∃ list, w.lists l = some list ∧ list.fDel = fDel ∧
    Represents ⟨w.mem, list⟩ (cells l) m
  apart : ∀ l l' p, p ∈ cells l → p ∈ cells l' → l = l'
  owned : ∀ p n, w.mem.cells p = some n → ∃ l, p ∈ cells l
  pool : w.mem.Ok

section Worlds

variable {w w' : World α} {a : Shelf α} {cells : Nat → List Nat} {l : Nat} {fDel : Bool}
  {m m' : Marked Nat α} {c : Command α} {r : Answer α}

theorem Holds.start : Holds (World.start : World α) (fun _ => []) Shelf.start where
  dead _ _ := ⟨rfl, rfl⟩
  live _ _ _ h := by cases h
  apart _ _ _ h := absurd h List.not_mem_nil
  owned _ _ h := by cases h
  pool := ⟨fun _ h => absurd h List.not_mem_nil, List.nodup_nil⟩

theorem Holds.list_of_isSome (h : Holds w cells a) (hl : (w.lists l).isSome) :
    ∃ fDel m, a l = some (fDel, m) := by
  cases hal : a l with
  | none =>
      rw [(h.dead l hal).1] at hl
      cases hl
  | some x => exact ⟨x.1, x.2, rfl⟩

/-- The nodes of the other lists are as they were. -/
theorem Holds.keeps {mem : Pool (ListNode α)} {cells' : List Nat} (h : Holds w cells a)
    (hframe : Frame w.mem (cells l) mem cells') (hok : mem.Ok) {l' : Nat} (hne : l' ≠ l) {list : CList}
    (hrep : Represents ⟨w.mem, list⟩ (cells l') m) : Represents ⟨mem, list⟩ (cells l') m := by
  refine ⟨hrep.chain.congr rfl fun p hp => ?_, hrep.tail, hrep.iNext, hrep.count, hok⟩
  obtain ⟨n, hn⟩ := hrep.chain.live hp
  have hold : w.mem.cells p = some n := hn
  show mem.cells p = w.mem.cells p
  rw [hold, hframe.other p n (fun hmem => hne (h.apart l' l p hp hmem)) hold]

/-- Every node in memory is still in a list. -/
theorem Holds.owned_update {mem : Pool (ListNode α)} {cells' : List Nat} (h : Holds w cells a)
    (hframe : Frame w.mem (cells l) mem cells') (p : Nat) (n : ListNode α) (hn : mem.cells p = some n) :
    ∃ l', p ∈ Function.update cells l cells' l' := by
  by_cases hp : p ∈ cells'
  · exact ⟨l, by rwa [Function.update_self]⟩
  have hnot : ¬(p ∈ cells l ∨ w.mem.cells p = none) := by
    intro hcases
    rw [hframe.gone p hp hcases] at hn
    cases hn
  obtain ⟨hout, hlive⟩ := not_or.mp hnot
  obtain ⟨n', hn'⟩ := Option.ne_none_iff_exists'.mp hlive
  obtain ⟨l', hl'⟩ := h.owned p n' hn'
  have hne : l' ≠ l := by
    rintro rfl
    exact hout hl'
  exact ⟨l', by rwa [Function.update_of_ne hne]⟩

/-- A list is put in the place of another, as a frame allows. -/
theorem Holds.replace {mem : Pool (ListNode α)} {cells' : List Nat} {list : CList}
    (h : Holds w cells a) (hframe : Frame w.mem (cells l) mem cells')
    (hrep : Represents ⟨mem, list⟩ cells' m') :
    Holds ⟨mem, Function.update w.lists l (some list)⟩ (Function.update cells l cells')
      (Function.update a l (some (list.fDel, m'))) := by
  -- a node of the new list was one of the old list's, or in no list
  have hcross : ∀ l' p, l' ≠ l → p ∈ cells' → p ∉ cells l' := by
    intro l' p hne hp hp'
    rcases hframe.fresh p hp with hmem | hnone
    · exact hne (h.apart l' l p hp' hmem)
    · cases hal : a l' with
      | none =>
          rw [(h.dead l' hal).2] at hp'
          exact List.not_mem_nil hp'
      | some x =>
          obtain ⟨list', -, -, hrep'⟩ := h.live l' x.1 x.2 hal
          obtain ⟨n, hn⟩ := hrep'.chain.live hp'
          have hold : w.mem.cells p = some n := hn
          rw [hold] at hnone
          cases hnone
  refine ⟨fun l' hl' => ?_, fun l' fDel' m'' hl' => ?_, fun l₁ l₂ p h₁ h₂ => ?_,
    h.owned_update hframe, hrep.pool⟩
  · by_cases hne : l' = l
    · subst hne
      rw [Function.update_self] at hl'
      cases hl'
    · rw [Function.update_of_ne hne] at hl' ⊢
      exact ⟨(Function.update_of_ne hne ..).trans (h.dead l' hl').1, (h.dead l' hl').2⟩
  · by_cases hne : l' = l
    · subst hne
      rw [Function.update_self] at hl' ⊢
      obtain ⟨rfl, rfl⟩ := Prod.mk.inj (Option.some.inj hl')
      exact ⟨list, Function.update_self .., rfl, hrep⟩
    · rw [Function.update_of_ne hne] at hl' ⊢
      obtain ⟨list', hlist', hdel', hrep'⟩ := h.live l' fDel' m'' hl'
      exact ⟨list', (Function.update_of_ne hne ..).trans hlist', hdel',
        h.keeps hframe hrep.pool hne hrep'⟩
  · by_cases hne₁ : l₁ = l
    · by_cases hne₂ : l₂ = l
      · rw [hne₁, hne₂]
      · subst hne₁
        rw [Function.update_self] at h₁
        rw [Function.update_of_ne hne₂] at h₂
        exact absurd h₂ (hcross l₂ p hne₂ h₁)
    · rw [Function.update_of_ne hne₁] at h₁
      by_cases hne₂ : l₂ = l
      · subst hne₂
        rw [Function.update_self] at h₂
        exact absurd h₁ (hcross l₁ p hne₁ h₂)
      · rw [Function.update_of_ne hne₂] at h₂
        exact h.apart l₁ l₂ p h₁ h₂

/-- A new list is empty, and needs no node. -/
theorem represents_listCreate (hok : w.mem.Ok) (fDel : Bool) :
    Represents ⟨w.mem, listCreate fDel⟩ [] (Marked.empty : Marked Nat α) := by
  refine ⟨⟨fun k hk => ?_, fun k p hp => ?_, rfl, List.nodup_nil⟩, rfl, rfl, rfl, hok⟩
  · obtain rfl : k = 0 := Nat.le_zero.mp hk
    rfl
  · cases hp

/-- The list of a handle goes away with its nodes. -/
theorem Holds.drop {mem : Pool (ListNode α)} (h : Holds w cells a) (hok : mem.Ok)
    (hframe : Frame w.mem (cells l) mem []) :
    Holds ⟨mem, Function.update w.lists l none⟩ (Function.update cells l []) (Function.update a l none) := by
  refine ⟨fun l' hl' => ?_, fun l' fDel' m'' hl' => ?_, fun l₁ l₂ p h₁ h₂ => ?_,
    h.owned_update hframe, hok⟩
  · by_cases hne : l' = l
    · subst hne
      exact ⟨Function.update_self .., Function.update_self ..⟩
    · rw [Function.update_of_ne hne] at hl' ⊢
      exact ⟨(Function.update_of_ne hne ..).trans (h.dead l' hl').1, (h.dead l' hl').2⟩
  · by_cases hne : l' = l
    · subst hne
      rw [Function.update_self] at hl'
      cases hl'
    · rw [Function.update_of_ne hne] at hl' ⊢
      obtain ⟨list', hlist', hdel', hrep'⟩ := h.live l' fDel' m'' hl'
      exact ⟨list', (Function.update_of_ne hne ..).trans hlist', hdel', h.keeps hframe hok hne hrep'⟩
  · have hnot : ∀ l', p ∈ Function.update cells l [] l' → l' ≠ l ∧ p ∈ cells l' := by
      intro l' hp
      by_cases hne : l' = l
      · subst hne
        rw [Function.update_self] at hp
        exact absurd hp List.not_mem_nil
      · rw [Function.update_of_ne hne] at hp
        exact ⟨hne, hp⟩
    exact h.apart l₁ l₂ p (hnot l₁ h₁).2 (hnot l₂ h₂).2

/-- A call that is made rightly ends as it is meant, once its loop has fuel enough. -/
theorem command_spec (h : Holds w cells a) (hready : c.Ready w) :
    ∃ n, ∀ fuel, (c.exec fuel w = none ∧ fuel ≤ n) ∨
      ∃ r w' cells' a', c.exec fuel w = some (r, w') ∧ c.Meaning a r a' ∧ Holds w' cells' a' := by
  cases c with
  | create l fDel =>
      refine ⟨0, fun fuel => .inr ?_⟩
      cases l with
      | none => exact ⟨_, w, cells, a, rfl, ⟨rfl, rfl⟩, h⟩
      | some l =>
          have hl : w.lists l = none := hready
          have hal : a l = none := by
            cases hal : a l with
            | none => rfl
            | some x =>
                obtain ⟨list, hlist, -⟩ := h.live l x.1 x.2 hal
                rw [hlist] at hl
                cases hl
          -- a new list needs no node
          have hframe : Frame w.mem (cells l) w.mem [] := by
            rw [(h.dead l hal).2]
            exact Frame.refl
          exact ⟨_, _, _, _, rfl, ⟨rfl, rfl⟩, h.replace hframe (represents_listCreate h.pool fDel)⟩
  | destroy l =>
      obtain ⟨fDel, m, hal⟩ := h.list_of_isSome hready
      obtain ⟨list, hlist, hdel, hrep⟩ := h.live l fDel m hal
      refine ⟨m.items.length, fun fuel => ?_⟩
      rw [Command.exec, hlist, Option.bind_eq_bind, Option.bind_some]
      rcases listDestroy_spec fuel hrep with ⟨hnone, hfuel⟩ | ⟨mem, hsome, hok, hframe⟩
      · exact .inl ⟨by rw [hnone]; rfl, hfuel⟩
      · right
        rw [hsome]
        exact ⟨_, _, _, _, rfl, ⟨fDel, m, hal, by rw [← hdel], rfl⟩, h.drop hok hframe⟩
  | on l op =>
      obtain ⟨list, hlist, hop⟩ := hready
      obtain ⟨fDel, m, hal⟩ := h.list_of_isSome (l := l) (by rw [hlist]; rfl)
      obtain ⟨list', hlist', rfl, hrep⟩ := h.live l fDel m hal
      obtain rfl : list = list' := Option.some.inj (hlist.symm.trans hlist')
      refine ⟨m.items.length, fun fuel => ?_⟩
      rw [Command.exec, hlist, Option.bind_eq_bind, Option.bind_some]
      rcases exec_spec op fuel hrep hop with
        ⟨hnone, hfuel⟩ | ⟨r, s', cells', m', hsome, hmeaning, hrep', hframe, hdel⟩
      · exact .inl ⟨by rw [hnone]; rfl, hfuel⟩
      · right
        rw [hsome]
        have hholds := h.replace hframe hrep'
        rw [hdel] at hholds
        exact ⟨_, _, _, _, rfl, ⟨_, m, m', hal, hmeaning, rfl⟩, hholds⟩

/-- What a run does to the lists in memory, it does to the lists with bookmarks. -/
theorem runs_simulate (h : Holds w cells a) (hrun : Runs w c r w') :
    ∃ cells' a', c.Meaning a r a' ∧ Holds w' cells' a' := by
  obtain ⟨hready, fuel, hexec⟩ := hrun
  obtain ⟨n, hspec⟩ := command_spec h hready
  rcases hspec fuel with ⟨hnone, -⟩ | ⟨r', w'', cells', a', hsome, hmeaning, hholds⟩
  · rw [hnone] at hexec
    cases hexec
  · rw [hsome] at hexec
    cases hexec
    exact ⟨cells', a', hmeaning, hholds⟩

theorem runs_total (h : Holds w cells a) (hready : c.Ready w) : ∃ r w', Runs w c r w' := by
  obtain ⟨n, hspec⟩ := command_spec h hready
  rcases hspec (n + 1) with ⟨-, hfuel⟩ | ⟨r, w', -, -, hsome, -⟩
  · omega
  · exact ⟨r, w', hready, n + 1, hsome⟩

/-- The list under a handle, as it stands in memory. -/
def World.Shows (w : World α) (l : Nat) (items : List α) : Prop :=
  ∃ list cells, w.lists l = some list ∧ Chain ⟨w.mem, list⟩ cells items

theorem Holds.shows (h : Holds w cells a) (hal : a l = some (fDel, m)) : w.Shows l m.items := by
  obtain ⟨list, hlist, -, hrep⟩ := h.live l fDel m hal
  exact ⟨list, cells l, hlist, hrep.chain⟩

theorem World.Shows.unique {items items' : List α} (h : w.Shows l items) (h' : w.Shows l items') :
    items = items' := by
  obtain ⟨list, cells, hlist, hchain⟩ := h
  obtain ⟨list', cells', hlist', hchain'⟩ := h'
  obtain rfl : list = list' := Option.some.inj (hlist.symm.trans hlist')
  exact hchain.unique hchain'

end Worlds

/-- In every run the calls answer as the lists with bookmarks do; the lists stand in memory, each in
nodes of its own; and the next call that is made rightly comes to its end. -/
theorem lists_refine {w : World α} {tr : List (Command α × Answer α)}
    (h : Trace Runs World.start tr w) :
    ∃ a cells, Trace Command.Meaning Shelf.start tr a ∧ Holds w cells a ∧
      ∀ c : Command α, c.Ready w → ∃ r w', Runs w c r w' := by
  have hstep : ∀ w c r w' (a : Shelf α), (∃ cells, Holds w cells a) → Runs w c r w' →
      ∃ a', Command.Meaning a c r a' ∧ ∃ cells, Holds w' cells a' := by
    rintro w c r w' a ⟨cells, hholds⟩ hrun
    obtain ⟨cells', a', hmeaning, hholds'⟩ := runs_simulate hholds hrun
    exact ⟨a', hmeaning, cells', hholds'⟩
  obtain ⟨a, hmeaning, cells, hholds⟩ := h.simulate hstep ⟨_, Holds.start⟩
  exact ⟨a, cells, hmeaning, hholds, fun c => runs_total hholds⟩

/-- Two items, and one put in and one taken out through an iterator. -/
theorem lists_refine_three : ∃ (w : World Nat) (a : Shelf Nat) (cells : Nat → List Nat),
    Trace Command.Meaning Shelf.start [(.create (some 0) true, .handle (some 0)),
      (.on 0 (.append (some 100) 5), .item (some 5)), (.on 0 (.push none 7), .item (some 7)),
      (.on 0 (.iteratorCreate (some 1)), .handle (some 1)), (.on 0 (.next 1), .item (some 7)),
      (.on 0 (.insert none 1 6), .item (some 6)), (.on 0 (.next 1), .item (some 5)),
      (.on 0 (.remove 1), .item (some 5)), (.on 0 .count, .number 2)] a ∧ Holds w cells a ∧
    ∀ c : Command Nat, c.Ready w → ∃ r w', Runs w c r w' := by
  have hnone : ∀ m : Pool (ListNode Nat), m.Fresh none := fun _ _ _ h => by cases h
  refine ⟨_, lists_refine (.cons ⟨rfl, 0, rfl⟩ <| .cons ⟨⟨_, rfl, fun _ _ _ _ _ => rfl⟩, 0, rfl⟩ <|
    .cons ⟨⟨_, rfl, hnone _⟩, 0, rfl⟩ <| .cons ⟨⟨_, rfl, rfl⟩, 0, rfl⟩ <|
    .cons ⟨⟨_, rfl, rfl⟩, 0, rfl⟩ <| .cons ⟨⟨_, rfl, hnone _, rfl⟩, 0, rfl⟩ <|
    .cons ⟨⟨_, rfl, rfl⟩, 0, rfl⟩ <| .cons ⟨⟨_, rfl, rfl⟩, 0, rfl⟩ <|
    .cons ⟨⟨_, rfl, trivial⟩, 0, rfl⟩ .nil)⟩

/-- In every run, `list_sort` with a weak order comes to its end and leaves the list sorted, and items
that compare equal in the order they had. -/
theorem list_sort_stable {w : World α} {tr : List (Command α × Answer α)} {l : Nat} {items : List α}
    {f : α → α → Int32} (h : Trace Runs World.start tr w) (hitems : w.Shows l items)
    (hlen : items.length < 2 ^ 31) (hf : IsWeakOrder f) :
    (∃ r w', Runs w (.on l (.sort f)) r w') ∧ ∀ r w', Runs w (.on l (.sort f)) r w' →
      ∃ items', w'.Shows l items' ∧ items'.Perm items ∧ (items'.Pairwise fun x y => ¬f y x < 0) ∧
        ∀ x, items'.filter (levels f x) = items.filter (levels f x) := by
  obtain ⟨a, cells, -, hholds, htotal⟩ := lists_refine h
  refine ⟨?_, fun r w' hrun => ?_⟩
  · obtain ⟨list, -, hlist, -⟩ := hitems
    exact htotal _ ⟨list, hlist, trivial⟩
  · obtain ⟨cells', a', hmeaning, hholds'⟩ := runs_simulate hholds hrun
    obtain ⟨fDel, m, m', hal, ⟨-, rfl⟩, rfl⟩ := hmeaning
    obtain rfl : items = m.items := hitems.unique (hholds.shows hal)
    refine ⟨_, hholds'.shows (Function.update_self ..), ?_⟩
    by_cases hcount : 1 < Int32.ofNat m.items.length
    · rw [if_pos hcount]
      exact ⟨sortItems_perm, sortItems_sorted hf, sortItems_stable hf⟩
    · rw [if_neg hcount]
      refine ⟨List.Perm.refl _, ?_, fun _ => rfl⟩
      -- the count is an int, but the list is short enough for it
      have hshort : m.items.length ≤ 1 := by
        rw [Int32.not_lt, Int32.le_iff_toInt_le, Int32.toInt_ofNat_of_lt hlen] at hcount
        exact Int.ofNat_le.mp hcount
      match hm : m.items, hshort with
      | [], _ => exact List.Pairwise.nil
      | [x], _ => exact List.pairwise_singleton _ x

/-- Three pairs in a list. -/
def pairsBefore : List (Command (Nat × Nat) × Answer (Nat × Nat)) :=
  [(.create (some 0) true, .handle (some 0)), (.on 0 (.append (some 100) (2, 5)), .item (some (2, 5))),
    (.on 0 (.append none (1, 8)), .item (some (1, 8))), (.on 0 (.append none (1, 3)), .item (some (1, 3)))]

/-- The order of the first of two pairs. -/
def firstOrder (x y : Nat × Nat) : Int32 := if x.1 < y.1 then -1 else 0

/-- Pairs sorted by their first: (1, 8) stays in front of (1, 3). -/
theorem list_sort_stable_pairs : ∃ (w w' : World (Nat × Nat)) (r : Answer (Nat × Nat))
    (items : List (Nat × Nat)), Trace Runs World.start pairsBefore w ∧
    Runs w (.on 0 (.sort firstOrder)) r w' ∧ w'.Shows 0 items ∧
    items.Perm [(2, 5), (1, 8), (1, 3)] ∧ (items.Pairwise fun x y => x.1 ≤ y.1) ∧
    items.filter (fun x => x.1 == 1) = [(1, 8), (1, 3)] := by
  have hf : ∀ x y, firstOrder x y < 0 ↔ x.1 < y.1 := by
    intro x y
    rw [firstOrder]
    split <;> simp_all
  have hweak : IsWeakOrder firstOrder :=
    ⟨fun x y => by simp only [hf]; omega, fun x y z => by simp only [hf]; omega⟩
  have hnone : ∀ m : Pool (ListNode (Nat × Nat)), m.Fresh none := fun _ _ _ h => by cases h
  obtain ⟨w, run, hitems⟩ : ∃ w, Trace Runs (World.start : World (Nat × Nat)) pairsBefore w ∧
      w.Shows 0 [(2, 5), (1, 8), (1, 3)] := by
    refine ⟨_, .cons ⟨rfl, 0, rfl⟩ <| .cons ⟨⟨_, rfl, fun _ _ _ _ _ => rfl⟩, 0, rfl⟩ <|
      .cons ⟨⟨_, rfl, hnone _⟩, 0, rfl⟩ <| .cons ⟨⟨_, rfl, hnone _⟩, 0, rfl⟩ .nil, ?_⟩
    refine ⟨_, [100, 101, 102], rfl, fun k hk => ?_, fun k p hp => ?_, rfl, by decide⟩
    · match k, hk with
      | 0, _ | 1, _ | 2, _ | 3, _ => rfl
    · match k, hp with
      | 0, rfl | 1, rfl | 2, rfl => rfl
  obtain ⟨⟨r, w', hsort⟩, hall⟩ := list_sort_stable run hitems (by decide) hweak
  obtain ⟨items, hshows, hperm, hsorted, hfilter⟩ := hall r w' hsort
  refine ⟨w, w', r, items, run, hsort, hshows, hperm, hsorted.imp fun h => ?_, ?_⟩
  · rw [hf] at h
    omega
  · have heq : levels firstOrder (1, 0) = fun x : Nat × Nat => x.1 == 1 := by
      funext x
      rw [Bool.eq_iff_iff]
      simp only [levels, hf, Bool.and_eq_true, decide_eq_true_eq, beq_iff_eq]
      omega
    rw [← heq, hfilter, heq]
    rfl

end Pdsh.LinkedList
