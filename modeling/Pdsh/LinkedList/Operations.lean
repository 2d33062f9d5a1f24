import Pdsh.LinkedList.Sort

/-!
# The functions on a list that stands in memory

What each function does to `Represents`: a function without a loop always comes to its end; one with a
loop does when its fuel is more than the items of the list.
-/

namespace Pdsh.LinkedList

open Lib (Bookmark Marked adjust discard transfer)

variable {α : Type} {s s' : State α} {cells : List Nat} {items xs gone : List α} {k n fuel name : Nat}
  {x : α} {a : Marked Nat α} {b : Bookmark} {mem : Pool (ListNode α)} {f : α → Bool}

/-! ## Loops over nodes -/

theorem findLoop_spec (h : Chain s cells items) (hk : k ≤ items.length) :
    (findLoop s f fuel cells[k]? = none ∧ fuel ≤ items.length - k) ∨
      findLoop s f fuel cells[k]? = some ((items.drop k).find? f) := by
  induction fuel generalizing k with
  | zero => exact .inl ⟨rfl, Nat.zero_le _⟩
  | succ fuel ih =>
      rcases Nat.lt_or_eq_of_le hk with hlt | rfl
      · obtain ⟨p, hp, hnode⟩ := h.getElem? hlt
        rw [hp, findLoop, hnode, Option.bind_eq_bind, Option.bind_some, List.drop_eq_getElem_cons hlt,
          List.find?_cons]
        cases hf : f items[k] with
        | true => exact .inr rfl
        | false =>
            simp only [Bool.false_eq_true, ↓reduceIte]
            refine (ih hlt).imp (fun hnone => ⟨hnone.1, ?_⟩) fun hsome => hsome
            have hless := hnone.2
            omega
      · right
        rw [List.getElem?_eq_none h.length.le, List.drop_length]
        rfl

/-- What `list_for_each` counts, and what its function is called on. -/
def visit (f : List α → α → Int32) : List α → Int32 → List α → Int32 × List α
  | [], n, seen => (n, seen)
  | x :: xs, n, seen =>
      if f seen x < 0 then (-(n + 1), seen ++ [x]) else visit f xs (n + 1) (seen ++ [x])

theorem forEachLoop_spec {f : List α → α → Int32} (fuel : Nat) (n : Int32) (seen : List α) (h : Chain s cells items)
    (hk : k ≤ items.length) :
    (forEachLoop s f fuel cells[k]? n seen = none ∧ fuel ≤ items.length - k) ∨
      forEachLoop s f fuel cells[k]? n seen = some (visit f (items.drop k) n seen) := by
  induction fuel generalizing k n seen with
  | zero => exact .inl ⟨rfl, Nat.zero_le _⟩
  | succ fuel ih =>
      rcases Nat.lt_or_eq_of_le hk with hlt | rfl
      · obtain ⟨p, hp, hnode⟩ := h.getElem? hlt
        rw [hp, forEachLoop, hnode, Option.bind_eq_bind, Option.bind_some,
          List.drop_eq_getElem_cons hlt, visit]
        by_cases hf : f seen items[k] < 0
        · rw [if_pos hf, if_pos hf]
          exact .inr rfl
        · rw [if_neg hf, if_neg hf]
          refine (ih _ _ hlt).imp (fun hnone => ⟨hnone.1, ?_⟩) fun hsome => hsome
          have hless := hnone.2
          omega
      · right
        rw [List.getElem?_eq_none h.length.le, List.drop_length]
        rfl

theorem deleteLoop_spec (fuel : Nat) (n : Int32) (gone : List α) (h : Represents s cells a) (hk : k ≤ a.items.length)
    (hxs : a.items.drop k = xs) :
    (deleteLoop f fuel (slotAt cells k) n gone s = none ∧ fuel ≤ xs.length) ∨
      ∃ s' cells', deleteLoop f fuel (slotAt cells k) n gone s =
          some ((n + Int32.ofNat (xs.countP f), if s.list.fDel then gone ++ xs.filter f else gone), s') ∧
        Represents s' cells' (a.purge f xs k) ∧ Frame s.mem cells s'.mem cells' ∧
        s'.list.fDel = s.list.fDel := by
  induction fuel generalizing s cells a k xs n gone with
  | zero => exact .inl ⟨rfl, Nat.zero_le _⟩
  | succ fuel ih =>
      have hload := h.chain.loads k (h.chain.length ▸ hk)
      cases xs with
      | nil =>
          right
          refine ⟨s, cells, ?_, h, Frame.refl, rfl⟩
          have hend : cells.length ≤ k := h.chain.length ▸ List.drop_eq_nil_iff.mp hxs
          rw [deleteLoop, hload, List.getElem?_eq_none hend, List.filter_nil, List.append_nil, ite_self]
          show some ((n, gone), s) = some ((n + 0, gone), s)
          rw [Int32.add_zero]
      | cons x xs =>
          have hlt : k < a.items.length := by
            by_contra hge
            rw [List.drop_eq_nil_of_le (by omega)] at hxs
            cases hxs
          rw [List.drop_eq_getElem_cons hlt] at hxs
          obtain ⟨rfl, htail⟩ := List.cons.inj hxs
          obtain ⟨p, hp, hnode⟩ := h.chain.getElem? hlt
          rw [deleteLoop]
          simp only [hload, hp, hnode, Option.bind_eq_bind, Option.bind_some]
          rw [Marked.purge]
          cases hf : f a.items[k] with
          | true =>
              -- the slot stays, and now leads to the next item
              obtain ⟨s₁, hdestroy, hrep, hframe, hdel⟩ := listNodeDestroy_spec h hlt
              rw [if_pos rfl, if_pos rfl, hdestroy, Option.bind_some]
              have hle : k ≤ (a.eraseAt k).items.length := by
                show k ≤ (a.items.eraseIdx k).length
                rw [List.length_eraseIdx, if_pos hlt]
                omega
              have hrest : (a.eraseAt k).items.drop k = xs := by
                rw [← htail]
                apply List.ext_getElem?
                intro i
                rw [List.getElem?_drop, List.getElem?_drop]
                show (a.items.eraseIdx k)[k + i]? = _
                rw [List.getElem?_eraseIdx_of_ge (by omega)]
                congr 1
                omega
              have hslot : slotAt cells k = slotAt (cells.eraseIdx k) k :=
                (slotAt_eraseIdx_of_le le_rfl).symm
              dsimp only
              rw [hslot]
              rcases ih (n + 1) (if s₁.list.fDel then gone ++ [a.items[k]] else gone)
                hrep hle hrest with ⟨hnone, hless⟩ | ⟨s', cells', hsome, hrep', hframe', hdel'⟩
              · exact .inl ⟨hnone, by rw [List.length_cons]; omega⟩
              · refine .inr ⟨s', cells', ?_, hrep', hframe.trans hframe', hdel'.trans hdel⟩
                rw [hsome, hdel, List.countP_cons_of_pos hf, List.filter_cons_of_pos hf, Int32.ofNat_add,
                  Int32.add_assoc, Int32.add_comm 1]
                cases s.list.fDel with
                | true => simp
                | false => rfl
          | false =>
              rw [if_neg Bool.false_ne_true, if_neg Bool.false_ne_true, ← slotAt_succ hp,
                List.countP_cons_of_neg (by simp [hf]), List.filter_cons_of_neg (by simp [hf])]
              rcases ih n gone h hlt htail with ⟨hnone, hless⟩ | hsome
              · exact .inl ⟨hnone, by rw [List.length_cons]; omega⟩
              · exact .inr hsome

/-- Nodes linked one to the next, the last to none. -/
def Linked (m : Pool (ListNode α)) : List Nat → List α → Prop
  | [], [] => True
  | p :: ps, x :: xs => m.cells p = some ⟨x, ps[0]?⟩ ∧ Linked m ps xs
  | _, _ => False

theorem Linked.congr {m m' : Pool (ListNode α)} {ps : List Nat} (h : Linked m ps xs)
    (hsame : ∀ p ∈ ps, m'.cells p = m.cells p) : Linked m' ps xs := by
  induction ps generalizing xs with
  | nil =>
      cases xs with
      | nil => trivial
      | cons x xs => exact h.elim
  | cons p ps ih =>
      cases xs with
      | nil => exact h.elim
      | cons x xs =>
          refine ⟨?_, ih h.2 fun q hq => hsame q (List.mem_cons_of_mem _ hq)⟩
          rw [hsame p List.mem_cons_self]
          exact h.1

theorem Chain.linked (h : Chain s cells items) (hk : k ≤ items.length) :
    Linked s.mem (cells.drop k) (items.drop k) := by
  have hlen := h.length
  induction hn : items.length - k generalizing k with
  | zero =>
      rw [List.drop_eq_nil_of_le (by omega), List.drop_eq_nil_of_le (by omega)]
      trivial
  | succ n ih =>
      have hlt : k < items.length := by omega
      have hltc : k < cells.length := by omega
      obtain ⟨p, hp, hnode⟩ := h.getElem? hlt
      rw [List.getElem?_eq_getElem hltc] at hp
      rw [List.drop_eq_getElem_cons hlt, List.drop_eq_getElem_cons hltc, Option.some.inj hp]
      refine ⟨?_, ih hlt (by omega)⟩
      rw [List.getElem?_drop]
      exact hnode

theorem destroyLoop_spec (fuel : Nat) (gone : List α) {m : Pool (ListNode α)} {fDel : Bool} {ps : List Nat} (hok : m.Ok)
    (hnd : ps.Nodup) (h : Linked m ps xs) :
    (destroyLoop fDel fuel ps[0]? gone m = none ∧ fuel ≤ xs.length) ∨
      ∃ m', destroyLoop fDel fuel ps[0]? gone m = some (if fDel then gone ++ xs else gone, m') ∧
        m'.Ok ∧ (∀ q, q ∉ ps → m'.cells q = m.cells q) ∧ ∀ q ∈ ps, m'.cells q = none := by
  induction fuel generalizing ps xs gone m with
  | zero => exact .inl ⟨rfl, Nat.zero_le _⟩
  | succ fuel ih =>
      cases ps with
      | nil =>
          cases xs with
          | nil =>
              refine .inr ⟨m, ?_, hok, fun _ _ => rfl, fun _ hq => absurd hq List.not_mem_nil⟩
              rw [List.append_nil, ite_self]
              rfl
          | cons x xs => exact h.elim
      | cons p ps =>
          cases xs with
          | nil => exact h.elim
          | cons x xs =>
              obtain ⟨hp, hnd'⟩ := List.nodup_cons.mp hnd
              have hother : ∀ q, q ≠ p → (listFreeAux p m).cells q = m.cells q :=
                fun q hq => Function.update_of_ne hq ..
              have hok' : (listFreeAux p m).Ok := by
                have hnot : p ∉ m.free := by
                  intro hmem
                  have hidle := hok.idle p hmem
                  rw [h.1] at hidle
                  cases hidle
                refine ⟨fun q hq => ?_, List.nodup_cons.mpr ⟨hnot, hok.nodup⟩⟩
                rcases List.mem_cons.mp hq with rfl | hqf
                · exact Function.update_self ..
                · rw [hother q fun he => hnot (he ▸ hqf), hok.idle q hqf]
              have hlinked : Linked (listFreeAux p m) ps xs :=
                h.2.congr fun q hq => hother q fun he => hp (he ▸ hq)
              rw [List.getElem?_cons_zero, destroyLoop, h.1, Option.bind_eq_bind, Option.bind_some]
              rcases ih (if fDel then gone ++ [x] else gone) hok' hnd' hlinked with
                ⟨hnone, hless⟩ | ⟨m', hsome, hok'', hrest, hgone⟩
              · exact .inl ⟨hnone, by rw [List.length_cons]; omega⟩
              · refine .inr ⟨m', ?_, hok'', fun q hq => ?_, fun q hq => ?_⟩
                · rw [hsome]
                  cases fDel with
                  | true => simp
                  | false => rfl
                · rw [hrest q fun hmem => hq (List.mem_cons_of_mem _ hmem),
                    hother q fun he => hq (he ▸ List.mem_cons_self)]
                · rcases List.mem_cons.mp hq with rfl | hqs
                  · rw [hrest q hp]
                    exact Function.update_self ..
                  · exact hgone q hqs

theorem listDestroy_spec (fuel : Nat) (h : Represents s cells a) :
    (listDestroy fuel s = none ∧ fuel ≤ a.items.length) ∨
      ∃ mem, listDestroy fuel s = some (if s.list.fDel then a.items else [], mem) ∧ mem.Ok ∧
        Frame s.mem cells mem [] := by
  have hlinked := h.chain.linked (Nat.zero_le _)
  rw [List.drop_zero, List.drop_zero] at hlinked
  rw [listDestroy, h.chain.head]
  have hloop := @destroyLoop_spec _ _ fuel [] _ s.list.fDel _ h.pool h.chain.nodup hlinked
  rw [List.nil_append] at hloop
  refine hloop.imp_right ?_
  rintro ⟨mem, hsome, hok, hother, hgone⟩
  refine ⟨mem, hsome, hok, fun q n hq hn => ?_, fun q hq => absurd hq List.not_mem_nil, fun q _ hq => ?_⟩
  · rw [hother q hq, hn]
  · by_cases hmem : q ∈ cells
    · exact hgone q hmem
    · rw [hother q hmem, hq.resolve_left hmem]

/-! ## Iterators -/

theorem lookup_iNext (h : Represents s cells a) (hb : a.mark name = some b) :
    s.list.iNext.lookup name = some (itOf cells b) := by
  rw [h.iNext, Lib.lookup_transfer, show a.marks.lookup name = some b from hb, Option.map_some]

/-- Only the table of iterators has changed. -/
theorem Represents.of_iNext {iNext : List (Nat × ListIterator)} {a' : Marked Nat α}
    (h : Represents s cells a) (hitems : a'.items = a.items)
    (hmarks : iNext = transfer (itOf cells) a'.marks) :
    Represents { s with list.iNext := iNext } cells a' := by
  refine ⟨?_, h.tail, hmarks, ?_, h.pool⟩
  · rw [hitems]
    exact h.chain.congr rfl fun _ _ => rfl
  · rw [hitems]
    exact h.count

theorem listIteratorCreate_spec (h : Represents s cells a) :
    Represents (listIteratorCreate name s) cells (a.open_ name) := by
  refine h.of_iNext rfl ?_
  rw [Marked.open_, Lib.transfer_cons, h.iNext, h.chain.head]
  rfl

theorem listIteratorReset_spec (h : Represents s cells a) (hb : a.mark name = some b) :
    Represents (listIteratorReset name s) cells (a.rewind name) := by
  refine h.of_iNext rfl ?_
  rw [Marked.rewind, Lib.transfer_adjust hb, h.iNext, h.chain.head]
  rfl

theorem listIteratorDestroy_spec (h : Represents s cells a) :
    Represents (listIteratorDestroy name s) cells (a.close name) := by
  refine h.of_iNext rfl ?_
  rw [Marked.close, Lib.transfer_discard, h.iNext]

/-- An iterator that holds an item is one slot behind, and one that holds none is not. -/
theorem passed_of_held : (b.held = true ∧ b.ahead = b.passed + 1) ∨ (b.held = false ∧ b.ahead = b.passed) := by
  cases hheld : b.held with
  | true => exact .inl ⟨rfl, by simp [Bookmark.ahead, hheld]⟩
  | false => exact .inr ⟨rfl, by simp [Bookmark.ahead, hheld]⟩

theorem listNext_spec (h : Represents s cells a) (hb : a.mark name = some b) :
    ∃ s', listNext name s = some (a.items[b.ahead]?, s') ∧ Represents s' cells (a.advance name) ∧
      s'.mem = s.mem ∧ s'.list.fDel = s.list.fDel := by
  have hlen := h.chain.length
  have hfits : b.ahead ≤ a.items.length := Marked.fits_mark hb
  have hpassed := b.passed_le_ahead
  have hload : load s (itOf cells b).prev = some cells[b.passed]? := h.chain.loads _ (by omega)
  -- the iterator goes to the slot in front of the next item
  have hprev : ∀ go : Slot → Option (Option α × State α),
      (if cells[b.passed]? ≠ cells[b.ahead]? then (after s (itOf cells b).prev).bind go
        else go (itOf cells b).prev) = go (slotAt cells b.ahead) := by
    intro go
    rcases @passed_of_held b with ⟨-, hahead⟩ | ⟨-, hahead⟩
    · have hne : cells[b.passed]? ≠ cells[b.ahead]? := by
        rw [Ne, getElem?_inj h.chain.nodup (by omega) (by omega)]
        omega
      have hafter : after s (itOf cells b).prev = some (slotAt cells (b.passed + 1)) :=
        h.chain.after (by omega)
      rw [if_pos hne, hafter, Option.bind_some, hahead]
    · rw [if_neg (by rw [hahead, not_not])]
      show go (slotAt cells b.passed) = _
      rw [hahead]
  have hadvanced : itOf cells (b.advanced a.items.length) =
      ⟨cells[(b.advanced a.items.length).ahead]?, slotAt cells b.ahead⟩ := rfl
  rw [Bookmark.ahead_advanced hfits] at hadvanced
  let moved (pos : Option Nat) (prev : Slot) : State α :=
    { s with list.iNext := adjust name (fun _ => ⟨pos, prev⟩) s.list.iNext }
  rw [listNext, lookup_iNext h hb, Option.bind_eq_bind, Option.bind_some]
  rcases Nat.lt_or_eq_of_le hfits with hlt | heq
  · obtain ⟨p, hp, hnode⟩ := h.chain.getElem? hlt
    have hpos : (itOf cells b).pos = some p := hp
    rw [if_pos hlt] at hadvanced
    rw [hpos, List.getElem?_eq_getElem hlt]
    simp only [hnode, hload, Option.bind_eq_bind, Option.bind_some]
    have hgo := hprev fun prev => some (some a.items[b.ahead], moved cells[b.ahead + 1]? prev)
    rw [← hp, hgo]
    refine ⟨_, rfl, h.of_iNext rfl ?_, rfl, rfl⟩
    rw [Marked.advance, Lib.transfer_adjust hb, h.iNext, hadvanced]
  · have hnone : cells[b.ahead]? = none := List.getElem?_eq_none (by omega)
    have hpos : (itOf cells b).pos = none := hnone
    have hend : cells[a.items.length]? = none := List.getElem?_eq_none (by omega)
    rw [if_neg (by omega), hend] at hadvanced
    rw [hpos, List.getElem?_eq_none heq.ge]
    simp only [hload, Option.bind_eq_bind, Option.bind_some]
    have hgo := hprev fun prev => some (none, moved none prev)
    rw [hnone] at hgo
    rw [hgo]
    refine ⟨_, rfl, h.of_iNext rfl ?_, rfl, rfl⟩
    rw [Marked.advance, Lib.transfer_adjust hb, h.iNext, hadvanced]

theorem listRemove_spec (h : Represents s cells a) (hb : a.mark name = some b) :
    (b.held = false ∧ listRemove name s = some (none, s)) ∨
      b.held = true ∧ ∃ (hlt : b.passed < a.items.length) (s' : State α),
        listRemove name s = some (some a.items[b.passed], s') ∧
        Represents s' (cells.eraseIdx b.passed) (a.eraseAt b.passed) ∧
        Frame s.mem cells s'.mem (cells.eraseIdx b.passed) ∧ s'.list.fDel = s.list.fDel := by
  have hlen := h.chain.length
  have hfits : b.ahead ≤ a.items.length := Marked.fits_mark hb
  have hpassed := b.passed_le_ahead
  have hload : load s (itOf cells b).prev = some cells[b.passed]? := h.chain.loads _ (by omega)
  rw [listRemove, lookup_iNext h hb, Option.bind_eq_bind, Option.bind_some, hload, Option.bind_eq_bind,
    Option.bind_some]
  have hpos : (itOf cells b).pos = cells[b.ahead]? := rfl
  rcases @passed_of_held b with ⟨hheld, hahead⟩ | ⟨hheld, hahead⟩
  · right
    have hlt : b.passed < a.items.length := by omega
    have hne : cells[b.passed]? ≠ (itOf cells b).pos := by
      rw [hpos, Ne, getElem?_inj h.chain.nodup (by omega) (by omega)]
      omega
    rw [if_pos hne]
    exact ⟨hheld, hlt, listNodeDestroy_spec h hlt⟩
  · left
    rw [if_neg (by rw [hpos, hahead, not_not])]
    exact ⟨hheld, rfl⟩

/-- `list_delete` is `list_remove`, and what it takes out goes to `fDel`. -/
theorem listDelete_spec (h : Represents s cells a) (hb : a.mark name = some b) :
    (b.held = false ∧ listDelete name s = some ((0, []), s)) ∨
      b.held = true ∧ ∃ (hlt : b.passed < a.items.length) (s' : State α),
        listDelete name s = some ((1, if s.list.fDel then [a.items[b.passed]] else []), s') ∧
        Represents s' (cells.eraseIdx b.passed) (a.eraseAt b.passed) := by
  rcases listRemove_spec h hb with ⟨hheld, hnone⟩ | ⟨hheld, hlt, s', hsome, hrep, -, hdel⟩
  · left
    rw [listDelete, hnone]
    exact ⟨hheld, rfl⟩
  · right
    refine ⟨hheld, hlt, s', ?_, hrep⟩
    rw [listDelete, hsome, ← hdel]
    rfl

/-- `list_find` stops behind the next item that meets `f`, or at the end. -/
theorem listFind_spec (h : Represents s cells a) (hb : a.mark name = some b) :
    (listFind name f fuel s = none ∧ fuel ≤ (a.rest name).length) ∨
      ∃ s' a', listFind name f fuel s = some ((a.rest name).find? f, s') ∧ Represents s' cells a' ∧
        a'.items = a.items ∧ a'.rest name = ((a.rest name).dropWhile (!f ·)).tail := by
  induction fuel generalizing s a b with
  | zero => exact .inl ⟨rfl, Nat.zero_le _⟩
  | succ fuel ih =>
      obtain ⟨s₁, hnext, hrep, -, -⟩ := listNext_spec h hb
      have hrest : (a.advance name).rest name = (a.rest name).tail := Marked.rest_advance_self
      have hmark : (a.advance name).mark name = some (b.advanced a.items.length) := by
        rw [Marked.mark, Marked.advance, Lib.lookup_adjust_self, show a.marks.lookup name = some b from hb]
        rfl
      have hhead : a.items[b.ahead]? = (a.rest name).head? := by
        rw [Marked.rest_of_mark hb, List.head?_drop]
      rw [listFind, hnext, hhead, Option.bind_eq_bind, Option.bind_some]
      cases hcase : a.rest name with
      | nil =>
          rw [hcase] at hrest
          exact .inr ⟨s₁, _, rfl, hrep, rfl, hrest⟩
      | cons x xs =>
          rw [hcase] at hrest
          simp only [List.head?_cons, List.find?_cons, List.dropWhile_cons]
          cases hf : f x with
          | true => exact .inr ⟨s₁, _, rfl, hrep, rfl, hrest⟩
          | false =>
              have hgo := ih hrep hmark
              rw [hrest, List.tail_cons] at hgo
              exact hgo.imp (fun hnone => ⟨hnone.1, Nat.succ_le_succ hnone.2⟩) fun hsome => hsome

end Pdsh.LinkedList
