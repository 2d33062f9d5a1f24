import Mathlib.Data.List.Basic
import Mathlib.Data.List.InsertIdx
import Mathlib.Data.List.Perm.Basic
import Mathlib.Tactic

/-!
# Lists with bookmarks

A bookmark is a place in a list that others may change. It stands between two items, and may
hold the item it passed last: that is the one a removal through the bookmark takes out.
`inserted` and `erased` say where it stands when an item has been inserted or erased anywhere in
the list.

* `Marked`: a list with its bookmarks, all of them within its bounds;
* `drop_insertIdx_inserted`, `drop_eraseIdx_erased`: what lies ahead of a bookmark changes only by
  what is done ahead of it;
* `Walked`: so a walk to the end passes what was there and what was put ahead of it, but for what was
  taken out ahead of it.
-/

namespace Lib

variable {ι α β γ : Type}

/-- A place in a list. -/
structure Bookmark where
  /-- the items in front of it, without the one it holds -/
  passed : Nat
  held : Bool
deriving DecidableEq, Repr

namespace Bookmark

variable {b : Bookmark} {k n : Nat} {xs : List α} {x : α}

def start : Bookmark := ⟨0, false⟩

/-- The position of the item that comes next. -/
def ahead (b : Bookmark) : Nat := if b.held then b.passed + 1 else b.passed

/-- It stands in a list of `n` items. -/
def Fits (b : Bookmark) (n : Nat) : Prop := b.ahead ≤ n

/-- One item further in a list of `n` items; at the end it lets go of what it held. -/
def advanced (n : Nat) (b : Bookmark) : Bookmark := ⟨b.ahead, decide (b.ahead < n)⟩

/-- An item was inserted at position `k`: behind the bookmark when it stands there. -/
def inserted (k : Nat) (b : Bookmark) : Bookmark :=
  if k ≤ b.passed then ⟨b.passed + 1, b.held⟩ else b

/-- The item at position `k` was erased: a bookmark next to it holds nothing any more. -/
def erased (k : Nat) (b : Bookmark) : Bookmark :=
  if b.ahead = k ∨ b.passed = k then ⟨k, false⟩
  else if k < b.passed then ⟨b.passed - 1, b.held⟩
  else b

theorem passed_le_ahead : b.passed ≤ b.ahead := by
  rw [ahead]
  split <;> omega

theorem ahead_le : b.ahead ≤ b.passed + 1 := by
  rw [ahead]
  split <;> omega

@[simp] theorem ahead_start : start.ahead = 0 := rfl

theorem ahead_advanced (h : b.Fits n) :
    (b.advanced n).ahead = if b.ahead < n then b.ahead + 1 else n := by
  have hle : b.ahead ≤ n := h
  by_cases hlt : b.ahead < n
  · rw [if_pos hlt, advanced, ahead, if_pos (decide_eq_true hlt)]
  · rw [if_neg hlt, advanced, ahead, if_neg (by simpa using hlt)]
    show b.ahead = n
    omega

theorem ahead_inserted : (b.inserted k).ahead = if k ≤ b.passed then b.ahead + 1 else b.ahead := by
  by_cases hk : k ≤ b.passed
  · rw [inserted, if_pos hk, if_pos hk]
    simp only [ahead]
    split <;> rfl
  · rw [inserted, if_neg hk, if_neg hk]

theorem ahead_erased : (b.erased k).ahead = if k < b.ahead then b.ahead - 1 else b.ahead := by
  have hlow := @passed_le_ahead b
  have hhigh := @ahead_le b
  -- next to it, behind it, or further ahead
  by_cases hnext : b.ahead = k ∨ b.passed = k
  · rw [erased, if_pos hnext]
    show k = _
    split <;> omega
  · rw [erased, if_neg hnext]
    by_cases hk : k < b.passed
    · rw [if_pos hk, if_pos (by omega)]
      simp only [ahead]
      split <;> omega
    · rw [if_neg hk, if_neg (by omega)]

theorem fits_start : start.Fits n := Nat.zero_le n

theorem Fits.advanced (h : b.Fits n) : (b.advanced n).Fits n := by
  have hle : b.ahead ≤ n := h
  rw [Fits, ahead_advanced h]
  split <;> omega

theorem Fits.inserted (h : b.Fits xs.length) (k : Nat) (x : α) :
    (b.inserted k).Fits (xs.insertIdx k x).length := by
  have hle : b.ahead ≤ xs.length := h
  have hlow := @passed_le_ahead b
  rw [Fits, ahead_inserted, List.length_insertIdx]
  split <;> split <;> omega

theorem Fits.erased (h : b.Fits xs.length) (k : Nat) : (b.erased k).Fits (xs.eraseIdx k).length := by
  have hle : b.ahead ≤ xs.length := h
  rw [Fits, ahead_erased, List.length_eraseIdx]
  split <;> split <;> omega

/-! ## What lies ahead -/

theorem drop_insertIdx_inserted (hk : k ≤ xs.length) :
    (xs.insertIdx k x).drop (b.inserted k).ahead =
      if k ≤ b.passed then xs.drop b.ahead else (xs.drop b.ahead).insertIdx (k - b.ahead) x := by
  have hlow := @passed_le_ahead b
  have hhigh := @ahead_le b
  rw [ahead_inserted]
  by_cases hpassed : k ≤ b.passed
  · rw [if_pos hpassed, if_pos hpassed]
    apply List.ext_getElem?
    intro i
    rw [List.getElem?_drop, List.getElem?_drop, List.getElem?_insertIdx_of_gt (by omega)]
    congr 1
    omega
  · rw [if_neg hpassed, if_neg hpassed]
    apply List.ext_getElem?
    intro i
    rw [List.getElem?_drop]
    rcases Nat.lt_trichotomy (b.ahead + i) k with hi | rfl | hi
    · rw [List.getElem?_insertIdx_of_lt hi, List.getElem?_insertIdx_of_lt (by omega),
        List.getElem?_drop]
    · rw [List.getElem?_insertIdx_self, Nat.add_sub_cancel_left, List.getElem?_insertIdx_self,
        List.length_drop, if_pos hk, if_pos (by omega)]
    · rw [List.getElem?_insertIdx_of_gt hi, List.getElem?_insertIdx_of_gt (by omega),
        List.getElem?_drop]
      congr 1
      omega

theorem drop_eraseIdx_erased :
    (xs.eraseIdx k).drop (b.erased k).ahead =
      if k < b.ahead then xs.drop b.ahead else (xs.drop b.ahead).eraseIdx (k - b.ahead) := by
  rw [ahead_erased]
  by_cases hk : k < b.ahead
  · rw [if_pos hk, if_pos hk]
    apply List.ext_getElem?
    intro i
    rw [List.getElem?_drop, List.getElem?_drop, List.getElem?_eraseIdx_of_ge (by omega)]
    congr 1
    omega
  · rw [if_neg hk, if_neg hk]
    apply List.ext_getElem?
    intro i
    simp only [List.getElem?_drop, List.getElem?_eraseIdx]
    by_cases hi : b.ahead + i < k
    · rw [if_pos hi, if_pos (by omega)]
    · rw [if_neg hi, if_neg (by omega)]
      congr 1

theorem drop_advanced (h : b.Fits xs.length) :
    xs.drop (b.advanced xs.length).ahead = (xs.drop b.ahead).tail := by
  have hle : b.ahead ≤ xs.length := h
  rw [ahead_advanced h, List.tail_drop]
  split
  · rfl
  · rw [List.drop_eq_nil_of_le le_rfl, List.drop_eq_nil_of_le (by omega)]

end Bookmark

/-! ## Tables by name -/

/-- The entry under `i` is changed. -/
def adjust [DecidableEq ι] (i : ι) (f : β → β) : List (ι × β) → List (ι × β)
  | [] => []
  | m :: l => if m.1 = i then (m.1, f m.2) :: l else m :: adjust i f l

/-- The entry under `i` goes away. -/
def discard [DecidableEq ι] (i : ι) : List (ι × β) → List (ι × β)
  | [] => []
  | m :: l => if m.1 = i then l else m :: discard i l

/-- Every entry is changed. -/
def transfer (f : β → γ) (l : List (ι × β)) : List (ι × γ) := l.map fun m => (m.1, f m.2)

section Tables

variable {l : List (ι × β)} {i j : ι} {f : β → β} {g : β → γ} {b : β}

@[simp] theorem transfer_cons {m : ι × β} : transfer g (m :: l) = (m.1, g m.2) :: transfer g l := rfl

theorem transfer_transfer {δ : Type} {h : γ → δ} : transfer h (transfer g l) = transfer (h ∘ g) l := by
  rw [transfer, transfer, transfer, List.map_map]
  rfl

theorem transfer_congr {g' : β → γ} (h : ∀ m ∈ l, g m.2 = g' m.2) : transfer g l = transfer g' l := by
  refine List.map_congr_left fun m hm => ?_
  rw [h m hm]

theorem mem_transfer {m : ι × γ} (h : m ∈ transfer g l) : ∃ m' ∈ l, m.2 = g m'.2 := by
  obtain ⟨m', hm', rfl⟩ := List.mem_map.mp h
  exact ⟨m', hm', rfl⟩

variable [DecidableEq ι]

@[simp] theorem lookup_transfer : (transfer g l).lookup i = (l.lookup i).map g := by
  induction l with
  | nil => rfl
  | cons m l ih =>
      rw [transfer, List.map_cons, List.lookup_cons, List.lookup_cons]
      cases i == m.1 with
      | true => rfl
      | false => exact ih

theorem lookup_mem (h : l.lookup i = some b) : (i, b) ∈ l := by
  obtain ⟨l₁, l₂, rfl, -⟩ := List.lookup_eq_some_iff.mp h
  exact List.mem_append_right _ List.mem_cons_self

theorem lookup_adjust_self : (adjust i f l).lookup i = (l.lookup i).map f := by
  induction l with
  | nil => rfl
  | cons m l ih =>
      rw [adjust]
      by_cases hm : m.1 = i
      · rw [if_pos hm, List.lookup_cons, List.lookup_cons, hm, beq_self_eq_true]
        rfl
      · have hne : (i == m.1) = false := beq_false_of_ne (Ne.symm hm)
        rw [if_neg hm, List.lookup_cons, List.lookup_cons, hne]
        exact ih

theorem lookup_adjust_ne (hij : j ≠ i) : (adjust i f l).lookup j = l.lookup j := by
  induction l with
  | nil => rfl
  | cons m l ih =>
      rw [adjust]
      by_cases hm : m.1 = i
      · rw [if_pos hm, List.lookup_cons, List.lookup_cons, beq_false_of_ne (hm ▸ hij)]
      · rw [if_neg hm, List.lookup_cons, List.lookup_cons, ih]

theorem lookup_discard_ne (hij : j ≠ i) : (discard i l).lookup j = l.lookup j := by
  induction l with
  | nil => rfl
  | cons m l ih =>
      rw [discard]
      by_cases hm : m.1 = i
      · rw [if_pos hm, List.lookup_cons, beq_false_of_ne (hm ▸ hij)]
      · rw [if_neg hm, List.lookup_cons, List.lookup_cons, ih]

/-- What is put under `i` for its entry `b` is what the changed entry turns into. -/
theorem transfer_adjust (h : l.lookup i = some b) :
    transfer g (adjust i f l) = adjust i (fun _ => g (f b)) (transfer g l) := by
  induction l with
  | nil => rfl
  | cons m l ih =>
      rw [List.lookup_cons] at h
      rw [adjust, transfer_cons, adjust]
      by_cases hm : m.1 = i
      · rw [hm, beq_self_eq_true] at h
        obtain rfl : m.2 = b := Option.some.inj h
        rw [if_pos hm, if_pos hm, transfer_cons]
      · rw [beq_false_of_ne (Ne.symm hm)] at h
        rw [if_neg hm, if_neg hm, transfer_cons, ih h]

theorem transfer_discard : transfer g (discard i l) = discard i (transfer g l) := by
  induction l with
  | nil => rfl
  | cons m l ih =>
      rw [discard, transfer_cons, discard]
      by_cases hm : m.1 = i
      · rw [if_pos hm, if_pos hm]
      · rw [if_neg hm, if_neg hm, transfer_cons, ih]

theorem mem_adjust {m : ι × β} (h : m ∈ adjust i f l) : m ∈ l ∨ ∃ m' ∈ l, m.2 = f m'.2 := by
  induction l with
  | nil => exact absurd h List.not_mem_nil
  | cons a l ih =>
      rw [adjust] at h
      split at h
      · rcases List.mem_cons.mp h with rfl | hm
        · exact .inr ⟨a, List.mem_cons_self, rfl⟩
        · exact .inl (List.mem_cons_of_mem _ hm)
      · rcases List.mem_cons.mp h with rfl | hm
        · exact .inl List.mem_cons_self
        · rcases ih hm with hl | ⟨m', hm', heq⟩
          · exact .inl (List.mem_cons_of_mem _ hl)
          · exact .inr ⟨m', List.mem_cons_of_mem _ hm', heq⟩

theorem mem_of_mem_discard {m : ι × β} (h : m ∈ discard i l) : m ∈ l := by
  induction l with
  | nil => exact h
  | cons a l ih =>
      rw [discard] at h
      split at h
      · exact List.mem_cons_of_mem _ h
      · rcases List.mem_cons.mp h with rfl | hm
        · exact List.mem_cons_self
        · exact List.mem_cons_of_mem _ (ih hm)

end Tables

/-! ## Lists with their bookmarks -/

/-- A list and the bookmarks in it, under their names. -/
structure Marked (ι α : Type) where
  items : List α
  marks : List (ι × Bookmark)
  fits : ∀ m ∈ marks, m.2.Fits items.length

namespace Marked

variable {m : Marked ι α} {k : Nat} {x : α}

def empty : Marked ι α := ⟨[], [], fun _ h => absurd h List.not_mem_nil⟩

def insertAt (k : Nat) (x : α) (m : Marked ι α) : Marked ι α where
  items := m.items.insertIdx k x
  marks := transfer (Bookmark.inserted k) m.marks
  fits _ h := by
    obtain ⟨m', hm', heq⟩ := mem_transfer h
    rw [heq]
    exact (m.fits _ hm').inserted k x

def eraseAt (k : Nat) (m : Marked ι α) : Marked ι α where
  items := m.items.eraseIdx k
  marks := transfer (Bookmark.erased k) m.marks
  fits _ h := by
    obtain ⟨m', hm', heq⟩ := mem_transfer h
    rw [heq]
    exact (m.fits _ hm').erased k

/-- The items are put into another order, and every bookmark in front of them. -/
def rearrange (ys : List α) (m : Marked ι α) : Marked ι α where
  items := ys
  marks := transfer (fun _ => Bookmark.start) m.marks
  fits _ h := by
    obtain ⟨m', -, heq⟩ := mem_transfer h
    rw [heq]
    exact Bookmark.fits_start

/-- The items that meet `f`, of those from position `k` on, are erased one after the other. -/
def purge (f : α → Bool) : List α → Nat → Marked ι α → Marked ι α
  | [], _, m => m
  | x :: xs, k, m => if f x then purge f xs k (m.eraseAt k) else purge f xs (k + 1) m

/-- A new bookmark in front of the list. -/
def open_ (i : ι) (m : Marked ι α) : Marked ι α where
  items := m.items
  marks := (i, Bookmark.start) :: m.marks
  fits _ h := by
    rcases List.mem_cons.mp h with rfl | hm
    · exact Bookmark.fits_start
    · exact m.fits _ hm

variable [DecidableEq ι]

def close (i : ι) (m : Marked ι α) : Marked ι α where
  items := m.items
  marks := discard i m.marks
  fits _ h := m.fits _ (mem_of_mem_discard h)

def advance (i : ι) (m : Marked ι α) : Marked ι α where
  items := m.items
  marks := adjust i (Bookmark.advanced m.items.length) m.marks
  fits _ h := by
    rcases mem_adjust h with hm | ⟨m', hm', heq⟩
    · exact m.fits _ hm
    · rw [heq]
      exact (m.fits _ hm').advanced

def rewind (i : ι) (m : Marked ι α) : Marked ι α where
  items := m.items
  marks := adjust i (fun _ => Bookmark.start) m.marks
  fits _ h := by
    rcases mem_adjust h with hm | ⟨m', -, heq⟩
    · exact m.fits _ hm
    · rw [heq]
      exact Bookmark.fits_start

/-- The bookmark under a name. -/
def mark (i : ι) (m : Marked ι α) : Option Bookmark := m.marks.lookup i

/-- What comes next at a bookmark, and then. -/
def rest (i : ι) (m : Marked ι α) : List α :=
  match m.mark i with
  | some b => m.items.drop b.ahead
  | none => []

theorem fits_mark {b : Bookmark} {i : ι} (h : m.mark i = some b) : b.Fits m.items.length :=
  m.fits _ (lookup_mem h)

variable {i j : ι}

theorem rest_of_mark {b : Bookmark} (h : m.mark i = some b) : m.rest i = m.items.drop b.ahead := by
  rw [rest, h]

theorem rest_insertAt (hk : k ≤ m.items.length) : (m.insertAt k x).rest i = m.rest i ∨
    ∃ k' ≤ (m.rest i).length, (m.insertAt k x).rest i = (m.rest i).insertIdx k' x := by
  have hmark : (m.insertAt k x).mark i = (m.mark i).map (Bookmark.inserted k) := lookup_transfer
  cases hb : m.mark i with
  | none =>
      left
      rw [rest, hmark, rest, hb]
      rfl
  | some b =>
      rw [hb] at hmark
      have hrest : (m.insertAt k x).rest i = (m.items.insertIdx k x).drop (b.inserted k).ahead :=
        rest_of_mark hmark
      rw [Bookmark.drop_insertIdx_inserted hk, ← rest_of_mark hb] at hrest
      split at hrest
      · exact .inl hrest
      · refine .inr ⟨k - b.ahead, ?_, hrest⟩
        rw [rest_of_mark hb, List.length_drop]
        omega

theorem rest_eraseAt_of_mark {b : Bookmark} (hb : m.mark i = some b) :
    (m.eraseAt k).mark i = some (b.erased k) ∧
      (m.eraseAt k).rest i = if k < b.ahead then m.rest i else (m.rest i).eraseIdx (k - b.ahead) := by
  have hmark : (m.eraseAt k).mark i = some (b.erased k) := by
    have hall : (m.eraseAt k).mark i = (m.mark i).map (Bookmark.erased k) := lookup_transfer
    rw [hall, hb]
    rfl
  refine ⟨hmark, ?_⟩
  rw [rest_of_mark hmark, rest_of_mark hb]
  exact Bookmark.drop_eraseIdx_erased

theorem rest_eraseAt (hk : m.items[k]? = some x) : (m.eraseAt k).rest i = m.rest i ∨
    ∃ k', (m.rest i)[k']? = some x ∧ (m.eraseAt k).rest i = (m.rest i).eraseIdx k' := by
  cases hb : m.mark i with
  | none =>
      have hmark : (m.eraseAt k).mark i = (m.mark i).map (Bookmark.erased k) := lookup_transfer
      left
      rw [rest, hmark, rest, hb]
      rfl
  | some b =>
      have hrest := (rest_eraseAt_of_mark (k := k) hb).2
      split at hrest
      · exact .inl hrest
      · refine .inr ⟨k - b.ahead, ?_, hrest⟩
        rw [rest_of_mark hb, List.getElem?_drop, ← hk]
        congr 1
        omega

/-- What lies ahead loses what meets `f`, from the position on. -/
theorem rest_purge {b : Bookmark} {f : α → Bool} {xs : List α} (hb : m.mark i = some b)
    (h : m.items.drop k = xs) :
    (m.purge f xs k).rest i =
      (m.rest i).take (k - b.ahead) ++ ((m.rest i).drop (k - b.ahead)).filter (!f ·) := by
  induction xs generalizing m k b with
  | nil =>
      have hend := List.drop_eq_nil_iff.mp h
      have hlen : (m.rest i).length ≤ k - b.ahead := by
        rw [rest_of_mark hb, List.length_drop]
        omega
      rw [purge, List.take_of_length_le hlen, List.drop_eq_nil_of_le hlen, List.filter_nil, List.append_nil]
  | cons x xs ih =>
      have hk : k < m.items.length := by
        by_contra hge
        rw [List.drop_eq_nil_of_le (by omega)] at h
        cases h
      rw [List.drop_eq_getElem_cons hk] at h
      obtain ⟨hx, hxs⟩ := List.cons.inj h
      rw [purge]
      -- what stands at `k` is ahead of the bookmark, or behind it
      have hhead : b.ahead ≤ k → (m.rest i).drop (k - b.ahead) = x :: (m.rest i).drop (k + 1 - b.ahead) := by
        intro hle
        rw [rest_of_mark hb, List.drop_drop, List.drop_drop, Nat.add_sub_cancel' hle,
          Nat.add_sub_cancel' (by omega : b.ahead ≤ k + 1), List.drop_eq_getElem_cons hk, hx]
      cases hf : f x with
      | true =>
          have hdrop : (m.eraseAt k).items.drop k = xs := by
            rw [← hxs]
            apply List.ext_getElem?
            intro j
            rw [List.getElem?_drop, List.getElem?_drop]
            show (m.items.eraseIdx k)[k + j]? = _
            rw [List.getElem?_eraseIdx_of_ge (by omega)]
            congr 1
            omega
          obtain ⟨hmark, hrest⟩ := rest_eraseAt_of_mark (k := k) hb
          rw [if_pos rfl, ih hmark hdrop, hrest, Bookmark.ahead_erased]
          by_cases hlt : k < b.ahead
          · rw [if_pos hlt, if_pos hlt, Nat.sub_eq_zero_of_le (by omega : k ≤ b.ahead - 1),
              Nat.sub_eq_zero_of_le hlt.le]
          · have hle : b.ahead ≤ k := by omega
            rw [if_neg hlt, if_neg hlt, hhead hle, List.filter_cons_of_neg (by simp [hf]),
              Nat.succ_sub hle]
            congr 1
            · exact List.take_eraseIdx_eq_take_of_le _ _ _ le_rfl
            · congr 1
              apply List.ext_getElem?
              intro j
              rw [List.getElem?_drop, List.getElem?_drop, List.getElem?_eraseIdx_of_ge (by omega)]
              congr 1
              omega
      | false =>
          rw [if_neg Bool.false_ne_true, ih hb hxs]
          by_cases hlt : k < b.ahead
          · rw [Nat.sub_eq_zero_of_le hlt.le, Nat.sub_eq_zero_of_le hlt]
          · have hle : b.ahead ≤ k := by omega
            have hat : (m.rest i)[k - b.ahead]? = some x := by
              rw [← List.head?_drop, hhead hle, List.head?_cons]
            rw [hhead hle, List.filter_cons_of_pos (by simp [hf]), Nat.succ_sub hle, List.take_add_one, hat,
              Option.toList_some, List.append_assoc]
            rfl

theorem rest_advance_self : (m.advance i).rest i = (m.rest i).tail := by
  have hmark : (m.advance i).mark i = (m.mark i).map (Bookmark.advanced m.items.length) :=
    lookup_adjust_self
  cases hb : m.mark i with
  | none =>
      rw [rest, hmark, rest, hb]
      rfl
  | some b =>
      rw [hb] at hmark
      rw [rest_of_mark hmark, rest_of_mark hb]
      exact Bookmark.drop_advanced (fits_mark hb)

theorem rest_congr {m' : Marked ι α} (hitems : m'.items = m.items) (hmark : m'.mark i = m.mark i) :
    m'.rest i = m.rest i := by
  rw [rest, rest, hitems, hmark]

theorem rest_advance_ne (h : i ≠ j) : (m.advance j).rest i = m.rest i :=
  rest_congr rfl (lookup_adjust_ne h)

theorem rest_rewind_ne (h : i ≠ j) : (m.rewind j).rest i = m.rest i :=
  rest_congr rfl (lookup_adjust_ne h)

theorem rest_close_ne (h : i ≠ j) : (m.close j).rest i = m.rest i :=
  rest_congr rfl (lookup_discard_ne h)

theorem rest_open_ne (h : i ≠ j) : (m.open_ j).rest i = m.rest i := by
  refine rest_congr rfl ?_
  rw [mark, open_, List.lookup_cons, beq_false_of_ne h]
  rfl

end Marked

/-! ## Walks -/

/-- A walk over `xs` has passed `seen` and has `left` to go; `gained` was put ahead of it on its way,
and `lost` taken out. -/
inductive Walked (xs : List α) : (seen left gained lost : List α) → Prop where
  | start : Walked xs [] xs [] []
  | pass {seen left gained lost : List α} {x : α} (walk : Walked xs seen (x :: left) gained lost) :
      Walked xs (seen ++ [x]) left gained lost
  | gain {seen left gained lost : List α} {k : Nat} {x : α} (walk : Walked xs seen left gained lost)
      (hk : k ≤ left.length) : Walked xs seen (left.insertIdx k x) (gained ++ [x]) lost
  | lose {seen left gained lost : List α} {k : Nat} {x : α} (walk : Walked xs seen left gained lost)
      (hk : left[k]? = some x) : Walked xs seen (left.eraseIdx k) gained (lost ++ [x])

namespace Walked

open scoped List

variable {xs seen left gained lost : List α}

/-- All that meets `f` is lost. -/
theorem purge {f : α → Bool} (h : Walked xs seen left gained lost) :
    Walked xs seen (left.filter (!f ·)) gained (lost ++ left.filter f) := by
  have hall : ∀ (rest pre lost : List α), Walked xs seen (pre ++ rest) gained lost →
      Walked xs seen (pre ++ rest.filter (!f ·)) gained (lost ++ rest.filter f) := by
    intro rest
    induction rest with
    | nil =>
        intro pre lost hpre
        simpa using hpre
    | cons x rest ih =>
        intro pre lost hpre
        cases hf : f x with
        | true =>
            have hlose := hpre.lose (k := pre.length) (x := x) (by simp)
            rw [List.eraseIdx_append_of_length_le le_rfl, Nat.sub_self, List.eraseIdx_cons_zero] at hlose
            have hrest := ih pre _ hlose
            rw [List.filter_cons_of_neg (by simp [hf]), List.filter_cons_of_pos hf]
            simpa using hrest
        | false =>
            have hrest := ih (pre ++ [x]) lost (by simpa using hpre)
            rw [List.filter_cons_of_pos (by simp [hf]), List.filter_cons_of_neg (by simp [hf])]
            simpa using hrest
  exact hall left [] lost h

/-- Everything is passed once, ahead, or lost. -/
theorem perm (h : Walked xs seen left gained lost) : (xs ++ gained).Perm (seen ++ left ++ lost) := by
  induction h with
  | start => simp
  | pass _ ih => simpa using ih
  | @gain seen left gained lost k x _ hk ih =>
      rw [← List.append_assoc]
      have hin : (left.insertIdx k x).Perm (x :: left) := List.perm_insertIdx x left hk
      calc xs ++ gained ++ [x]
        _ ~ x :: (xs ++ gained) := List.perm_append_singleton _ _
        _ ~ x :: (seen ++ left ++ lost) := ih.cons x
        _ ~ seen ++ (x :: left) ++ lost := by simp [List.perm_middle.symm]
        _ ~ seen ++ left.insertIdx k x ++ lost := (hin.symm.append_left seen).append_right lost
  | @lose seen left gained lost k x _ hk ih =>
      obtain ⟨hlt, rfl⟩ := List.getElem?_eq_some_iff.mp hk
      have hout : left.Perm (left[k] :: left.eraseIdx k) :=
        (List.getElem_cons_eraseIdx_perm hlt).symm
      calc xs ++ gained
        _ ~ seen ++ left ++ lost := ih
        _ ~ seen ++ (left[k] :: left.eraseIdx k) ++ lost :=
          (hout.append_left seen).append_right lost
        _ ~ seen ++ left.eraseIdx k ++ (lost ++ [left[k]]) := by
          simp only [List.append_assoc]
          refine List.Perm.append_left seen ?_
          rw [List.cons_append, ← List.append_assoc]
          exact (List.perm_append_singleton _ _).symm

/-- With nothing gained, what is passed and ahead is in the order of the list. -/
theorem sublist (h : Walked xs seen left gained lost) (hnone : gained = []) :
    (seen ++ left).Sublist xs := by
  induction h with
  | start => exact List.Sublist.refl _
  | pass _ ih => simpa using ih hnone
  | gain => simp at hnone
  | lose _ _ ih => exact ((List.eraseIdx_sublist _ _).append_left _).trans (ih hnone)

/-- With nothing lost, the list is passed in its order. -/
theorem whole (h : Walked xs seen left gained lost) (hnone : lost = []) :
    xs.Sublist (seen ++ left) := by
  induction h with
  | start => exact List.Sublist.refl _
  | pass _ ih => simpa using ih hnone
  | gain _ _ ih => exact (ih hnone).trans ((List.sublist_insertIdx _ _ _).append_left _)
  | lose => simp at hnone

end Walked

end Lib
