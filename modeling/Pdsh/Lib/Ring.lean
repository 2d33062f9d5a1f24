import Mathlib.Data.List.DropRight
import Mathlib.Logic.Function.Basic
import Mathlib.Tactic

/-!
# Rings in memory

A ring of `M` slots holds the last `M` values of an unbounded sequence: the value at
position `p` lies in slot `p % M`. Positions are integers, so that a window is named by
its end as well as by its start. `slice` reads a window of the sequence, `store` appends to
it. A memory is a function from indices; `block` and `blit` are what lies in it, without
wrapping.

* `slice_store`: what is stored pushes the oldest values out of a window;
* `slice_eq_block`, `store_eq_blit`: a window that does not reach the end of the ring is
  a block of the memory.
-/

namespace Lib.Ring

variable {α : Type} {d d' : Int → α} {M p i : Int} {n : Nat}

/-- The `n` values from index `i` on. -/
def block (d : Int → α) (i : Int) : Nat → List α
  | 0 => []
  | n + 1 => d i :: block d (i + 1) n

/-- Overwrite the values from index `i` on. -/
def blit (d : Int → α) (i : Int) : List α → Int → α
  | [] => d
  | b :: bs => blit (Function.update d i b) (i + 1) bs

/-- The `n` values from position `p` of the ring on. -/
def slice (d : Int → α) (M p : Int) : Nat → List α
  | 0 => []
  | n + 1 => d (p % M) :: slice d M (p + 1) n

/-- Put values at the positions from `p` on. -/
def store (d : Int → α) (M p : Int) : List α → Int → α
  | [] => d
  | b :: bs => store (Function.update d (p % M) b) M (p + 1) bs

/-! ## Blocks -/

@[simp] theorem length_block (d : Int → α) (i : Int) (n : Nat) : (block d i n).length = n := by
  induction n generalizing i with
  | zero => rfl
  | succ n ih => simp [block, ih]

theorem block_add (d : Int → α) (i : Int) (m n : Nat) :
    block d i (m + n) = block d i m ++ block d (i + m) n := by
  induction m generalizing i with
  | zero => simp [block]
  | succ m ih =>
      rw [Nat.succ_add, block, block, ih, List.cons_append]
      congr 3
      push_cast
      ring

theorem block_congr (h : ∀ k : Int, i ≤ k → k < i + n → d k = d' k) :
    block d i n = block d' i n := by
  induction n generalizing i with
  | zero => rfl
  | succ n ih =>
      rw [block, block, h i le_rfl (by omega)]
      rw [ih fun k hk hlt => h k (by omega) (by omega)]

/-- Only the indices that are written change. -/
theorem blit_outside {bs : List α} {k : Int} (hk : k < i ∨ i + bs.length ≤ k) :
    blit d i bs k = d k := by
  induction bs generalizing d i with
  | nil => rfl
  | cons b bs ih =>
      simp only [List.length_cons] at hk
      rw [blit, ih (by omega), Function.update_of_ne (by omega)]

@[simp] theorem block_blit_self (d : Int → α) (i : Int) (bs : List α) :
    block (blit d i bs) i bs.length = bs := by
  induction bs generalizing d i with
  | nil => rfl
  | cons b bs ih =>
      rw [List.length_cons, block, blit, ih, blit_outside (by omega), Function.update_self]

theorem block_blit_of_disjoint {j : Int} {bs : List α} (h : j + n ≤ i ∨ i + bs.length ≤ j) :
    block (blit d i bs) j n = block d j n :=
  block_congr fun k hk hlt => blit_outside (by omega)

/-! ## Windows -/

@[simp] theorem length_slice (d : Int → α) (M p : Int) (n : Nat) : (slice d M p n).length = n := by
  induction n generalizing p with
  | zero => rfl
  | succ n ih => simp [slice, ih]

/-- A window is the same from any position of the same slot. -/
theorem slice_emod (d : Int → α) (M p : Int) (n : Nat) : slice d M (p % M) n = slice d M p n := by
  induction n generalizing p with
  | zero => rfl
  | succ n ih =>
      rw [slice, slice, Int.emod_emod, ← ih (p % M + 1), ← ih (p + 1), Int.emod_add_emod]

theorem slice_add (d : Int → α) (M p : Int) (m n : Nat) :
    slice d M p (m + n) = slice d M p m ++ slice d M (p + m) n := by
  induction m generalizing p with
  | zero => simp [slice]
  | succ m ih =>
      rw [Nat.succ_add, slice, slice, ih, List.cons_append]
      congr 3
      push_cast
      ring

theorem take_slice {m : Nat} (h : m ≤ n) : (slice d M p n).take m = slice d M p m := by
  obtain ⟨k, rfl⟩ := Nat.exists_eq_add_of_le h
  rw [slice_add, List.take_left' (length_slice ..)]

theorem drop_slice {m : Nat} (h : m ≤ n) : (slice d M p n).drop m = slice d M (p + m) (n - m) := by
  obtain ⟨k, rfl⟩ := Nat.exists_eq_add_of_le h
  rw [slice_add, List.drop_left' (length_slice ..), Nat.add_sub_cancel_left]

theorem slice_congr (h : ∀ k : Int, p ≤ k → k < p + n → d (k % M) = d' (k % M)) :
    slice d M p n = slice d' M p n := by
  induction n generalizing p with
  | zero => rfl
  | succ n ih =>
      rw [slice, slice, h p le_rfl (by omega)]
      rw [ih fun k hk hlt => h k (by omega) (by omega)]

/-- Two positions of one slot are a whole ring apart. -/
theorem eq_of_emod_eq {q : Int} (h : p % M = q % M) (hlt : |p - q| < M) : p = q := by
  have hdvd : M ∣ p - q := Int.ModEq.dvd (Int.ModEq.symm h)
  have hzero := Int.eq_zero_of_abs_lt_dvd hdvd hlt
  omega

/-- A window of the ring that does not reach its end. -/
theorem slice_eq_block (hi : 0 ≤ i) (hle : i + n ≤ M) : slice d M i n = block d i n := by
  induction n generalizing i with
  | zero => rfl
  | succ n ih =>
      rw [slice, block, Int.emod_eq_of_lt hi (by omega), ih (by omega) (by omega)]

/-! ## Storing -/

/-- One value is put in: a window before it moves on by one. -/
theorem slice_update {b : α} (hn : n ≤ M) (hM : 0 < M) :
    slice (Function.update d (p % M) b) M (p + 1 - n) n = (slice d M (p - n) n ++ [b]).drop 1 := by
  cases n with
  | zero => simp [slice]
  | succ k =>
      have hwindow : slice (Function.update d (p % M) b) M (p - k) k = slice d M (p - k) k := by
        refine slice_congr fun q hq hlt => Function.update_of_ne (fun h => ?_) _ _
        have := eq_of_emod_eq h (by rw [abs_lt]; omega)
        omega
      have hold : slice d M (p - (k + 1 : Nat)) (k + 1) =
          d ((p - (k + 1 : Nat)) % M) :: slice d M (p - k) k := by
        rw [slice]
        congr 2
        push_cast
        ring
      have hstart : p + 1 - ((k + 1 : Nat) : Int) = p - k := by
        push_cast
        ring
      rw [hold, hstart, slice_add, hwindow, slice]
      simp [slice]

theorem rtake_append_of_le {xs ys : List α} {k : Nat} (h : k ≤ ys.length) :
    (xs ++ ys).rtake k = ys.rtake k := by
  rw [List.rtake, List.rtake, List.length_append, List.drop_append, List.drop_eq_nil_of_le (by omega),
    List.nil_append]
  congr 1
  omega

theorem rtake_of_length_le {xs : List α} {k : Nat} (h : xs.length ≤ k) : xs.rtake k = xs := by
  rw [List.rtake, Nat.sub_eq_zero_of_le h, List.drop_zero]

theorem length_rtake (xs : List α) (k : Nat) : (xs.rtake k).length = min k xs.length := by
  rw [List.rtake, List.length_drop]
  omega

theorem rtake_append {xs ys : List α} {k : Nat} :
    (xs ++ ys).rtake k = xs.rtake (k - ys.length) ++ ys.rtake k := by
  rw [List.rtake, List.rtake, List.rtake, List.length_append, List.drop_append]
  have hfront : xs.drop (xs.length + ys.length - k) = xs.drop (xs.length - (k - ys.length)) := by
    rcases le_total ys.length k with hle | hge
    · rw [show xs.length + ys.length - k = xs.length - (k - ys.length) by omega]
    · rw [List.drop_eq_nil_of_le (by omega), List.drop_eq_nil_of_le (by omega)]
  rw [hfront, show xs.length + ys.length - k - xs.length = ys.length - k by omega]

theorem rtake_rtake {xs : List α} {m k : Nat} : (xs.rtake m).rtake k = xs.rtake (min m k) := by
  rw [List.rtake, List.rtake, List.rtake, List.length_drop, List.drop_drop]
  congr 1
  omega

/-- Values that are dropped early are missing only from a window that would still reach them. -/
theorem rtake_rtake_append {xs ys : List α} {m k : Nat} (h : xs.length ≤ m ∨ k ≤ m + ys.length) :
    (xs.rtake m ++ ys).rtake k = (xs ++ ys).rtake k := by
  rcases h with hall | hshort
  · rw [rtake_of_length_le hall]
  · rw [rtake_append, rtake_append, rtake_rtake, Nat.min_eq_right (by omega)]

theorem rtake_append_right {xs ys : List α} {k : Nat} :
    (xs.rtake k ++ ys).rtake k = (xs ++ ys).rtake k :=
  rtake_rtake_append (.inr (Nat.le_add_right k _))

/-- A window that holds anything ends where the list does. -/
theorem getLast?_rtake {xs : List α} {k : Nat} (hk : 0 < k) : (xs.rtake k).getLast? = xs.getLast? := by
  rw [List.rtake, List.getLast?_drop]
  split
  · rename_i hle
    have hnil : xs = [] := List.length_eq_zero_iff.mp (by omega)
    rw [hnil, List.getLast?_nil]
  · rfl

/-- What is stored pushes the oldest values out of a window before it. -/
theorem slice_store (d : Int → α) (p : Int) (bs : List α) (hn : n ≤ M) (hM : 0 < M) :
    slice (store d M p bs) M (p + bs.length - n) n = (slice d M (p - n) n ++ bs).rtake n := by
  induction bs generalizing d p with
  | nil => simp [store, List.rtake]
  | cons b bs ih =>
      have hend : p + ((b :: bs).length : Int) = p + 1 + bs.length := by
        rw [List.length_cons]
        push_cast
        ring
      have hone : (slice d M (p - n) n ++ [b]).drop 1 = (slice d M (p - n) n ++ [b]).rtake n := by
        rw [List.rtake, List.length_append, length_slice, List.length_singleton]
        congr 1
        omega
      rw [store, hend, ih, slice_update hn hM, hone, rtake_append_right, List.append_assoc]
      rfl

@[simp] theorem store_emod (d : Int → α) (M p : Int) (bs : List α) :
    store d M (p % M) bs = store d M p bs := by
  induction bs generalizing d p with
  | nil => rfl
  | cons b bs ih =>
      rw [store, store, Int.emod_emod, ← ih _ (p % M + 1), ← ih _ (p + 1), Int.emod_add_emod]

theorem store_append (d : Int → α) (M p : Int) (as bs : List α) :
    store d M p (as ++ bs) = store (store d M p as) M (p + as.length) bs := by
  induction as generalizing d p with
  | nil => simp [store]
  | cons a as ih =>
      rw [List.cons_append, store, store, ih, List.length_cons]
      congr 1
      push_cast
      ring

/-- Nothing outside the ring is written. -/
theorem store_outside {bs : List α} {k : Int} (hM : 0 < M) (hk : k < 0 ∨ M ≤ k) :
    store d M p bs k = d k := by
  induction bs generalizing d p with
  | nil => rfl
  | cons b bs ih =>
      have hnonneg := Int.emod_nonneg p (show M ≠ 0 by omega)
      have hlt := Int.emod_lt_of_pos p hM
      rw [store, ih, Function.update_of_ne (by omega)]

/-- What is stored before the end of the ring is written as it stands. -/
theorem store_eq_blit {bs : List α} (hi : 0 ≤ i) (hle : i + bs.length ≤ M) :
    store d M i bs = blit d i bs := by
  induction bs generalizing d i with
  | nil => rfl
  | cons b bs ih =>
      rw [List.length_cons] at hle
      push_cast at hle
      rw [store, blit, Int.emod_eq_of_lt hi (by omega), ih (by omega) (by omega)]

end Lib.Ring
