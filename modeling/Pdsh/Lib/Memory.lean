import Mathlib.Data.List.Basic
import Mathlib.Tactic

/-!
# A buffer as memory

A function that writes through a pointer is modelled on the bytes from the
pointer on, without a bound: what the size of the buffer allows is a matter of
what the function writes. `Prints m off s m'` says what a writer that appends
does: it leaves what stands before `off` and puts `s` there. Such steps compose
(`Prints.trans`), which is how a loop that fills a buffer is read. `Within a b m m'`
says where it wrote at all.
-/

namespace Lib.Memory

/-- The bytes from the start of a buffer on. -/
abbrev Mem := Nat → Char

/-- One byte is written. -/
def setByte (m : Mem) (i : Nat) (c : Char) : Mem := fun j => if j = i then c else m j

/-- A text is written, without a terminator. -/
def write (m : Mem) (off : Nat) (s : List Char) : Mem :=
  fun j => if off ≤ j then (s[j - off]?).getD (m j) else m j

/-- The `len` bytes from `off` on. -/
def text (m : Mem) (off len : Nat) : List Char := (List.range len).map fun i => m (off + i)

@[simp] theorem length_text (m : Mem) (off len : Nat) : (text m off len).length = len := by
  simp [text]

theorem text_add (m : Mem) (off a b : Nat) :
    text m off (a + b) = text m off a ++ text m (off + a) b := by
  simp [text, List.range_add, Nat.add_assoc]

theorem text_congr {m m' : Mem} {off len : Nat} (h : ∀ i < len, m' (off + i) = m (off + i)) :
    text m' off len = text m off len := by
  refine List.map_congr_left fun i hi => ?_
  exact h i (List.mem_range.mp hi)

/-- `s` was put at `off`, and nothing before it was touched. -/
structure Prints (m : Mem) (off : Nat) (s : List Char) (m' : Mem) : Prop where
  before : ∀ i < off, m' i = m i
  text : text m' off s.length = s

variable {m m' m'' : Mem} {off i : Nat} {s t : List Char} {c : Char}

theorem Prints.refl (m : Mem) (off : Nat) : Prints m off [] m := ⟨fun _ _ => rfl, rfl⟩

theorem Prints.trans (h : Prints m off s m') (h' : Prints m' (off + s.length) t m'') :
    Prints m off (s ++ t) m'' := by
  refine ⟨fun i hi => ?_, ?_⟩
  · rw [h'.before i (by omega), h.before i hi]
  · rw [List.length_append, text_add, h'.text, text_congr fun i hi => h'.before _ (by omega), h.text]

theorem setByte_self : setByte m i c i = c := if_pos rfl

theorem setByte_ne {j : Nat} (h : j ≠ i) : setByte m i c j = m j := if_neg h

theorem prints_setByte : Prints m off [c] (setByte m off c) := by
  refine ⟨fun i hi => ?_, ?_⟩
  · rw [setByte, if_neg (by omega)]
  · simp [Memory.text, setByte]

theorem prints_write : Prints m off s (write m off s) := by
  refine ⟨fun i hi => ?_, ?_⟩
  · rw [write, if_neg (by omega)]
  · refine List.ext_getElem (by simp) fun i hi hi' => ?_
    rw [length_text] at hi
    simp [Memory.text, write, List.getElem?_eq_getElem hi]

/-- Bytes behind a text do not matter to it. -/
theorem Prints.set_after (h : Prints m off s m') (hi : off + s.length ≤ i) :
    Prints m off s (setByte m' i c) := by
  refine ⟨fun j hj => ?_, ?_⟩
  · rw [setByte, if_neg (by omega), h.before j hj]
  · refine (text_congr fun j hj => ?_).trans h.text
    rw [setByte, if_neg (by omega)]

/-- The first part of a text is there as well. -/
theorem Prints.left (h : Prints m off (s ++ t) m') : Prints m off s m' := by
  have htext := h.text
  rw [List.length_append, text_add] at htext
  exact ⟨h.before, List.append_inj_left htext (by simp)⟩

/-- The last byte of a text is replaced. -/
theorem Prints.set_last {d : Char} (h : Prints m off (s ++ [d]) m') :
    Prints m off (s ++ [c]) (setByte m' (off + s.length) c) :=
  h.left.trans prints_setByte

/-! ## Windows -/

/-- No byte was written but those from `a` on that are in front of `b`. -/
def Within (a b : Nat) (m m' : Mem) : Prop := ∀ i, i < a ∨ b ≤ i → m' i = m i

variable {a b len : Nat}

theorem Within.refl (a b : Nat) (m : Mem) : Within a b m m := fun _ _ => rfl

theorem Within.mono {a' b' : Nat} (h : Within a b m m') (ha : a' ≤ a) (hb : b ≤ b') : Within a' b' m m' :=
  fun i hi => h i (hi.imp (fun hlt => Nat.lt_of_lt_of_le hlt ha) fun hle => Nat.le_trans hb hle)

theorem Within.trans (h : Within a b m m') (h' : Within a b m' m'') : Within a b m m'' := by
  intro i hi
  rw [h' i hi, h i hi]

theorem Within.setByte (h : Within a b m m') (ha : a ≤ i) (hb : i < b) : Within a b m (setByte m' i c) := by
  intro j hj
  rw [Memory.setByte, if_neg (by omega), h j hj]

theorem Within.write (h : Within a b m m') (ha : a ≤ off) (hb : off + s.length ≤ b) :
    Within a b m (write m' off s) := by
  intro j hj
  rw [← h j hj, Memory.write]
  split
  · rw [List.getElem?_eq_none (by omega), Option.getD_none]
  · rfl

end Lib.Memory
