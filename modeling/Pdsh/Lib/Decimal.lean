import Mathlib.Data.List.DropRight
import Mathlib.Tactic

/-!
# Zero-padded decimal numerals

`pad w n` is the text a `%0*lu` conversion produces: the shortest decimal
numeral of `n`, filled up with leading zeros to at least `w` characters.
`value` reads a digit string back. The two facts everything else rests on:

* **reading** — `value_pad`: padding never changes the number;
* **writing** — `pad_value`: a digit string is the padding of its own value
  to its own length, so a digit string is determined by length and value.

Two field widths are told apart only by numbers that are narrower than one
of them (`pad_eq_pad_iff`), and once a number is too wide to see a
difference every larger one is too (`padding_eq_mono`).
-/

namespace Lib.Decimal

/-- How many digits the shortest decimal numeral of `n` has. -/
def numDigits (n : Nat) : Nat := (Nat.toDigits 10 n).length

/-- Zeros written in front of `n` in a field of width `w`. -/
def padding (w n : Nat) : Nat := w - numDigits n

/-- The text of `n` in a zero-filled field of minimal width `w`. -/
def pad (w n : Nat) : List Char := List.replicate (padding w n) '0' ++ Nat.toDigits 10 n

/-- The number a digit string denotes. -/
def value (s : List Char) : Nat := Nat.ofDigitChars 10 s 0

/-! ## Digit counts -/

theorem numDigits_pos (n : Nat) : 0 < numDigits n := Nat.length_toDigits_pos

theorem numDigits_le_iff {n k : Nat} (h : 0 < k) : numDigits n ≤ k ↔ n < 10 ^ k :=
  Nat.length_toDigits_le_iff (by decide) h

theorem numDigits_mono {m n : Nat} (h : m ≤ n) : numDigits m ≤ numDigits n := by
  rw [numDigits_le_iff (numDigits_pos n)]
  exact lt_of_le_of_lt h ((numDigits_le_iff (numDigits_pos n)).mp (Nat.le_refl _))

theorem numDigits_of_lt {n : Nat} (h : n < 10) : numDigits n = 1 := by
  simp [numDigits, Nat.toDigits_of_lt_base h]

theorem numDigits_of_ge {n : Nat} (h : 10 ≤ n) : numDigits n = numDigits (n / 10) + 1 := by
  simp [numDigits, Nat.toDigits_of_base_le (by decide : 1 < 10) h]

/-! ## Digit strings -/

theorem isDigit_toDigits {n : Nat} {c : Char} (h : c ∈ Nat.toDigits 10 n) : c.isDigit :=
  Nat.isDigit_of_mem_toDigits (by decide) (by decide) h

theorem isDigit_pad {w n : Nat} {c : Char} (h : c ∈ pad w n) : c.isDigit := by
  rcases List.mem_append.mp h with hz | hd
  · rw [List.eq_of_mem_replicate hz]
    decide
  · exact isDigit_toDigits hd

theorem value_append_singleton (s : List Char) (c : Char) :
    value (s ++ [c]) = 10 * value s + (c.toNat - '0'.toNat) := by
  simp [value, Nat.ofDigitChars_append, Nat.ofDigitChars_cons]

theorem value_append (s t : List Char) : value (s ++ t) = 10 ^ t.length * value s + value t := by
  rw [value, Nat.ofDigitChars_append, Nat.ofDigitChars_eq_ofDigitChars_zero]
  rfl

theorem digit_bounds {c : Char} (h : c.isDigit) : 48 ≤ c.toNat ∧ c.toNat ≤ 57 := by
  simp only [Char.isDigit, Bool.and_eq_true, decide_eq_true_eq] at h
  exact ⟨h.1, h.2⟩

theorem value_lt (s : List Char) (hd : ∀ c ∈ s, c.isDigit) : value s < 10 ^ s.length := by
  induction s using List.reverseRecOn with
  | nil => simp [value]
  | append_singleton s c ih =>
      have hs := ih (fun x hx => hd x (List.mem_append_left _ hx))
      have hc := digit_bounds (hd c (by simp))
      rw [value_append_singleton, List.length_append, List.length_singleton, Nat.pow_succ]
      have h48 : '0'.toNat = 48 := rfl
      omega

/-- A digit string is determined by its length and its value. -/
theorem eq_of_value_eq {s t : List Char} (hs : ∀ c ∈ s, c.isDigit) (ht : ∀ c ∈ t, c.isDigit)
    (hlen : s.length = t.length) (hval : value s = value t) : s = t := by
  induction s using List.reverseRecOn generalizing t with
  | nil => exact (List.length_eq_zero_iff.mp hlen.symm).symm
  | append_singleton s c ih =>
      induction t using List.reverseRecOn with
      | nil => simp at hlen
      | append_singleton t d _ =>
          rw [value_append_singleton, value_append_singleton] at hval
          have hc := digit_bounds (hs c (by simp))
          have hd := digit_bounds (ht d (by simp))
          have h48 : '0'.toNat = 48 := rfl
          have hrest : value s = value t := by omega
          have hlast : c = d := by
            apply Char.ext
            apply UInt32.toNat_inj.mp
            show c.toNat = d.toNat
            omega
          rw [hlast, ih (fun x hx => hs x (List.mem_append_left _ hx))
            (fun x hx => ht x (List.mem_append_left _ hx)) (by simpa using hlen) hrest]

/-! ## Reading and writing -/

@[simp] theorem value_pad (w n : Nat) : value (pad w n) = n := by
  simp [value, pad, Nat.ofDigitChars_append]

@[simp] theorem length_pad (w n : Nat) : (pad w n).length = max w (numDigits n) := by
  simp only [pad, padding, List.length_append, List.length_replicate]
  show w - numDigits n + numDigits n = max w (numDigits n)
  omega

theorem pad_ne_nil (w n : Nat) : pad w n ≠ [] := by
  intro h
  have hlen := length_pad w n
  have hpos := numDigits_pos n
  rw [h, List.length_nil] at hlen
  omega

theorem numDigits_value_le {s : List Char} (hne : s ≠ []) (hd : ∀ c ∈ s, c.isDigit) :
    numDigits (value s) ≤ s.length :=
  (numDigits_le_iff (List.length_pos_iff.mpr hne)).mpr (value_lt s hd)

/-- A digit string is its own value, padded to its own length. -/
theorem pad_value {s : List Char} (hne : s ≠ []) (hd : ∀ c ∈ s, c.isDigit) :
    pad s.length (value s) = s := by
  refine eq_of_value_eq (fun c hc => isDigit_pad hc) hd ?_ (value_pad _ _)
  rw [length_pad]
  exact max_eq_left (numDigits_value_le hne hd)

/-! ## Which widths a number can tell apart -/

theorem pad_congr {w w' n : Nat} (h : padding w n = padding w' n) : pad w n = pad w' n := by
  rw [pad, pad, h]

theorem pad_eq_pad_iff {w w' m n : Nat} :
    pad w m = pad w' n ↔ m = n ∧ padding w m = padding w' n := by
  constructor
  · intro h
    have hmn : m = n := by
      have := congrArg value h
      simpa using this
    subst hmn
    refine ⟨rfl, ?_⟩
    have hlen := congrArg List.length h
    rw [length_pad, length_pad] at hlen
    unfold padding
    omega
  · rintro ⟨rfl, h⟩
    exact pad_congr h

/-- Widths that agree on `m` agree on every larger number. -/
theorem padding_eq_mono {w w' m n : Nat} (hmn : m ≤ n) (h : padding w m = padding w' m) :
    padding w n = padding w' n := by
  have hd := numDigits_mono hmn
  unfold padding at *
  omega

end Lib.Decimal
