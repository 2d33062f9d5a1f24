import Pdsh.Lib.Decimal

/-!
# The C library under pdsh

A C string is the list of its characters, one `Char` a byte, without the
terminating NUL; a pointer into a string is the rest of the string from
there. `unsigned long` is `UInt64` and `int` is `Int32`, with the wrapping
conversions of the compilers pdsh is built with.

`strtoul` is the base-10 case of the standard function: blanks, an optional
sign, digits; the value saturates at `ULONG_MAX` and a minus sign negates it
modulo `2^64`.
-/

namespace Pdsh

open Lib.Decimal

/-- A C string. -/
abbrev CStr := List Char

/-- The NUL character. -/
def NUL : Char := '\x00'

/-- Texts are compared byte by byte. -/
instance : LawfulBEq CStr := inferInstanceAs (LawfulBEq (List Char))

/-- The largest `unsigned long`. -/
def ULONG_MAX : UInt64 := 18446744073709551615

/-- `(int) n` for an `unsigned long`. -/
def intOfUlong (n : UInt64) : Int32 := Int32.ofNat n.toNat

/-- `(unsigned long) n` for an `int`. -/
def ulongOfInt (n : Int32) : UInt64 := UInt64.ofInt n.toInt

/-- `isspace` in the C locale. -/
def isspace (c : Char) : Bool :=
  c = ' ' ∨ c = '\t' ∨ c = '\n' ∨ c = '\x0b' ∨ c = '\x0c' ∨ c = '\r'

/-- `strchr`: the part before the first `c`, and the part after it. -/
def strchr (c : Char) : CStr → Option (CStr × CStr)
  | [] => none
  | x :: s => if x = c then some ([], s) else (strchr c s).map fun r => (x :: r.1, r.2)

/-- `strcmp`, by its sign. -/
def strcmp : CStr → CStr → Int
  | [], [] => 0
  | [], _ :: _ => -1
  | _ :: _, [] => 1
  | x :: s, y :: t => if x = y then strcmp s t else if x.toNat < y.toNat then -1 else 1

/-- The text `snprintf` leaves in a buffer of `size` bytes. -/
def snprintf (size : Nat) (text : CStr) : CStr := text.take (size - 1)

/-- What `strtoul` gives back: the value, where it stopped, and whether `errno`
is `ERANGE`. -/
structure Strtoul where
  value : UInt64
  endptr : CStr
  erange : Bool
deriving DecidableEq, Repr

/-- The optional sign in front of the digits. -/
def strtoulSign : CStr → Bool × CStr
  | '-' :: s => (true, s)
  | '+' :: s => (false, s)
  | s => (false, s)

/-- `strtoul (s, &endptr, 10)`. -/
def strtoul (s : CStr) : Strtoul :=
  let signed := strtoulSign (s.dropWhile isspace)
  let digits := signed.2.takeWhile Char.isDigit
  if digits = [] then ⟨0, s, false⟩
  else if value digits ≤ ULONG_MAX.toNat then
    let n := UInt64.ofNat (value digits)
    ⟨if signed.1 then 0 - n else n, signed.2.dropWhile Char.isDigit, false⟩
  else ⟨ULONG_MAX, signed.2.dropWhile Char.isDigit, true⟩

/-- `strstr`: where the first `pat` begins. -/
def strstr (pat : CStr) : CStr → Option Nat
  | [] => if pat = [] then some 0 else none
  | c :: s => if pat.isPrefixOf (c :: s) then some 0 else (strstr pat s).map (· + 1)

/-- `atoi`: the `long` that `strtol` reads, as an `int`. -/
def atoi (s : CStr) : Int :=
  let signed := strtoulSign (s.dropWhile isspace)
  let n : Int := value (signed.2.takeWhile Char.isDigit)
  let long := if signed.1 then max (-n) (-9223372036854775808) else min n 9223372036854775807
  (Int32.ofInt long).toInt

/-! ## Digits -/

/-- A digit is no blank. -/
theorem isspace_of_isDigit {c : Char} (h : c.isDigit) : isspace c = false := by
  have hc := digit_bounds h
  simp only [isspace, Bool.decide_or, Bool.or_eq_false_iff, decide_eq_false_iff_not]
  refine ⟨?_, ?_, ?_, ?_, ?_, ?_⟩ <;> rintro rfl <;> exact absurd hc.1 (by decide)

/-- A digit is no sign. -/
theorem strtoulSign_of_isDigit {c : Char} (h : c.isDigit) (s : CStr) :
    strtoulSign (c :: s) = (false, c :: s) := by
  have hc := digit_bounds h
  unfold strtoulSign
  split
  · rename_i heq
    rw [(List.cons.inj heq).1] at hc
    exact absurd hc.1 (by decide)
  · rename_i heq
    rw [(List.cons.inj heq).1] at hc
    exact absurd hc.1 (by decide)
  · rfl

/-! ## Machine integers -/

theorem ULONG_MAX_toNat : ULONG_MAX.toNat = 18446744073709551615 := rfl

theorem int_add_toInt {a b : Int32} (hlo : -2 ^ 31 ≤ a.toInt + b.toInt)
    (hhi : a.toInt + b.toInt < 2 ^ 31) : (a + b).toInt = a.toInt + b.toInt := by
  rw [Int32.toInt_add, Int.bmod_eq_of_le (by omega) (by omega)]

theorem int_sub_toInt {a b : Int32} (hlo : -2 ^ 31 ≤ a.toInt - b.toInt)
    (hhi : a.toInt - b.toInt < 2 ^ 31) : (a - b).toInt = a.toInt - b.toInt := by
  rw [Int32.toInt_sub, Int.bmod_eq_of_le (by omega) (by omega)]

theorem ulongOfInt_toNat {n : Int32} (h : 0 ≤ n.toInt) : (ulongOfInt n).toNat = n.toInt.toNat := by
  have hlt := n.toInt_lt
  rw [ulongOfInt, UInt64.ofInt, UInt64.toNat_ofNat']
  omega

/-! ## Strings -/

theorem strcmp_eq_zero_iff {s t : CStr} : strcmp s t = 0 ↔ s = t := by
  induction s generalizing t with
  | nil => cases t <;> simp [strcmp]
  | cons x s ih =>
      cases t with
      | nil => simp [strcmp]
      | cons y t =>
          by_cases hxy : x = y
          · simp [strcmp, hxy, ih]
          · rw [strcmp, if_neg hxy]
            split <;> simp [hxy]

/-- Exchanging the strings turns the sign. -/
theorem strcmp_swap (s t : CStr) : strcmp t s = -strcmp s t := by
  induction s generalizing t with
  | nil => cases t <;> rfl
  | cons x s ih =>
      cases t with
      | nil => rfl
      | cons y t =>
          by_cases hxy : x = y
          · subst hxy
            rw [strcmp, strcmp, if_pos rfl, if_pos rfl]
            exact ih t
          · have hne : x.toNat ≠ y.toNat := fun h => hxy (Char.toNat_inj.mp h)
            rw [strcmp, strcmp, if_neg hxy, if_neg (Ne.symm hxy)]
            split <;> split <;> omega

theorem strcmp_trans {s t u : CStr} (hst : strcmp s t ≤ 0) (htu : strcmp t u ≤ 0) : strcmp s u ≤ 0 := by
  induction s generalizing t u with
  | nil => cases u <;> simp [strcmp]
  | cons x s ih =>
      cases t with
      | nil => simp [strcmp] at hst
      | cons y t =>
          cases u with
          | nil => simp [strcmp] at htu
          | cons z u =>
              -- equal first characters leave the rest; else the first ones decide
              rw [strcmp] at hst htu ⊢
              by_cases hxy : x = y
              · subst hxy
                by_cases hxz : x = z
                · rw [if_pos rfl] at hst
                  rw [if_pos hxz] at htu ⊢
                  exact ih hst htu
                · rw [if_neg hxz] at htu ⊢
                  exact htu
              · rw [if_neg hxy] at hst
                by_cases hyz : y = z
                · subst hyz
                  rw [if_neg hxy]
                  exact hst
                · rw [if_neg hyz] at htu
                  have hlt : x.toNat < y.toNat ∧ y.toNat < z.toNat := by
                    split at hst <;> split at htu <;> simp_all
                  have hxz : x ≠ z := by
                    rintro rfl
                    omega
                  rw [if_neg hxz, if_pos (by omega)]
                  decide

theorem strchr_eq_none_iff {c : Char} {s : CStr} : strchr c s = none ↔ c ∉ s := by
  induction s with
  | nil => simp [strchr]
  | cons x s ih =>
      by_cases hx : x = c
      · simp [strchr, hx]
      · simp [strchr, hx, ih, Ne.symm hx]

/-- `strchr` splits at the first occurrence. -/
theorem strchr_eq_some_iff {c : Char} {s a b : CStr} :
    strchr c s = some (a, b) ↔ s = a ++ c :: b ∧ c ∉ a := by
  induction s generalizing a b with
  | nil => simp [strchr]
  | cons x s ih =>
      by_cases hx : x = c
      · subst hx
        cases a with
        | nil => simp [strchr]
        | cons y a => simp [strchr]; intro h; simp [h]
      · cases a with
        | nil => simp [strchr, hx]
        | cons y a =>
            simp only [strchr, if_neg hx, Option.map_eq_some_iff]
            constructor
            · rintro ⟨⟨a', b'⟩, hr, he⟩
              obtain ⟨hs, hc⟩ := ih.mp hr
              simp only [Prod.mk.injEq, List.cons.injEq] at he
              obtain ⟨⟨rfl, rfl⟩, rfl⟩ := he
              simp [hs, hc, Ne.symm hx]
            · rintro ⟨hs, hc⟩
              simp only [List.cons_append, List.cons.injEq] at hs
              obtain ⟨rfl, rfl⟩ := hs
              exact ⟨(a, b), ih.mpr ⟨rfl, fun h => hc (List.mem_cons_of_mem _ h)⟩, rfl⟩

/-- A pattern that occurs nowhere is not found. -/
theorem strstr_eq_none {pat s : CStr} (h : ¬ pat <:+: s) : strstr pat s = none := by
  induction s with
  | nil =>
      have hne : pat ≠ [] := by
        rintro rfl
        exact h (List.infix_refl [])
      rw [strstr, if_neg hne]
  | cons c s ih =>
      have hpre : ¬ pat.isPrefixOf (c :: s) := fun hp => h (List.isPrefixOf_iff_prefix.mp hp).isInfix
      rw [strstr, if_neg hpre, ih fun hs => h (hs.trans (List.suffix_cons c s).isInfix), Option.map_none]

/-- Where nothing is found the pattern does not occur. -/
theorem not_infix_of_strstr {pat s : CStr} (h : strstr pat s = none) : ¬ pat <:+: s := by
  induction s with
  | nil =>
      rw [strstr] at h
      split at h
      · cases h
      · rename_i hne
        rwa [List.infix_nil]
  | cons c s ih =>
      rw [strstr] at h
      split at h
      · cases h
      · rename_i hhead
        rw [List.infix_cons_iff, not_or]
        exact ⟨fun hp => hhead (List.isPrefixOf_iff_prefix.mpr hp), ih (Option.map_eq_none_iff.mp h)⟩

/-- Where something is found the pattern stands. -/
theorem prefix_of_strstr {pat s : CStr} {k : Nat} (h : strstr pat s = some k) : pat <+: s.drop k := by
  induction s generalizing k with
  | nil =>
      rw [strstr] at h
      split at h
      · rename_i hnil
        rw [hnil]
        exact List.nil_prefix
      · cases h
  | cons c s ih =>
      rw [strstr] at h
      split at h
      · rename_i hhead
        cases h
        exact List.isPrefixOf_iff_prefix.mp hhead
      · obtain ⟨j, hj, rfl⟩ := Option.map_eq_some_iff.mp h
        exact ih hj

end Pdsh
