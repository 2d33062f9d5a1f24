import Pdsh.Hostlist.Names

/-!
# Splitting a host name

`hostname_create` splits the digits off the end of a name when they are a
number of at most `MAX_HOST_SUFFIX`, and leaves the name whole otherwise. The
split loses nothing: the prefix and the number, padded to the length of the
suffix, give the name back.
-/

namespace Pdsh

open Lib Lib.Decimal

/-- `strtoul` on a string of digits. -/
theorem strtoul_digits {s : CStr} (hne : s ≠ []) (hd : ∀ c ∈ s, c.isDigit) :
    strtoul s = if value s ≤ ULONG_MAX.toNat then ⟨UInt64.ofNat (value s), [], false⟩
      else ⟨ULONG_MAX, [], true⟩ := by
  obtain ⟨c, t, rfl⟩ := List.exists_cons_of_ne_nil hne
  have hc := hd c (by simp)
  have hdrop : (c :: t).dropWhile isspace = c :: t := by simp [isspace_of_isDigit hc]
  have hsign := strtoulSign_of_isDigit hc t
  have htake : (c :: t).takeWhile Char.isDigit = c :: t :=
    List.takeWhile_eq_self_iff.mpr hd
  have hend : (c :: t).dropWhile Char.isDigit = [] := List.dropWhile_eq_nil_iff.mpr hd
  simp only [strtoul, hdrop, hsign, htake, hend]
  simp

theorem MAX_HOST_SUFFIX_toNat : MAX_HOST_SUFFIX.toNat = 33554432 := rfl

theorem rdropWhile_append_rtakeWhile (s : CStr) :
    s.rdropWhile Char.isDigit ++ s.rtakeWhile Char.isDigit = s := by
  simp only [List.rdropWhile, List.rtakeWhile, ← List.reverse_append,
    List.takeWhile_append_dropWhile, List.reverse_reverse]

theorem hostPrefixEnd_le (s : CStr) : hostPrefixEnd s ≤ s.length :=
  (List.rdropWhile_prefix _ _).length_le

/-- Digits behind a name do not move the end of its prefix. -/
theorem hostPrefixEnd_append_digits {s d : CStr} (hd : ∀ c ∈ d, c.isDigit) :
    hostPrefixEnd (s ++ d) = hostPrefixEnd s := by
  induction d using List.reverseRecOn with
  | nil => simp
  | append_singleton d c ih =>
      rw [hostPrefixEnd, ← List.append_assoc, List.rdropWhile_concat_pos _ _ _ (hd c (by simp))]
      exact ih fun x hx => hd x (List.mem_append_left _ hx)

/-- Everything from the end of the prefix on is a digit. -/
theorem isDigit_drop {s : CStr} {idx : Nat} (h : hostPrefixEnd s ≤ idx) :
    ∀ c ∈ s.drop idx, c.isDigit := by
  intro c hc
  rw [← rdropWhile_append_rtakeWhile s, List.drop_append,
    List.drop_eq_nil_of_le (show (s.rdropWhile Char.isDigit).length ≤ idx from h),
    List.nil_append] at hc
  exact List.mem_rtakeWhile_imp (List.mem_of_mem_drop hc)

/-! ## `hostname_create_with_suffix` -/

@[simp] theorem hostnameCreateWithSuffix_hostname (s : CStr) (idx : Nat) :
    (hostnameCreateWithSuffix s idx).hostname = s := by
  unfold hostnameCreateWithSuffix
  split
  · rfl
  · simp only
    split <;> rfl

/-- A suffix of digits that is not too large is split off. -/
theorem hostnameCreateWithSuffix_valid {s : CStr} {idx : Nat} (h : hostPrefixEnd s ≤ idx)
    (hlt : idx < s.length) (hv : value (s.drop idx) ≤ MAX_HOST_SUFFIX.toNat) :
    hostnameCreateWithSuffix s idx =
      ⟨s, s.take idx, UInt64.ofNat (value (s.drop idx)), some (s.drop idx)⟩ := by
  have hne : s.drop idx ≠ [] := by
    rw [Ne, List.drop_eq_nil_iff]
    omega
  have hM := MAX_HOST_SUFFIX_toNat
  have hU := ULONG_MAX_toNat
  have hnum := strtoul_digits hne (isDigit_drop h)
  rw [if_pos (by omega)] at hnum
  have hle : UInt64.ofNat (value (s.drop idx)) ≤ MAX_HOST_SUFFIX := by
    rw [UInt64.le_iff_toNat_le, UInt64.toNat_ofNat_of_lt' (by simp only [UInt64.size]; omega)]
    exact hv
  rw [hostnameCreateWithSuffix, if_neg (by omega)]
  simp [hnum, hle]

/-- The two outcomes of a split: a valid suffix, or none because there are no
digits or they are too large a number. -/
theorem hostnameCreateWithSuffix_cases {s : CStr} {idx : Nat} (h : hostPrefixEnd s ≤ idx)
    (hle : idx ≤ s.length) :
    (idx < s.length ∧ value (s.drop idx) ≤ MAX_HOST_SUFFIX.toNat ∧
      hostnameCreateWithSuffix s idx =
        ⟨s, s.take idx, UInt64.ofNat (value (s.drop idx)), some (s.drop idx)⟩) ∨
    ((idx = s.length ∨ MAX_HOST_SUFFIX.toNat < value (s.drop idx)) ∧
      (hostnameCreateWithSuffix s idx).suffix = none) := by
  rcases Nat.eq_or_lt_of_le hle with heq | hlt
  · exact .inr ⟨.inl heq, by simp [hostnameCreateWithSuffix, heq]⟩
  · by_cases hv : value (s.drop idx) ≤ MAX_HOST_SUFFIX.toNat
    · exact .inl ⟨hlt, hv, hostnameCreateWithSuffix_valid h hlt hv⟩
    · refine .inr ⟨.inr (by omega), ?_⟩
      have hne : s.drop idx ≠ [] := by
        rw [Ne, List.drop_eq_nil_iff]
        omega
      have hM := MAX_HOST_SUFFIX_toNat
      have hU := ULONG_MAX_toNat
      have hlarge : ¬ (strtoul (s.drop idx)).value ≤ MAX_HOST_SUFFIX := by
        rw [strtoul_digits hne (isDigit_drop h), UInt64.le_iff_toNat_le]
        split
        · rw [UInt64.toNat_ofNat_of_lt' (by simp only [UInt64.size]; omega)]
          exact hv
        · simp only
          omega
      simp [hostnameCreateWithSuffix, Nat.ne_of_lt hlt, hlarge]

/-! ## The range of one host -/

theorem hostrangeOfHost_valid {str : CStr} (hlt : hostPrefixEnd str < str.length)
    (hv : value (str.drop (hostPrefixEnd str)) ≤ MAX_HOST_SUFFIX.toNat) :
    hostrangeOfHost str =
      hostrangeCreate (str.take (hostPrefixEnd str))
        (UInt64.ofNat (value (str.drop (hostPrefixEnd str))))
        (UInt64.ofNat (value (str.drop (hostPrefixEnd str))))
        (str.drop (hostPrefixEnd str)).length := by
  simp [hostrangeOfHost, hostnameCreate,
    hostnameCreateWithSuffix_valid (Nat.le_refl _) hlt hv]

theorem hostrangeOfHost_cases (str : CStr) :
    (hostPrefixEnd str < str.length ∧
      value (str.drop (hostPrefixEnd str)) ≤ MAX_HOST_SUFFIX.toNat ∧
      hostrangeOfHost str =
        hostrangeCreate (str.take (hostPrefixEnd str))
          (UInt64.ofNat (value (str.drop (hostPrefixEnd str))))
          (UInt64.ofNat (value (str.drop (hostPrefixEnd str))))
          (str.drop (hostPrefixEnd str)).length) ∨
    hostrangeOfHost str = hostrangeCreateSingle str := by
  rcases hostnameCreateWithSuffix_cases (Nat.le_refl (hostPrefixEnd str))
    (hostPrefixEnd_le str) with ⟨hlt, hv, -⟩ | ⟨-, hnone⟩
  · exact .inl ⟨hlt, hv, hostrangeOfHost_valid hlt hv⟩
  · exact .inr (by simp [hostrangeOfHost, hostnameCreate, hnone])

/-- The range `hostlist_push_host` pushes denotes the host. -/
theorem hostrangeOfHost_names (str : CStr) : (hostrangeOfHost str).names = [str] := by
  rcases hostrangeOfHost_cases str with ⟨hlt, hv, heq⟩ | heq
  · have hM := MAX_HOST_SUFFIX_toNat
    have hne : str.drop (hostPrefixEnd str) ≠ [] := by
      rw [Ne, List.drop_eq_nil_iff]
      omega
    rw [heq, hostrangeCreate_names, UInt64.toNat_ofNat_of_lt' (by simp only [UInt64.size]; omega), Nat.add_sub_cancel_left,
      block_succ, pad_value hne (isDigit_drop (Nat.le_refl _)), List.take_append_drop]
    rfl
  · rw [heq, hostrangeCreateSingle_names]

theorem hostrangeOfHost_wf (str : CStr) : (hostrangeOfHost str).Wf := by
  rcases hostrangeOfHost_cases str with ⟨-, -, heq⟩ | heq
  · rw [heq]
    exact hostrangeCreate_wf (Nat.le_refl _)
  · rw [heq]
    exact hostrangeCreateSingle_wf str

theorem hostrangeOfHost_hi_le (str : CStr) :
    (hostrangeOfHost str).hi.toNat ≤ MAX_HOST_SUFFIX.toNat := by
  rcases hostrangeOfHost_cases str with ⟨-, hv, heq⟩ | heq
  · have hM := MAX_HOST_SUFFIX_toNat
    rw [heq]
    simp only [hostrangeCreate]
    rw [UInt64.toNat_ofNat_of_lt' (by simp only [UInt64.size]; omega)]
    exact hv
  · rw [heq]
    exact Nat.zero_le _

end Pdsh
