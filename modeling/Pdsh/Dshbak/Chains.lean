import Pdsh.Dshbak.Compress

/-!
# The elements of `comp` as chains

Each element of `@{$s{$p}}` stands for a chain of numbers: its first and its last one are the ends
of the chain (`Folded`). Every number of the prefix is in one chain. Where the numbers are such
that Perl holds them as integers, each of a chain is the number before the next one, written so
that the next text is the padded successor (`Joins.next`), and a chain begins where no number
before it is there (`Joined`).
-/

namespace Pdsh.Dshbak

open Lib Lib.Decimal

variable {P : Perl} {e : Entry} {l : List CStr} {m n : CStr} {chains : List (List CStr)}

/-! ## Padded widths -/

/-- A text of digits. -/
def Digits (n : CStr) : Prop := n ≠ [] ∧ ∀ c ∈ n, c.isDigit

theorem value_zero_cons (s : CStr) : value ('0' :: s) = value s := by
  have hzero : value ['0'] = 0 := rfl
  rw [← List.singleton_append, value_append, hzero, Nat.mul_zero, Nat.zero_add]

/-- Padded to its length, or not padded at all. -/
theorem zeropadwidth_cases (h : Digits n) :
    (zeropadwidth n = 1 ∧ n.length = numDigits (value n)) ∨
      (zeropadwidth n = n.length ∧ numDigits (value n) < n.length) := by
  obtain ⟨hne, hd⟩ := h
  obtain ⟨c, s, rfl⟩ := List.exists_cons_of_ne_nil hne
  have hs : ∀ x ∈ s, x.isDigit := fun x hx => hd x (List.mem_cons_of_mem _ hx)
  by_cases hc : c = '0'
  · subst hc
    cases s with
    | nil => exact .inl ⟨rfl, rfl⟩
    | cons d s =>
        right
        have hle := numDigits_value_le (by simp) hs
        rw [value_zero_cons]
        exact ⟨by simp [zeropadwidth], Nat.lt_succ_of_le hle⟩
  · left
    refine ⟨by simp [zeropadwidth, hc], Nat.le_antisymm ?_ (numDigits_value_le hne hd)⟩
    -- the first digit counts
    have hbounds := digit_bounds (hd c (by simp))
    have hpos : 1 ≤ value [c] := by
      have hc48 : c.toNat ≠ 48 := fun heq => hc (Char.toNat_inj.mp heq)
      have h48 : '0'.toNat = 48 := rfl
      have hone := value_append_singleton [] c
      rw [List.nil_append] at hone
      omega
    have hlarge : 10 ^ s.length ≤ value (c :: s) := by
      rw [← List.singleton_append, value_append]
      exact Nat.le_add_right_of_le (Nat.le_mul_of_pos_right _ hpos)
    rw [List.length_cons]
    by_cases hlen : s.length = 0
    · rw [hlen]
      exact numDigits_pos _
    · have hiff := @numDigits_le_iff (value (c :: s)) s.length (Nat.pos_of_ne_zero hlen)
      omega

/-- A number is determined by its padded width and its value. -/
theorem eq_of_zeropadwidth_eq (hm : Digits m) (hn : Digits n)
    (hzp : zeropadwidth m = zeropadwidth n) (hv : value m = value n) : m = n := by
  refine eq_of_value_eq hm.2 hn.2 ?_ hv
  have hpos := numDigits_pos (value n)
  rcases zeropadwidth_cases hm with ⟨hzm, hlm⟩ | ⟨hzm, hlm⟩ <;>
    rcases zeropadwidth_cases hn with ⟨hzn, hln⟩ | ⟨hzn, hln⟩ <;> rw [hv] at hlm <;> omega

/-! ## The number before -/

/-- `m` is a number that `comp` looks for to put `n` behind it. -/
def Before (m n : CStr) : Prop :=
  value m + 1 = value n ∧
    (zeropadwidth m = zeropadwidth n ∨ zeropadwidth n = 1 ∧ zeropadwidth m = n.length)

instance (m n : CStr) : Decidable (Before m n) := by
  unfold Before
  infer_instance

/-- `m` is the number that `n` is put behind, when the numbers in `l` are there: one of the same
padded width is looked for first. -/
def Joins (l : List CStr) (m n : CStr) : Prop :=
  Before m n ∧ (zeropadwidth m = zeropadwidth n ∨
    ∀ m' ∈ l, value m' + 1 = value n → zeropadwidth m' ≠ zeropadwidth n)

/-- A number is the padded successor of the one before it. -/
theorem Before.next (hm : Digits m) (hn : Digits n) (h : Before m n) :
    n = pad m.length (value m + 1) := by
  obtain ⟨hv, hzp⟩ := h
  have hmono := numDigits_mono (Nat.le_add_right (value m) 1)
  have hpos := numDigits_pos (value m)
  have hpad : padding n.length (value n) = padding m.length (value n) := by
    unfold padding
    rw [hv] at hmono
    rcases zeropadwidth_cases hm with ⟨hzm, hlm⟩ | ⟨hzm, hlm⟩ <;>
      rcases zeropadwidth_cases hn with ⟨hzn, hln⟩ | ⟨hzn, hln⟩ <;> omega
  calc n = pad n.length (value n) := (pad_value hn.1 hn.2).symm
    _ = pad m.length (value n) := pad_congr hpad
    _ = pad m.length (value m + 1) := by rw [hv]

/-- At most one number has another one put behind it. -/
theorem Joins.unique {m' : CStr} (hm : Digits m) (hm' : Digits m') (hml : m ∈ l) (hml' : m' ∈ l)
    (h : Joins l m n) (h' : Joins l m' n) : m = m' := by
  obtain ⟨⟨hv, hzp⟩, hfirst⟩ := h
  obtain ⟨⟨hv', hzp'⟩, hfirst'⟩ := h'
  refine eq_of_zeropadwidth_eq hm hm' ?_ (by omega)
  by_cases hs : zeropadwidth m = zeropadwidth n
  · by_cases hs' : zeropadwidth m' = zeropadwidth n
    · rw [hs, hs']
    · exact absurd hs (hfirst'.resolve_left hs' m hml hv)
  · by_cases hs' : zeropadwidth m' = zeropadwidth n
    · exact absurd hs' (hfirst.resolve_left hs m' hml' hv')
    · rw [(hzp.resolve_left hs).2, (hzp'.resolve_left hs').2]

/-- Where a number before `n` is there, `n` is put behind one. -/
theorem Before.joins (hml : m ∈ l) (h : Before m n) : ∃ m' ∈ l, Joins l m' n := by
  by_cases hs : ∃ m' ∈ l, value m' + 1 = value n ∧ zeropadwidth m' = zeropadwidth n
  · obtain ⟨m', hm', hv, hzp⟩ := hs
    exact ⟨m', hm', ⟨hv, .inl hzp⟩, .inl hzp⟩
  · exact ⟨m, hml, h, .inr fun m' hm' hv hzp => hs ⟨m', hm', hv, hzp⟩⟩

/-! ## Chains -/

/-- The element that stands for a chain. -/
def chainElem (chain : List CStr) : Elem := ⟨chain.headD [], chain.tail.getLast?⟩

theorem chainElem_concat (h : l ≠ []) (n : CStr) :
    chainElem (l ++ [n]) = { chainElem l with stop := some n } := by
  obtain ⟨a, t, rfl⟩ := List.exists_cons_of_ne_nil h
  simp [chainElem]

/-- The chains that the elements of a prefix stand for, when the numbers in `l` are through. -/
structure Folded (P : Perl) (l : List CStr) (e : Entry) (chains : List (List CStr)) : Prop where
  elems : e.s = chains.map chainElem
  ne_nil : ∀ c ∈ chains, c ≠ []
  perm : chains.flatten.Perm l
  index : ∀ zp k idx, e.i zp k = some idx →
    ∃ c, chains[idx]? = some c ∧ ∃ m ∈ c, zeropadwidth m = zp ∧ P.minus m 0 = k
  known : ∀ m ∈ l, ∃ idx, e.i (zeropadwidth m) (P.minus m 0) = some idx
  tail : ∀ c ∈ chains, [] ∉ c.tail

theorem Folded.empty (P : Perl) : Folded P [] Entry.empty [] :=
  ⟨rfl, by simp, List.Perm.refl _, by simp [Entry.empty], by simp, by simp⟩

/-- Where the number before `n` is found: at the index of a chain that holds such a number. -/
theorem Folded.prevIndex_some (h : Folded P l e chains) {idx : Nat}
    (hidx : prevIndex P e n = some idx) :
    ∃ c, chains[idx]? = some c ∧ ∃ m ∈ c, P.minus m 0 = P.minus n 1 ∧
      (zeropadwidth m = zeropadwidth n ∨ zeropadwidth n = 1 ∧ zeropadwidth m = n.length ∧
        e.i (zeropadwidth n) (P.minus n 1) = none) := by
  unfold prevIndex at hidx
  split at hidx
  · rename_i hfirst
    cases hidx
    obtain ⟨c, hc, m, hm, hzp, hk⟩ := h.index _ _ _ hfirst
    exact ⟨c, hc, m, hm, hk, .inl hzp⟩
  · rename_i hnone
    split at hidx
    · rename_i hone
      obtain ⟨c, hc, m, hm, hzp, hk⟩ := h.index _ _ _ hidx
      exact ⟨c, hc, m, hm, hk, .inr ⟨hone, hzp, hnone⟩⟩
    · cases hidx

/-- No digits: there is no number before. -/
theorem Folded.prevIndex_nil (h : Folded P l e chains) : prevIndex P e [] = none := by
  rw [Option.eq_none_iff_forall_ne_some]
  intro idx hidx
  obtain ⟨-, -, m, -, hk, -⟩ := h.prevIndex_some hidx
  have hnil : P.minus [] 1 = .int (-1) := rfl
  rw [hnil, Perl.minus] at hk
  split at hk
  · rw [Key.int.injEq] at hk
    omega
  · cases hk

theorem setIndex_self (i : Nat → Key → Option Nat) (zp : Nat) (k : Key) (idx : Nat) :
    setIndex i zp k idx zp k = some idx := if_pos ⟨rfl, rfl⟩

theorem setIndex_cases {i : Nat → Key → Option Nat} {zp zp' idx idx' : Nat} {k k' : Key}
    (h : setIndex i zp k idx zp' k' = some idx') :
    (zp' = zp ∧ k' = k ∧ idx' = idx) ∨ i zp' k' = some idx' := by
  unfold setIndex at h
  split at h
  · rename_i heq
    cases h
    exact .inl ⟨heq.1, heq.2, rfl⟩
  · exact .inr h

theorem setIndex_isSome {i : Nat → Key → Option Nat} {zp' : Nat} {k' : Key}
    (h : ∃ idx', i zp' k' = some idx') (zp idx : Nat) (k : Key) :
    ∃ idx', setIndex i zp k idx zp' k' = some idx' := by
  unfold setIndex
  split
  · exact ⟨idx, rfl⟩
  · exact h

/-- A number without one before it makes a chain of its own. -/
theorem Folded.push (h : Folded P l e chains) (hidx : prevIndex P e n = none) :
    Folded P (l ++ [n]) (compStep P e n) (chains ++ [[n]]) := by
  unfold compStep
  rw [hidx]
  refine ⟨?_, ?_, ?_, ?_, ?_, ?_⟩
  · rw [List.map_append, ← h.elems]
    rfl
  · intro c hc
    rcases List.mem_append.mp hc with hc | hc
    · exact h.ne_nil c hc
    · rw [List.mem_singleton.mp hc]
      simp
  · rw [List.flatten_concat]
    exact h.perm.append_right [n]
  · intro zp k idx hi
    rcases setIndex_cases hi with ⟨rfl, rfl, rfl⟩ | hi
    · refine ⟨[n], ?_, n, by simp, rfl, rfl⟩
      rw [h.elems, List.length_map, List.getElem?_concat_length]
    · obtain ⟨c, hc, hm⟩ := h.index _ _ _ hi
      exact ⟨c, List.getElem?_append_left (List.getElem?_eq_some_iff.mp hc).1 ▸ hc, hm⟩
  · intro m hm
    rcases List.mem_append.mp hm with hm | hm
    · exact setIndex_isSome (h.known m hm) _ _ _
    · rw [List.mem_singleton.mp hm]
      exact ⟨_, setIndex_self _ _ _ _⟩
  · intro c hc
    rcases List.mem_append.mp hc with hc | hc
    · exact h.tail c hc
    · rw [List.mem_singleton.mp hc]
      simp

/-- The chain at an index grows by one number. -/
def extend (chains : List (List CStr)) (idx : Nat) (n : CStr) : List (List CStr) :=
  chains.modify idx (· ++ [n])

theorem flatten_extend {idx : Nat} (hidx : idx < chains.length) (n : CStr) :
    (extend chains idx n).flatten.Perm (chains.flatten ++ [n]) := by
  unfold extend
  induction chains generalizing idx with
  | nil => exact absurd hidx (Nat.not_lt_zero _)
  | cons c chains ih =>
      cases idx with
      | zero =>
          rw [List.modify_zero_cons, List.flatten_cons, List.flatten_cons, List.append_assoc, List.append_assoc]
          exact List.perm_append_comm.append_left c
      | succ idx =>
          rw [List.modify_succ_cons, List.flatten_cons, List.flatten_cons, List.append_assoc]
          exact (ih (Nat.lt_of_succ_lt_succ hidx)).append_left c

theorem mem_extend {idx : Nat} {c : List CStr} (h : c ∈ extend chains idx n) :
    c ∈ chains ∨ ∃ c', chains[idx]? = some c' ∧ c = c' ++ [n] := by
  obtain ⟨j, hj⟩ := List.mem_iff_getElem?.mp h
  rw [extend, List.getElem?_modify] at hj
  obtain ⟨c', hc', hif⟩ := Option.map_eq_some_iff.mp hj
  split at hif
  · rename_i heq
    exact .inr ⟨c', heq ▸ hc', hif.symm⟩
  · exact .inl (hif ▸ List.mem_of_getElem? hc')

/-- A chain is still there, perhaps with one more number. -/
theorem getElem?_extend {idx j : Nat} {c : List CStr} (h : chains[j]? = some c) :
    ∃ t, (extend chains idx n)[j]? = some (c ++ t) := by
  rw [extend, List.getElem?_modify, h]
  by_cases heq : idx = j
  · exact ⟨[n], by simp [heq]⟩
  · exact ⟨[], by simp [heq]⟩

/-- A number with one before it is put behind the chain that holds it. -/
theorem Folded.join (h : Folded P l e chains) {idx : Nat} (hidx : prevIndex P e n = some idx) :
    Folded P (l ++ [n]) (compStep P e n) (extend chains idx n) := by
  obtain ⟨c, hc, -⟩ := h.prevIndex_some hidx
  have hlt := (List.getElem?_eq_some_iff.mp hc).1
  have hne : n ≠ [] := by
    rintro rfl
    rw [h.prevIndex_nil] at hidx
    cases hidx
  unfold compStep
  rw [hidx]
  refine ⟨?_, ?_, ?_, ?_, ?_, ?_⟩
  · refine List.ext_getElem? fun j => ?_
    rw [extend, List.getElem?_map, List.getElem?_modify, List.getElem?_modify, h.elems, List.getElem?_map]
    cases hj : chains[j]? with
    | none => rfl
    | some c' =>
        by_cases heq : idx = j
        · simp [heq, chainElem_concat (h.ne_nil c' (List.mem_of_getElem? hj))]
        · simp [heq]
  · intro c' hc'
    rcases mem_extend hc' with hc' | ⟨c'', -, rfl⟩
    · exact h.ne_nil c' hc'
    · simp
  · exact (flatten_extend hlt n).trans (h.perm.append_right [n])
  · intro zp k idx' hi
    rcases setIndex_cases hi with ⟨rfl, rfl, rfl⟩ | hi
    · refine ⟨c ++ [n], ?_, n, by simp, rfl, rfl⟩
      rw [extend, List.getElem?_modify_eq, hc]
      rfl
    · obtain ⟨c', hc', m, hm, hzp⟩ := h.index _ _ _ hi
      obtain ⟨t, ht⟩ := @getElem?_extend n _ idx _ _ hc'
      exact ⟨c' ++ t, ht, m, List.mem_append_left t hm, hzp⟩
  · intro m hm
    rcases List.mem_append.mp hm with hm | hm
    · exact setIndex_isSome (h.known m hm) _ _ _
    · rw [List.mem_singleton.mp hm]
      exact ⟨_, setIndex_self _ _ _ _⟩
  · intro c' hc'
    rcases mem_extend hc' with hc' | ⟨c'', hc'', rfl⟩
    · exact h.tail c' hc'
    · have hmem := List.mem_of_getElem? hc''
      rw [List.tail_append_of_ne_nil (h.ne_nil c'' hmem), List.mem_append, List.mem_singleton]
      exact not_or.mpr ⟨h.tail c'' hmem, hne.symm⟩

/-! ## Numbers that are held by integers -/

/-- The numbers of a prefix, in order. -/
structure Numbers (l : List CStr) : Prop where
  digits : ∀ n ∈ l, Digits n
  small : ∀ n ∈ l, value n < 2 ^ 64
  nodup : l.Nodup
  sorted : l.Pairwise fun m n => value m ≤ value n

/-- The last number is new, and none is above it. -/
theorem Numbers.concat (h : Numbers (l ++ [n])) :
    Numbers l ∧ n ∉ l ∧ ∀ m ∈ l, value m ≤ value n := by
  obtain ⟨hsl, -, hle⟩ := List.pairwise_append.mp h.sorted
  obtain ⟨hnl, -, hdisj⟩ := List.nodup_append'.mp h.nodup
  refine ⟨⟨?_, ?_, hnl, hsl⟩, ?_, ?_⟩
  · exact fun m hm => h.digits m (List.mem_append_left _ hm)
  · exact fun m hm => h.small m (List.mem_append_left _ hm)
  · exact fun hn => hdisj hn (List.mem_singleton_self n)
  · exact fun m hm => hle m hm n (List.mem_singleton_self n)

theorem Perl.minus_eq_iff (hm : value m < 2 ^ 64) (hn : value n < 2 ^ 64) :
    P.minus m 0 = P.minus n 1 ↔ value m + 1 = value n := by
  unfold Perl.minus
  rw [if_pos hm, if_pos hn, Key.int.injEq]
  omega

/-- The chains are runs of numbers, and each begins where no number before it is there. -/
structure Joined (l : List CStr) (chains : List (List CStr)) : Prop where
  chain : ∀ c ∈ chains, c.IsChain (Joins l)
  heads : ∀ c ∈ chains, ∀ a ∈ c.head?, ∀ m ∈ l, ¬ Before m a

/-- A later number is before none of the earlier ones. -/
theorem Joins.concat {k : CStr} (hl : Numbers (l ++ [n])) (hk : k ∈ l) (h : Joins l m k) :
    Joins (l ++ [n]) m k := by
  obtain ⟨hb, hfirst⟩ := h
  refine ⟨hb, hfirst.imp_right fun hnone m' hm' hv => ?_⟩
  rcases List.mem_append.mp hm' with hm' | hm'
  · exact hnone m' hm' hv
  · have hle := hl.concat.2.2 k hk
    rw [List.mem_singleton.mp hm'] at hv
    omega

theorem Folded.chain_concat (h : Folded P l e chains) (hl : Numbers (l ++ [n]))
    {c : List CStr} (hc : c ∈ chains) (hchain : c.IsChain (Joins l)) :
    c.IsChain (Joins (l ++ [n])) := by
  have hmem : ∀ k ∈ c, k ∈ l := fun k hk => h.perm.mem_iff.mp (List.mem_flatten_of_mem hc hk)
  rw [List.isChain_iff_getElem] at hchain ⊢
  exact fun i hi => (hchain i hi).concat hl (hmem _ (List.getElem_mem _))

theorem Folded.prevIndex_none (h : Folded P l e chains) (hl : Numbers (l ++ [n]))
    (hidx : prevIndex P e n = none) : ∀ m ∈ l, ¬ Before m n := by
  rintro m hm ⟨hv, hzp⟩
  have hkey : P.minus m 0 = P.minus n 1 :=
    (Perl.minus_eq_iff (hl.concat.1.small m hm) (hl.small n (by simp))).mpr hv
  obtain ⟨idx, hknown⟩ := h.known m hm
  rw [hkey] at hknown
  unfold prevIndex at hidx
  rcases hzp with hzp | ⟨hone, hzp⟩
  · rw [hzp] at hknown
    rw [hknown] at hidx
    cases hidx
  · rw [hzp] at hknown
    split at hidx
    · cases hidx
    · rw [if_pos hone, hknown] at hidx
      cases hidx

/-- The number that is found is one that `n` joins. -/
theorem Folded.prevIndex_joins (h : Folded P l e chains) (hl : Numbers (l ++ [n])) {idx : Nat}
    (hidx : prevIndex P e n = some idx) : ∃ c, chains[idx]? = some c ∧ ∃ m ∈ c, Joins l m n := by
  obtain ⟨c, hc, m, hm, hkey, hzp⟩ := h.prevIndex_some hidx
  have hml : m ∈ l := h.perm.mem_iff.mp (List.mem_flatten_of_mem (List.mem_of_getElem? hc) hm)
  have hn := hl.small n (by simp)
  have hsmall := hl.concat.1.small
  have hv := (Perl.minus_eq_iff (hsmall m hml) hn).mp hkey
  refine ⟨c, hc, m, hm, ⟨hv, hzp.imp_right fun hfar => ⟨hfar.1, hfar.2.1⟩⟩, ?_⟩
  refine hzp.imp_right fun hfar m' hm' hv' hzp' => ?_
  obtain ⟨idx', hknown⟩ := h.known m' hm'
  rw [hzp', (Perl.minus_eq_iff (hsmall m' hm') hn).mpr hv', hfar.2.2] at hknown
  cases hknown

/-- A member of a chain is the last one, or it has one behind it. -/
theorem isChain_mem_cases {R : CStr → CStr → Prop} {c : List CStr} (h : c.IsChain R) (hm : m ∈ c) :
    c.getLast? = some m ∨ ∃ k ∈ c, R m k := by
  induction c with
  | nil => cases hm
  | cons a c ih =>
      cases c with
      | nil =>
          left
          rw [List.mem_singleton.mp hm]
          rfl
      | cons b c =>
          rw [List.isChain_cons_cons] at h
          rcases List.mem_cons.mp hm with rfl | hm
          · exact .inr ⟨b, by simp, h.1⟩
          · rcases ih h.2 hm with hlast | ⟨k, hk, hr⟩
            · exact .inl (by rw [List.getLast?_cons_cons, hlast])
            · exact .inr ⟨k, List.mem_cons_of_mem a hk, hr⟩

theorem Joined.push (hf : Folded P l e chains) (h : Joined l chains) (hl : Numbers (l ++ [n]))
    (hidx : prevIndex P e n = none) : Joined (l ++ [n]) (chains ++ [[n]]) := by
  have hnone := hf.prevIndex_none hl hidx
  constructor
  · intro c hc
    rcases List.mem_append.mp hc with hc | hc
    · exact hf.chain_concat hl hc (h.chain c hc)
    · rw [List.mem_singleton.mp hc]
      exact List.isChain_singleton n
  · intro c hc a ha m hm hb
    have hv := hb.1
    rcases List.mem_append.mp hc with hc | hc
    · have hal : a ∈ l := hf.perm.mem_iff.mp (List.mem_flatten_of_mem hc (List.mem_of_mem_head? ha))
      have hle := hl.concat.2.2 a hal
      rcases List.mem_append.mp hm with hm | hm
      · exact h.heads c hc a ha m hm hb
      · rw [List.mem_singleton.mp hm] at hv
        omega
    · rw [List.mem_singleton.mp hc] at ha
      obtain rfl : n = a := Option.some.inj ha
      rcases List.mem_append.mp hm with hm | hm
      · exact hnone m hm hb
      · rw [List.mem_singleton.mp hm] at hv
        omega

theorem Joined.join (hf : Folded P l e chains) (h : Joined l chains) (hl : Numbers (l ++ [n]))
    {idx : Nat} (hidx : prevIndex P e n = some idx) :
    Joined (l ++ [n]) (extend chains idx n) := by
  obtain ⟨c, hc, m, hm, hjoins⟩ := hf.prevIndex_joins hl hidx
  obtain ⟨hl', hnew, hle⟩ := hl.concat
  have hcmem := List.mem_of_getElem? hc
  have hmem : ∀ c ∈ chains, ∀ k ∈ c, k ∈ l :=
    fun c hc k hk => hf.perm.mem_iff.mp (List.mem_flatten_of_mem hc hk)
  -- a number behind `m` would be `n` itself
  have hlast : c.getLast? = some m := by
    refine (isChain_mem_cases (h.chain c hcmem) hm).resolve_right ?_
    rintro ⟨k, hk, hkj⟩
    have hdm := hl'.digits m (hmem c hcmem m hm)
    have hkn : k = n := by
      rw [hkj.1.next hdm (hl'.digits k (hmem c hcmem k hk)), hjoins.1.next hdm (hl.digits n (by simp))]
    exact hnew (hkn ▸ hmem c hcmem k hk)
  have hjoins' : Joins (l ++ [n]) m n := by
    refine ⟨hjoins.1, hjoins.2.imp_right fun hnone m' hm' hv => ?_⟩
    rcases List.mem_append.mp hm' with hm' | hm'
    · exact hnone m' hm' hv
    · rw [List.mem_singleton.mp hm'] at hv
      omega
  constructor
  · intro c' hc'
    rcases mem_extend hc' with hc' | ⟨c'', hc'', rfl⟩
    · exact hf.chain_concat hl hc' (h.chain c' hc')
    · obtain rfl : c = c'' := Option.some.inj (hc.symm.trans hc'')
      rw [List.isChain_append]
      refine ⟨hf.chain_concat hl hcmem (h.chain c hcmem), List.isChain_singleton n, ?_⟩
      intro x hx y hy
      rw [hlast] at hx
      cases hx
      cases hy
      exact hjoins'
  · intro c' hc' a ha m' hm' hb
    have hold : ∃ c'' ∈ chains, c''.head? = some a := by
      rcases mem_extend hc' with hc' | ⟨c'', hc'', rfl⟩
      · exact ⟨c', hc', ha⟩
      · refine ⟨c'', List.mem_of_getElem? hc'', ?_⟩
        rwa [List.head?_append_of_ne_nil _ (hf.ne_nil c'' (List.mem_of_getElem? hc''))] at ha
    obtain ⟨c'', hc'', ha'⟩ := hold
    have hle' := hle a (hmem c'' hc'' a (List.mem_of_mem_head? ha'))
    have hv := hb.1
    rcases List.mem_append.mp hm' with hm' | hm'
    · exact h.heads c'' hc'' a ha' m' hm' hb
    · rw [List.mem_singleton.mp hm'] at hv
      omega

/-- The elements that `comp` makes of the numbers of a prefix are chains of them. -/
theorem comp_folded (P : Perl) (l : List CStr) :
    ∃ chains, Folded P l (l.foldl (compStep P) Entry.empty) chains ∧ (Numbers l → Joined l chains) := by
  induction l using List.reverseRecOn with
  | nil => exact ⟨[], Folded.empty P, fun _ => ⟨by simp, by simp⟩⟩
  | append_singleton l n ih =>
      obtain ⟨chains, hf, hj⟩ := ih
      rw [List.foldl_append, List.foldl_cons, List.foldl_nil]
      cases hidx : prevIndex P (l.foldl (compStep P) Entry.empty) n with
      | none => exact ⟨_, hf.push hidx, fun hl => (hj hl.concat.1).push hf hl hidx⟩
      | some idx => exact ⟨_, hf.join hidx, fun hl => (hj hl.concat.1).join hf hl hidx⟩

end Pdsh.Dshbak
