import Pdsh.Hostlist.Canonical

/-!
# A text that does not fit

What `hostlist_ranged_string` leaves of a group that is longer than the buffer is its beginning,
without a closing bracket: `Shows` follows the bytes through the pieces that are written. So the
string that `strdup` takes from the buffer always is the text of the group or a beginning of it
(`strdup_ranged`).
-/

namespace Pdsh

open Lib Lib.Decimal Lib.Memory

variable {hl : Hostlist} {hr : Hostrange} {rest : List Hostrange} {m : Mem} {n i : Nat} {s t : CStr} {c : Char}

/-- The bytes of a buffer of `n` bytes are those of the text, but for the last byte. -/
def Shows (m : Mem) (n : Nat) (s : CStr) : Prop := ∀ i (h : i < s.length), i + 1 < n → m i = s[i]

theorem Shows.left (h : Shows m n (s ++ t)) : Shows m n s := by
  intro i hi hn
  rw [h i (by rw [List.length_append]; omega) hn, List.getElem_append_left hi]

/-- Where the buffer is full, any text may go on. -/
theorem Shows.extend (h : Shows m n s) (hn : n ≤ s.length + 1) (t : CStr) : Shows m n (s ++ t) := by
  intro i hi hlt
  rw [h i (by omega) hlt, List.getElem_append_left (by omega)]

theorem Shows.set_after (h : Shows m n s) (hi : s.length ≤ i ∨ n ≤ i + 1) : Shows (setByte m i c) n s := by
  intro j hj hn
  rw [setByte_ne (by omega)]
  exact h j hj hn

theorem Shows.set (h : Shows m n s) (c : Char) : Shows (setByte m s.length c) n (s ++ [c]) := by
  intro i hi hn
  by_cases hlt : i < s.length
  · rw [setByte_ne (by omega), h i hlt hn, List.getElem_append_left hlt]
  · rw [List.length_append, List.length_singleton] at hi
    obtain rfl : i = s.length := by omega
    rw [setByte_self, List.getElem_append_right (Nat.le_refl _)]
    simp

theorem Shows.snprintf (h : Shows m n s) (t : CStr) : Shows (snprintfAt m s.length (n - s.length) t) n (s ++ t) := by
  intro i hi hn
  by_cases hlt : i < s.length
  · rw [snprintfAt_before hlt, h i hlt hn, List.getElem_append_left hlt]
  · -- the piece is written up to the last byte
    rw [List.length_append] at hi
    have hpiece : i - s.length < (Pdsh.snprintf (n - s.length) t).length := by
      rw [Pdsh.snprintf, List.length_take]
      omega
    rw [snprintfAt, if_neg (by omega), setByte_ne (by omega), write, if_pos (by omega),
      List.getElem?_eq_getElem hpiece, Option.getD_some, List.getElem_append_right (by omega)]
    exact List.getElem_take

/-- The numbers of a range, as far as they fit. -/
theorem Shows.numstr (h : Shows m n s) (hr : Hostrange) :
    Shows (hostrangeNumstr hr m s.length (n - s.length)).1 n (s ++ numText hr) := by
  unfold hostrangeNumstr numText
  cases hs : hr.singlehost with
  | true =>
      rw [if_pos (.inl rfl), if_pos rfl, List.append_nil]
      exact h
  | false =>
      simp only [Bool.false_eq_true, if_false, false_or]
      by_cases hfull : n - s.length = 0
      · rw [if_pos hfull]
        exact h.extend (by omega) _
      · rw [if_neg hfull]
        have hlo := h.snprintf (pad hr.width hr.lo.toNat)
        rw [← List.append_assoc]
        by_cases hlen : (pad hr.width hr.lo.toNat).length < n - s.length
        · by_cases hlt : hr.lo < hr.hi
          · rw [if_pos ⟨hlen, hlt⟩, if_pos hlt]
            have hhi := hlo.snprintf ('-' :: pad hr.width hr.hi.toNat)
            rw [List.length_append, Nat.sub_add_eq] at hhi
            exact hhi
          · rw [if_neg fun hboth => hlt hboth.2, if_neg hlt, List.append_nil]
            exact hlo
        · rw [if_neg fun hboth => hlen hboth.1]
          exact hlo.extend (by rw [List.length_append]; omega) _

/-- A round of the `do` loop that fills the buffer. -/
theorem Shows.round_cut (h : Shows m n s) (hcut : n ≤ s.length + (hostrangeNumstr hr m s.length (n - s.length)).2)
    (b : Bool) (more : List Hostrange) :
    Shows (hostrangeNumstr hr m s.length (n - s.length)).1 n (s ++ (hr :: more).flatMap (loopText b)) := by
  have hle := @hostrangeNumstr_le hr m s.length (n - s.length)
  rw [List.flatMap_cons, loopText, List.append_assoc, ← List.append_assoc s]
  exact (h.numstr hr).extend (by rw [List.length_append]; omega) _

/-- One that does not. -/
theorem Shows.round (h : Shows m n s) (hroom : ¬ n ≤ s.length + (hostrangeNumstr hr m s.length (n - s.length)).2)
    (b : Bool) :
    Shows (if b then setByte (hostrangeNumstr hr m s.length (n - s.length)).1
        (s.length + (hostrangeNumstr hr m s.length (n - s.length)).2) ','
      else (hostrangeNumstr hr m s.length (n - s.length)).1) n (s ++ loopText b hr) ∧
    (if b then s.length + (hostrangeNumstr hr m s.length (n - s.length)).2 + 1
      else s.length + (hostrangeNumstr hr m s.length (n - s.length)).2) = (s ++ loopText b hr).length := by
  have hnum := h.numstr hr
  obtain ⟨-, hlen⟩ := @hostrangeNumstr_prints hr m s.length (n - s.length) (by omega)
  have hat : s.length + (hostrangeNumstr hr m s.length (n - s.length)).2 = (s ++ numText hr).length := by
    rw [hlen, List.length_append]
  cases b with
  | true =>
      simp only [if_true, loopText]
      rw [hat, ← List.append_assoc]
      refine ⟨hnum.set ',', ?_⟩
      rw [@List.length_append _ _ [',']]
      rfl
  | false =>
      simp only [Bool.false_eq_true, if_false, loopText, List.append_nil]
      exact ⟨hnum, hat⟩

/-- The numbers of a group, as far as they fit. -/
theorem Shows.loop (h : Shows m n s) (b : Bool) :
    Shows (bracketedLoop b 0 n hr rest m s.length).1 n (s ++ (hr :: (groupRest hr rest).1).flatMap (loopText b)) := by
  induction rest generalizing hr m s with
  | nil =>
      unfold bracketedLoop
      simp only [Nat.zero_add, groupRest]
      by_cases hcut : n ≤ s.length + (hostrangeNumstr hr m s.length (n - s.length)).2
      · rw [if_pos hcut]
        exact h.round_cut hcut b []
      · rw [if_neg hcut, List.flatMap_singleton]
        exact (h.round hcut b).1
  | cons next rest ih =>
      unfold bracketedLoop
      simp only [Nat.zero_add]
      by_cases hcut : n ≤ s.length + (hostrangeNumstr hr m s.length (n - s.length)).2
      · rw [if_pos hcut]
        exact h.round_cut hcut b _
      · rw [if_neg hcut]
        obtain ⟨hshows, hlen⟩ := h.round hcut b
        rw [groupRest, hlen]
        by_cases hin : hostrangeWithinRange next (some hr)
        · rw [if_pos hin, if_pos hin, List.flatMap_cons, ← List.append_assoc]
          exact ih hshows
        · rw [if_neg hin, if_neg hin, List.flatMap_singleton]
          exact hshows

/-- The end of `_get_bracketed_list`. -/
def closeList (b : Bool) (n : Nat) (done : Mem × Nat × List Hostrange) : Mem × Nat × List Hostrange :=
  if b ∧ done.2.1 < n ∧ done.2.1 > 0 then
    (setByte (setByte done.1 (done.2.1 - 1) ']') done.2.1 NUL, done.2.1, done.2.2)
  else if done.2.1 ≥ n then
    (if n > 0 then setByte done.1 (n - 1) NUL else done.1, done.2.1, done.2.2)
  else (setByte done.1 done.2.1 NUL, done.2.1, done.2.2)

theorem getBracketedList_short (h : ¬ hr.pfx.length > n) :
    getBracketedList hr rest m 0 n =
      closeList (isBracketNeeded hr rest.head?) n
        (bracketedLoop (isBracketNeeded hr rest.head?) 0 n hr rest
          (if isBracketNeeded hr rest.head? ∧ hr.pfx.length < n then
            setByte (snprintfAt m 0 n hr.pfx) hr.pfx.length '[' else snprintfAt m 0 n hr.pfx)
          (if isBracketNeeded hr rest.head? ∧ hr.pfx.length < n then hr.pfx.length + 1 else hr.pfx.length)) := by
  unfold getBracketedList closeList
  simp only [h, if_false, Nat.zero_add]

theorem Shows.close {done : Mem × Nat × List Hostrange} {b : Bool} (h : Shows done.1 n s)
    (hcut : n ≤ (closeList b n done).2.1) : Shows (closeList b n done).1 n s := by
  unfold closeList at hcut ⊢
  have hfull : n ≤ done.2.1 := by
    split at hcut
    · exact hcut
    · split at hcut <;> exact hcut
  rw [if_neg (by omega), if_pos hfull]
  dsimp only
  split
  · exact h.set_after (.inr (by omega))
  · exact h

/-- A group that is cut short. -/
theorem getBracketedList_shows (hcut : n ≤ (getBracketedList hr rest m 0 n).2.1) :
    Shows (getBracketedList hr rest m 0 n).1 n
      (groupText (isBracketNeeded hr rest.head?) hr (groupRest hr rest).1) := by
  have hlong := getBracketedList_cut hcut
  have hempty : Shows m n [] := fun i hi => absurd hi (Nat.not_lt_zero i)
  have hpfx : Shows (snprintfAt m 0 n hr.pfx) n hr.pfx := hempty.snprintf hr.pfx
  by_cases hover : hr.pfx.length > n
  · unfold getBracketedList
    simp only
    rw [if_pos hover]
    unfold groupText
    split
    · rw [List.append_assoc]
      exact hpfx.extend (by omega) _
    · exact hpfx.extend (by omega) _
  rw [getBracketedList_short hover] at hcut ⊢
  refine Shows.close ?_ hcut
  cases hb : isBracketNeeded hr rest.head? with
  | true =>
      have htext : groupText true hr (groupRest hr rest).1 = hr.pfx ++ ['['] ++
          List.intercalate [','] ((hr :: (groupRest hr rest).1).map numText) ++ [']'] := by
        simp [groupText]
      rw [hb, htext, List.length_append, List.length_singleton] at hlong
      rw [htext]
      by_cases hlt : hr.pfx.length < n
      · -- the last comma is where the bracket would be
        rw [if_pos ⟨rfl, hlt⟩, if_pos ⟨rfl, hlt⟩]
        have hloop := @Shows.loop hr rest _ n _ (hpfx.set '[') true
        rw [flatMap_loopText, ← List.append_assoc, List.length_append, List.length_singleton] at hloop
        exact hloop.left.extend hlong [']']
      · rw [if_neg fun h => hlt h.2, if_neg fun h => hlt h.2]
        have hloop := (@Shows.loop hr rest _ n _ hpfx true).left
        rw [List.append_assoc, List.append_assoc]
        exact hloop.extend (by omega) _
  | false =>
      rw [if_neg fun h => Bool.noConfusion h.1, if_neg fun h => Bool.noConfusion h.1]
      have hgroup := groupRest_of_not_bracket hb
      have hloop := @Shows.loop hr rest _ n _ hpfx false
      rw [hgroup, List.flatMap_singleton] at hloop
      have htext : groupText false hr (groupRest hr rest).1 = hr.pfx ++ loopText false hr := by
        simp [groupText, loopText]
      rw [htext]
      exact hloop

/-! ## One block -/

/-- Neighbours that go into one bracket. -/
def together (a b : Hostrange) : Bool := hostrangeWithinRange a (some b)

theorem together_iff {a b : Hostrange} :
    together a b = true ↔ a.pfx = b.pfx ∧ a.singlehost = false ∧ b.singlehost = false :=
  hostrangeWithinRange_iff

/-- The text of ranges that go into one bracket. -/
def blockText : List Hostrange → CStr
  | [] => []
  | hr :: more => groupText (isBracketNeeded hr more.head?) hr more

theorem groupRest_of_chain (h : (hr :: rest).IsChain fun a b => together a b = true) :
    groupRest hr rest = (rest, []) := by
  induction rest generalizing hr with
  | nil => rfl
  | cons next rest ih =>
      obtain ⟨hnext, hrest⟩ := List.isChain_cons_cons.mp h
      obtain ⟨hpfx, hs, hs'⟩ := together_iff.mp hnext
      rw [groupRest, if_pos (hostrangeWithinRange_iff.mpr ⟨hpfx.symm, hs', hs⟩), ih hrest]

theorem printedText_block (hhr : hl.hr = hr :: rest)
    (hchain : (hr :: rest).IsChain fun a b => together a b = true) : hl.printedText = blockText hl.hr := by
  have hgroups : hl.groups = [(isBracketNeeded hr rest.head?, hr, rest)] := by
    unfold Hostlist.groups
    rw [hhr, groupsLoop, groupRest_of_chain hchain, List.length_cons]
    rfl
  unfold Hostlist.printedText
  rw [hgroups, hhr]
  show _ = groupText (isBracketNeeded hr rest.head?) hr rest
  by_cases hempty : groupText (isBracketNeeded hr rest.head?) hr rest = []
  · rw [@rangedText_shown_empty (isBracketNeeded hr rest.head?, hr, rest) _ hempty, hempty]
    rfl
  · rw [@rangedText_shown 0 (isBracketNeeded hr rest.head?, hr, rest) _ fun _ => hempty, if_pos rfl,
      List.append_nil]

/-- What is in the buffer of a block that is cut short. -/
theorem ranged_shows (hrep : hl.nranges = hl.hr.length) (hhr : hl.hr = hr :: rest)
    (hchain : (hr :: rest).IsChain fun a b => together a b = true) (hn : 0 < n) (hlong : n ≤ (blockText hl.hr).length)
    (m : Mem) :
    Shows (hostlistRangedString hl n m).1 n (blockText hl.hr) ∧ (hostlistRangedString hl n m).1 (n - 1) = NUL := by
  have hgroup := groupRest_of_chain hchain
  have htext : blockText hl.hr = groupText (isBracketNeeded hr rest.head?) hr rest := by rw [hhr]; rfl
  -- a list that fits the buffer would be short
  have hcut : n ≤ (getBracketedList hr rest m 0 n).2.1 := by
    by_contra hfits
    obtain ⟨-, hlen, -⟩ := getBracketedList_prints (Nat.not_le.mp hfits)
    rw [hgroup] at hlen
    simp only at hlen
    rw [htext] at hlong
    omega
  have hloop : rangedStringLoop n (hl.hr.length + 1) hl.hr m 0 =
      ((getBracketedList hr rest m 0 n).1, (getBracketedList hr rest m 0 n).2.1) := by
    rw [hhr, rangedStringLoop, if_pos hn]
    simp only [Nat.sub_zero, Nat.zero_add]
    have hcomma : ¬ ((getBracketedList hr rest m 0 n).2.1 > 0 ∧ (getBracketedList hr rest m 0 n).2.1 < n ∧
        (getBracketedList hr rest m 0 n).2.2 ≠ []) := fun h => Nat.not_lt.mpr hcut h.2.1
    rw [if_neg hcomma, if_neg hcomma, List.length_cons]
    generalize (getBracketedList hr rest m 0 n).2.2 = left
    cases left with
    | nil => rfl
    | cons x left => rw [rangedStringLoop, if_neg (Nat.not_lt.mpr hcut)]
  have hwhole : (hostlistRangedString hl n m).1 = setByte (getBracketedList hr rest m 0 n).1 (n - 1) NUL := by
    unfold hostlistRangedString
    simp only
    rw [hrep, List.take_length, hloop]
    simp only
    rw [if_pos hcut, if_pos hn]
  have hshows := getBracketedList_shows hcut
  rw [hgroup] at hshows
  rw [hwhole, htext]
  exact ⟨hshows.set_after (.inr (by omega)), setByte_self⟩

/-- `strdup` of a string in a buffer of `n` bytes. -/
def strdup (m : Mem) (n : Nat) : CStr := (text m 0 n).takeWhile (· ≠ NUL)

/-- Of the text of a block `strdup` gets what fits the buffer, up to a NUL. -/
theorem strdup_ranged (hrep : hl.nranges = hl.hr.length) (hhr : hl.hr = hr :: rest)
    (hchain : (hr :: rest).IsChain fun a b => together a b = true) (hn : 0 < n) (m : Mem) :
    strdup (hostlistRangedString hl n m).1 n = ((blockText hl.hr).take (n - 1)).takeWhile (· ≠ NUL) := by
  have hsplit : ∀ (m : Mem) (len : Nat), len < n → m len = NUL →
      strdup m n = (text m 0 len).takeWhile (· ≠ NUL) := by
    intro m len hlen hnul
    have hparts : text m 0 n = text m 0 len ++ NUL :: text m (len + 1) (n - len - 1) := by
      have hsum : n = len + (1 + (n - len - 1)) := by omega
      conv_lhs => rw [hsum, text_add, text_add]
      simp [text, hnul]
    rw [strdup, hparts, List.takeWhile_append]
    split
    · rename_i hall
      rw [List.takeWhile_cons_of_neg (by simp), List.append_nil]
      exact ((List.takeWhile_prefix _).eq_of_length hall).symm
    · rfl
  by_cases hlong : n ≤ (blockText hl.hr).length
  · obtain ⟨hshows, hnul⟩ := ranged_shows hrep hhr hchain hn hlong m
    rw [hsplit _ (n - 1) (by omega) hnul]
    congr 1
    refine List.ext_getElem (by simp; omega) fun i hi hi' => ?_
    rw [length_text] at hi
    have hbyte := hshows i (by omega) (by omega)
    simp only [text, List.getElem_map, List.getElem_range, Nat.zero_add, List.getElem_take]
    exact hbyte
  · obtain ⟨-, -, hprinted⟩ := @ranged_honest hl n hrep hn m
    rw [printedText_block hhr hchain, if_pos (Nat.not_le.mp hlong)] at hprinted
    obtain ⟨-, hbytes, hnul⟩ := hprinted
    rw [Nat.zero_add] at hnul
    rw [hsplit _ _ (Nat.not_le.mp hlong) hnul, hbytes, List.take_of_length_le (by omega)]

end Pdsh
