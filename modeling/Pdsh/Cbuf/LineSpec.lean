import Pdsh.Cbuf.Valid

/-!
# Lines among the unread bytes

What `cbuf_find_unread_line` finds depends on the unread bytes alone: its loop is a scan of the
list. For one line it is the first line, its newline included.
-/

namespace Pdsh

open Lib.Ring

namespace Cbuf

variable {cb : Cbuf} {r : Int}

/-- One byte of the scan. -/
def LineSearch.take (s : LineSearch) (c : Char) : LineSearch :=
  if c = '\n' then s.count.found s.count.n else s.count

/-- The loop of `cbuf_find_unread_line` on a list of bytes. -/
def LineSearch.scan : LineSearch → List Char → LineSearch
  | s, [] => s
  | s, c :: u =>
      if (s.take c).chars = 0 ∨ (s.take c).lines = 0 then s.take c else LineSearch.scan (s.take c) u

theorem LineSearch.n_take (s : LineSearch) (c : Char) : (s.take c).n = s.n + 1 := by
  unfold LineSearch.take
  split <;> rfl

/-- The index is not looked at. -/
theorem LineSearch.take_with (s : LineSearch) (c : Char) (i : Int) :
    LineSearch.take { s with i := i } c = { s.take c with i := i } := by
  unfold LineSearch.take
  split <;> rfl

theorem LineSearch.scan_with (s : LineSearch) (u : List Char) (i : Int) :
    LineSearch.scan { s with i := i } u = { s.scan u with i := i } := by
  induction u generalizing s with
  | nil => rfl
  | cons c u ih =>
      rw [LineSearch.scan, LineSearch.scan, LineSearch.take_with]
      simp only
      split
      · rfl
      · exact ih _

theorem LineSearch.i_take (s : LineSearch) (c : Char) : (s.take c).i = s.i := by
  unfold LineSearch.take
  split <;> rfl

theorem unreadLoop_succ (cb : Cbuf) (fuel : Nat) (s : LineSearch) (hne : s.i ≠ cb.i_in) :
    cb.unreadLoop (fuel + 1) s =
      if (s.take (cb.data s.i)).chars = 0 ∨ (s.take (cb.data s.i)).lines = 0 then s.take (cb.data s.i)
      else cb.unreadLoop fuel { s.take (cb.data s.i) with i := (cint (s.i + 1)).tmod (cb.size + 1) } := by
  rw [unreadLoop, if_pos hne]
  show (if (s.take (cb.data s.i)).chars = 0 ∨ (s.take (cb.data s.i)).lines = 0 then s.take (cb.data s.i)
    else cb.unreadLoop fuel { s.take (cb.data s.i) with
      i := (cint ((s.take (cb.data s.i)).i + 1)).tmod (cb.size + 1) }) = _
  rw [LineSearch.i_take]

/-- The loop looks at the unread bytes one after the other. -/
theorem Inv.unreadLoop_eq (h : Inv cb r) (fuel : Nat) {s : LineSearch} {k : Nat} (hk : s.n = k)
    (hle : k ≤ cb.used.toNat) (hi : s.i = (cb.i_out + k) % (cb.size + 1))
    (hfuel : cb.used.toNat < k + fuel) :
    ∃ i, cb.unreadLoop fuel s = { s.scan (cb.unread.drop k) with i := i } := by
  have hin := h.in_nonneg
  have hin_le := h.in_le
  have hpos := h.size_pos
  have hroom := h.twice_size
  have hused := h.used_nonneg
  have hfits := h.fits
  have hr := h.rep_nonneg
  have hlength := h.length_unread
  unfold CBUF_CHUNK at hroom
  induction fuel generalizing s k with
  | zero => omega
  | succ fuel ih =>
      by_cases hne : s.i ≠ cb.i_in
      · have hlt : k < cb.used.toNat := by
          refine lt_of_le_of_ne hle fun heq => hne ?_
          rw [hi, heq, Int.toNat_of_nonneg hused, h.out_eq, Int.emod_add_emod, Int.sub_add_cancel,
            Int.emod_eq_of_lt hin (by omega)]
        have hbounds := Int.emod_nonneg (cb.i_out + k) (show cb.size + 1 ≠ 0 by omega)
        have hlt' := Int.emod_lt_of_pos (cb.i_out + k) (show 0 < cb.size + 1 by omega)
        have hdrop : cb.unread.drop k = cb.data s.i :: cb.unread.drop (k + 1) := by
          have hsucc : cb.used.toNat - k = (cb.used.toNat - (k + 1)) + 1 := by omega
          rw [unread, drop_slice hle, drop_slice hlt, hsucc, slice, hi]
          push_cast
          rw [Int.add_assoc]
        have hnext : (cint (s.i + 1)).tmod (cb.size + 1) = (cb.i_out + (k + 1 : Nat)) % (cb.size + 1) := by
          rw [tmod_cint (by omega) (by omega), hi, Int.emod_add_emod]
          push_cast
          rw [Int.add_assoc]
        rw [unreadLoop_succ cb fuel s hne, hdrop, LineSearch.scan]
        split
        · exact ⟨(s.take (cb.data s.i)).i, rfl⟩
        · obtain ⟨i, hloop⟩ := @ih { s.take (cb.data s.i) with
            i := (cint (s.i + 1)).tmod (cb.size + 1) } (k + 1)
            (by simp only [LineSearch.n_take, hk]; push_cast; rfl) hlt hnext (by omega)
          refine ⟨i, ?_⟩
          rw [hloop, LineSearch.scan_with]
      · have heq := not_not.mp hne
        have hall : k = cb.used.toNat := by
          have hmod : (cb.i_in - cb.used + k) % (cb.size + 1) = cb.i_in % (cb.size + 1) := by
            rw [← Int.emod_add_emod, ← h.out_eq, ← hi, Int.emod_eq_of_lt hin (by omega), heq]
          have hsame := eq_of_emod_eq hmod (by rw [abs_lt]; omega)
          omega
        refine ⟨s.i, ?_⟩
        rw [hall, List.drop_of_length_le (by omega), LineSearch.scan, unreadLoop, if_neg hne]

/-- What is found, as a function of the unread bytes. -/
def foundLines (u : List Char) (chars lines : Int) : Int × Int :=
  if lines = 0 ∨ (lines ≤ -1 ∧ chars ≤ 0) then (0, 0)
  else
    let s := LineSearch.scan ⟨0, 0, 0, 0, if lines > 0 then -1 else chars, lines⟩ u
    if s.lines > 0 then (0, 0) else (s.m, s.l)

theorem Inv.findUnreadLine_eq (h : Inv cb r) (chars lines : Int) :
    cb.findUnreadLine chars lines = foundLines cb.unread chars lines := by
  have hused := h.used_nonneg
  have hfits := h.fits
  have hr := h.rep_nonneg
  have hout := h.out_bounds
  have hlength := h.length_unread
  unfold findUnreadLine foundLines
  split
  · rfl
  · obtain ⟨i, hloop⟩ := h.unreadLoop_eq (cb.size + 1).toNat
      (s := ⟨cb.i_out, 0, 0, 0, if lines > 0 then -1 else chars, lines⟩) (k := 0) rfl (by omega)
      (by simp [Int.emod_eq_of_lt hout.1 (show cb.i_out < cb.size + 1 by omega)]) (by omega)
    have hscan := LineSearch.scan_with ⟨0, 0, 0, 0, if lines > 0 then -1 else chars, lines⟩ cb.unread
      cb.i_out
    rw [List.drop_zero, hscan] at hloop
    by_cases hempty : cb.used = 0
    · obtain hnil : cb.unread = [] := List.length_eq_zero_iff.mp (by omega)
      rw [if_pos hempty, hnil]
      simp [LineSearch.scan]
    · rw [if_neg hempty]
      simp only [hloop]

/-- The number of bytes of the first line, and 0 where there is none. -/
def firstLine (u : List Char) : Nat := if '\n' ∈ u then u.idxOf '\n' + 1 else 0

theorem foundLines_one (u : List Char) (chars : Int) : (foundLines u chars 1).1 = firstLine u := by
  have hscan : ∀ (u : List Char) (n : Int), LineSearch.scan ⟨0, n, 0, 0, -1, 1⟩ u =
      if '\n' ∈ u then ⟨0, n + (u.idxOf '\n' + 1), n + (u.idxOf '\n' + 1), 1, -1, 0⟩
      else ⟨0, n + u.length, 0, 0, -1, 1⟩ := by
    intro u
    induction u with
    | nil => simp [LineSearch.scan]
    | cons c u ih =>
        intro n
        rw [LineSearch.scan]
        by_cases hc : c = '\n'
        · subst hc
          simp [LineSearch.take, LineSearch.count, LineSearch.found]
        · have htake : LineSearch.take ⟨0, n, 0, 0, -1, 1⟩ c = ⟨0, n + 1, 0, 0, -1, 1⟩ := by
            simp [LineSearch.take, LineSearch.count, hc]
          rw [htake, if_neg (by simp), ih, List.idxOf_cons_ne _ hc]
          simp only [List.mem_cons, Ne.symm hc, false_or, List.length_cons]
          split
          · simp only [LineSearch.mk.injEq, and_true, true_and]
            push_cast
            omega
          · simp only [LineSearch.mk.injEq, and_true, true_and]
            push_cast
            omega
  unfold foundLines firstLine
  simp only [one_ne_zero, show ¬ ((1 : Int) ≤ -1) by decide, false_and, or_false, if_false,
    show (1 : Int) > 0 by decide, if_true, hscan]
  split <;> simp

end Cbuf

end Pdsh
