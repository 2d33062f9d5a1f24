import Pdsh.Cbuf.LineSpec
import Pdsh.Cbuf.Refine
import Pdsh.Lib.Lines

/-!
# Reading and rewinding lines

What `cbuf_read_line` takes are whole lines: as many as were asked for, or as many as fit. The
search for lines to rewind goes through the replayable bytes from their end; behind a read of whole
lines that began at the start of a line it stops where the read began.
-/

namespace Pdsh

open Lib.Lines Lib.Ring

namespace Cbuf

variable {cb : Cbuf} {r : Int}

/-! ## Whole lines in front -/

/-- What a request for lines takes off the bytes `u`. A positive number of lines is taken
exactly or not at all; -1 takes the most that have no more than `chars` bytes. -/
structure WholeLines (u : List Char) (chars lines : Int) (p : List Char) : Prop where
  starts : p <+: u
  ended : Ended '\n' p
  counted : 0 < lines → (p.count '\n' : Int) = lines ∨ (p = [] ∧ (u.count '\n' : Int) < lines)
  most : lines = -1 → (p.length : Int) ≤ max chars 0 ∧
    ∀ q, q <+: u → Ended '\n' q → (q.length : Int) ≤ max chars 0 → q.length ≤ p.length
  none : lines = 0 → p = []

theorem ended_cons_of_ne {c : Char} {p : List Char} (hc : c ≠ '\n') (h : Ended '\n' (c :: p)) :
    p ≠ [] ∧ Ended '\n' p := by
  rcases h with h | h
  · cases h
  cases p with
  | nil => exact absurd (by simpa using h) hc
  | cons d p => exact ⟨List.cons_ne_nil d p, .inr (by simpa using h)⟩

theorem ended_tail {c : Char} {p : List Char} (h : Ended '\n' (c :: p)) : Ended '\n' p := by
  cases p with
  | nil => exact .inl rfl
  | cons d p =>
      rcases h with h | h
      · cases h
      · exact .inr (by simpa using h)

/-- As many lines as there are can be taken off. -/
theorem exists_lines {u : List Char} {k : Nat} (h : k ≤ u.count '\n') :
    ∃ p, p <+: u ∧ Ended '\n' p ∧ p.count '\n' = k := by
  induction u generalizing k with
  | nil =>
      obtain rfl : k = 0 := by simpa using h
      exact ⟨[], List.nil_prefix, .inl rfl, rfl⟩
  | cons c u ih =>
      cases k with
      | zero => exact ⟨[], List.nil_prefix, .inl rfl, rfl⟩
      | succ k =>
          by_cases hc : c = '\n'
          · subst hc
            obtain ⟨p, hpre, hended, hcount⟩ := ih (k := k) (by simpa using h)
            refine ⟨'\n' :: p, List.cons_prefix_cons.mpr ⟨rfl, hpre⟩, ?_, by simpa using hcount⟩
            exact ended_append (s := ['\n']) (.inr rfl) hended
          · obtain ⟨p, hpre, hended, hcount⟩ := ih (k := k + 1) (by simpa [hc] using h)
            refine ⟨c :: p, List.cons_prefix_cons.mpr ⟨rfl, hpre⟩, ?_, by simpa [hc] using hcount⟩
            rcases hended with rfl | hlast
            · simp at hcount
            · exact .inr (by rw [List.getLast?_cons, hlast]; rfl)

/-! ## The scan for unread lines -/

/-- A request for lines that are there stops behind the last of them. -/
theorem scan_lines {p : List Char} (rest : List Char) (hended : Ended '\n' p) {k : Nat}
    (hcount : p.count '\n' = k + 1) (i n m l : Int) :
    LineSearch.scan ⟨i, n, m, l, -1, (k + 1 : Nat)⟩ (p ++ rest) =
      ⟨i, n + p.length, n + p.length, l + (k + 1 : Nat), -1, 0⟩ := by
  induction p generalizing n m l k with
  | nil => simp at hcount
  | cons c p ih =>
      rw [List.cons_append, LineSearch.scan]
      by_cases hc : c = '\n'
      · subst hc
        have htake : LineSearch.take ⟨i, n, m, l, -1, (k + 1 : Nat)⟩ '\n' =
            ⟨i, n + 1, n + 1, l + 1, -1, (k : Nat)⟩ := by
          simp [LineSearch.take, LineSearch.count, LineSearch.found]
        have hrest : p.count '\n' = k := by simpa using hcount
        rw [htake]
        cases k with
        | zero =>
            -- the last newline is the end of the lines
            have hnil : p = [] := by
              rcases ended_tail hended with hnil | hlast
              · exact hnil
              · exact absurd (List.mem_of_getLast? hlast) (List.count_eq_zero.mp hrest)
            subst hnil
            simp
        | succ k =>
            rw [if_neg (by simp; omega), ih (ended_tail hended) hrest]
            simp only [LineSearch.mk.injEq, List.length_cons, true_and, and_true]
            push_cast
            omega
      · have htake : LineSearch.take ⟨i, n, m, l, -1, (k + 1 : Nat)⟩ c =
            ⟨i, n + 1, m, l, -1, (k + 1 : Nat)⟩ := by
          simp [LineSearch.take, LineSearch.count, hc]
        rw [htake, if_neg (by simp; omega),
          ih (ended_cons_of_ne hc hended).2 (by simpa [hc] using hcount)]
        simp only [LineSearch.mk.injEq, List.length_cons, true_and, and_true]
        push_cast
        omega

/-- A request for more lines than there are is left with what is missing. -/
theorem scan_few {u : List Char} {k : Nat} (hlt : u.count '\n' < k) (i n m l : Int) :
    (LineSearch.scan ⟨i, n, m, l, -1, (k : Nat)⟩ u).lines = k - u.count '\n' := by
  induction u generalizing n m l k with
  | nil => simp [LineSearch.scan]
  | cons c u ih =>
      rw [LineSearch.scan]
      by_cases hc : c = '\n'
      · subst hc
        obtain ⟨k, rfl⟩ := Nat.exists_eq_succ_of_ne_zero (by omega : k ≠ 0)
        have htake : LineSearch.take ⟨i, n, m, l, -1, (k + 1 : Nat)⟩ '\n' =
            ⟨i, n + 1, n + 1, l + 1, -1, (k : Nat)⟩ := by
          simp [LineSearch.take, LineSearch.count, LineSearch.found]
        have hrest : u.count '\n' < k := by simpa using hlt
        rw [htake, if_neg (by simp; omega), ih hrest]
        simp
      · have htake : LineSearch.take ⟨i, n, m, l, -1, (k : Nat)⟩ c =
            ⟨i, n + 1, m, l, -1, (k : Nat)⟩ := by
          simp [LineSearch.take, LineSearch.count, hc]
        have hrest : u.count '\n' < k := by simpa [hc] using hlt
        rw [htake, if_neg (by simp; omega), ih hrest]
        simp [hc]

/-- Without a number of lines the scan goes as far as the bytes may, and keeps where the last line
ended. -/
theorem scan_bounded {u p rest : List Char} {c : Nat} (htake : u.take c = p ++ rest)
    (hended : Ended '\n' p) (hrest : '\n' ∉ rest) (hc : 0 < c) (i n m l : Int) :
    (LineSearch.scan ⟨i, n, m, l, c, -1⟩ u).m = (if p = [] then m else n + p.length) ∧
      (LineSearch.scan ⟨i, n, m, l, c, -1⟩ u).lines = -1 := by
  induction u generalizing n m l c p rest with
  | nil =>
      obtain ⟨rfl, rfl⟩ : p = [] ∧ rest = [] := by simpa using htake
      simp [LineSearch.scan]
  | cons x u ih =>
      obtain ⟨c, rfl⟩ := Nat.exists_eq_succ_of_ne_zero hc.ne'
      rw [List.take_succ_cons] at htake
      rw [LineSearch.scan]
      -- a newline moves the end of the lines, any byte uses up one of those that may be looked at
      have hplain : x ≠ '\n' →
          LineSearch.take ⟨i, n, m, l, (c + 1 : Nat), -1⟩ x = ⟨i, n + 1, m, l, c, -1⟩ := by
        intro hx
        simp [LineSearch.take, LineSearch.count, hx]
      have hnewline : x = '\n' →
          LineSearch.take ⟨i, n, m, l, (c + 1 : Nat), -1⟩ x = ⟨i, n + 1, n + 1, l + 1, c, -1⟩ := by
        intro hx
        simp [LineSearch.take, LineSearch.count, LineSearch.found, hx]
      cases p with
      | nil =>
          subst htake
          rw [List.mem_cons, not_or] at hrest
          rw [hplain (Ne.symm hrest.1)]
          cases c with
          | zero => simp
          | succ c =>
              rw [if_neg (by simp; omega)]
              exact ih (p := []) rfl (.inl rfl) hrest.2 (Nat.succ_pos c) (n + 1) m l
      | cons y p =>
          obtain ⟨rfl, hmore⟩ := List.cons_eq_cons.mp htake
          have hlen : n + ((x :: p).length : Nat) = n + 1 + p.length := by
            rw [List.length_cons]
            push_cast
            omega
          rw [if_neg (List.cons_ne_nil x p), hlen]
          by_cases hx : x = '\n'
          · rw [hnewline hx]
            cases c with
            | zero =>
                obtain ⟨rfl, rfl⟩ : p = [] ∧ rest = [] := by simpa using hmore
                simp
            | succ c =>
                rw [if_neg (by simp; omega)]
                obtain ⟨hm, hlines⟩ :=
                  ih hmore (ended_tail hended) hrest (Nat.succ_pos c) (n + 1) (n + 1) (l + 1)
                refine ⟨hm.trans ?_, hlines⟩
                split
                next hnil => simp [hnil]
                next => rfl
          · obtain ⟨hne, hended'⟩ := ended_cons_of_ne hx hended
            rw [hplain hx]
            cases c with
            | zero => exact absurd (List.append_eq_nil_iff.mp hmore.symm).1 hne
            | succ c =>
                rw [if_neg (by simp; omega)]
                obtain ⟨hm, hlines⟩ := ih hmore hended' hrest (Nat.succ_pos c) (n + 1) m l
                rw [if_neg hne] at hm
                exact ⟨hm, hlines⟩

/-- No whole lines in front reach beyond the last line there is. -/
theorem length_le_of_ended {p rest q : List Char} (hrest : '\n' ∉ rest) (hq : q <+: p ++ rest)
    (hended : Ended '\n' q) : q.length ≤ p.length := by
  by_contra hlt
  obtain ⟨x, rfl⟩ := List.prefix_of_prefix_length_le (List.prefix_append p rest) hq (by omega)
  have hx : x ≠ [] := by
    rintro rfl
    simp at hlt
  have hlast : x.getLast? = some '\n' := by
    rcases hended with hnil | hlast
    · exact absurd (List.append_eq_nil_iff.mp hnil).2 hx
    · rwa [List.getLast?_append_of_ne_nil _ hx] at hlast
  have hpre := (List.prefix_append_right_inj p).mp hq
  exact hrest (hpre.subset (List.mem_of_getLast? hlast))

theorem foundLines_all (u : List Char) (chars : Int) :
    ∃ p, WholeLines u chars (-1) p ∧ (foundLines u chars (-1)).1 = p.length := by
  by_cases hchars : chars ≤ 0
  · refine ⟨[], ⟨List.nil_prefix, .inl rfl, by omega, fun _ => ⟨by simp, fun q _ _ hq => ?_⟩,
      fun _ => rfl⟩, by simp [foundLines, hchars]⟩
    rw [max_eq_right hchars] at hq
    simpa using hq
  · obtain ⟨c, rfl⟩ := Int.eq_ofNat_of_zero_le (show 0 ≤ chars by omega)
    obtain ⟨p, rest, htake, hended, hrest⟩ := exists_ended '\n' (u.take c)
    have hpre : p <+: u.take c := htake ▸ List.prefix_append p rest
    refine ⟨p, ⟨hpre.trans (List.take_prefix c u), hended, by omega, fun _ => ⟨?_, ?_⟩, by omega⟩,
      ?_⟩
    · have hle := hpre.length_le
      rw [List.length_take] at hle
      omega
    · intro q hq hqe hqle
      refine length_le_of_ended hrest ?_ hqe
      rw [← htake]
      exact List.prefix_take_iff.mpr ⟨hq, by omega⟩
    · obtain ⟨hm, hlines⟩ := scan_bounded htake hended hrest (by omega) 0 0 0 0
      have hscan : (foundLines u c (-1)).1 = (LineSearch.scan ⟨0, 0, 0, 0, c, -1⟩ u).m := by
        rw [foundLines, if_neg (by omega)]
        simp only [show ¬ (-1 : Int) > 0 by decide, if_false, hlines]
      rw [hscan, hm]
      split
      next hnil => simp [hnil]
      next => omega

theorem foundLines_count (u : List Char) (chars : Int) (k : Nat) :
    ∃ p, WholeLines u chars (k + 1 : Nat) p ∧ (foundLines u chars (k + 1 : Nat)).1 = p.length := by
  have hpos : ((k + 1 : Nat) : Int) > 0 := by omega
  have hguard : ¬ (((k + 1 : Nat) : Int) = 0 ∨ (((k + 1 : Nat) : Int) ≤ -1 ∧ chars ≤ 0)) := by omega
  by_cases hcount : k + 1 ≤ u.count '\n'
  · obtain ⟨p, ⟨rest, rfl⟩, hended, hp⟩ := exists_lines hcount
    refine ⟨p, ⟨List.prefix_append p rest, hended, fun _ => .inl (by rw [hp]), by omega, by omega⟩,
      ?_⟩
    rw [foundLines, if_neg hguard, if_pos hpos, scan_lines rest hended hp]
    simp
  · have hlt : u.count '\n' < k + 1 := Nat.lt_of_not_le hcount
    refine ⟨[], ⟨List.nil_prefix, .inl rfl, fun _ => .inr ⟨rfl, by omega⟩, by omega, by omega⟩, ?_⟩
    have hmissing := scan_few hlt 0 0 0 0
    rw [foundLines, if_neg hguard, if_pos hpos]
    simp only
    rw [if_pos (by omega)]
    rfl

/-- What is found are whole lines. -/
theorem foundLines_whole (u : List Char) (chars : Int) {lines : Int} (hlines : -1 ≤ lines) :
    ∃ p, WholeLines u chars lines p ∧ (foundLines u chars lines).1 = p.length := by
  rcases lt_trichotomy lines 0 with hneg | rfl | hpos
  · obtain rfl : lines = -1 := by omega
    exact foundLines_all u chars
  · exact ⟨[], ⟨List.nil_prefix, .inl rfl, by omega, by omega, fun _ => rfl⟩, rfl⟩
  · obtain ⟨k, rfl⟩ := Int.eq_succ_of_zero_lt hpos
    exact foundLines_count u chars k

/-! ## The scan back -/

/-- One byte of the scan back: a newline is in front of the lines found. -/
def LineSearch.takeBack (s : LineSearch) (c : Char) : LineSearch :=
  if c = '\n' then s.count.found s.n else s.count

/-- The loop of `cbuf_find_replay_line` on a list of bytes, the last one first. -/
def LineSearch.scanBack : LineSearch → List Char → LineSearch
  | s, [] => s
  | s, c :: u =>
      if (s.takeBack c).chars = 0 ∨ (s.takeBack c).lines = 0 then s.takeBack c
      else LineSearch.scanBack (s.takeBack c) u

theorem LineSearch.n_takeBack (s : LineSearch) (c : Char) : (s.takeBack c).n = s.n + 1 := by
  unfold LineSearch.takeBack
  split <;> rfl

theorem LineSearch.takeBack_with (s : LineSearch) (c : Char) (i : Int) :
    LineSearch.takeBack { s with i := i } c = { s.takeBack c with i := i } := by
  unfold LineSearch.takeBack
  split <;> rfl

theorem LineSearch.scanBack_with (s : LineSearch) (u : List Char) (i : Int) :
    LineSearch.scanBack { s with i := i } u = { s.scanBack u with i := i } := by
  induction u generalizing s with
  | nil => rfl
  | cons c u ih =>
      rw [LineSearch.scanBack, LineSearch.scanBack, LineSearch.takeBack_with]
      simp only
      split
      · rfl
      · exact ih _

theorem replayLoop_succ (cb : Cbuf) (fuel : Nat) (s : LineSearch) (hne : s.i ≠ cb.i_rep) {j : Int}
    (hj : (cint (s.i + cb.size)).tmod (cb.size + 1) = j) :
    cb.replayLoop (fuel + 1) s =
      if (s.takeBack (cb.data j)).chars = 0 ∨ (s.takeBack (cb.data j)).lines = 0 then
        { s.takeBack (cb.data j) with i := j }
      else cb.replayLoop fuel { s.takeBack (cb.data j) with i := j } := by
  have hn : (LineSearch.count { s with i := j }).n - 1 = s.n := by simp [LineSearch.count]
  rw [replayLoop, if_pos hne]
  simp only [hj, hn]
  show (let t := LineSearch.takeBack { s with i := j } (cb.data j)
    if t.chars = 0 ∨ t.lines = 0 then t else cb.replayLoop fuel t) = _
  rw [LineSearch.takeBack_with]

/-- The byte the loop looks at next. -/
theorem Inv.drop_replayable (h : Inv cb r) {k : Nat} (hk : (k : Int) < r) :
    cb.replayable.reverse.drop k =
      cb.data ((cb.i_out - (k + 1)) % (cb.size + 1)) :: cb.replayable.reverse.drop (k + 1) := by
  have hlen := h.length_replayable
  obtain ⟨m, hm⟩ := Int.eq_ofNat_of_zero_le (show 0 ≤ r - (k + 1) by omega)
  have hlong : cb.replayable.length - k = m + 1 := by omega
  have hshort : cb.replayable.length - (k + 1) = m := by omega
  have hindex : (cb.i_rep + m) % (cb.size + 1) = (cb.i_out - (k + 1)) % (cb.size + 1) := by
    rw [h.rep_eq, h.out_eq, Int.emod_add_emod, Int.emod_sub_emod]
    congr 1
    omega
  rw [List.drop_reverse, List.drop_reverse, hlong, hshort, replayable, h.reused_eq,
    take_slice (by omega), take_slice (by omega), slice_add, slice, slice, hindex,
    List.reverse_append]
  rfl

/-- The loop looks at the replayable bytes from the last one on. -/
theorem Inv.replayLoop_eq (h : Inv cb r) (fuel : Nat) {s : LineSearch} {k : Nat} (hk : s.n = k)
    (hle : (k : Int) ≤ r) (hi : s.i = (cb.i_out - k) % (cb.size + 1)) (hfuel : r < k + fuel) :
    ∃ i, cb.replayLoop fuel s = { s.scanBack (cb.replayable.reverse.drop k) with i := i } := by
  have hpos := h.size_pos
  have hroom := h.twice_size
  have hr := h.rep_nonneg
  have hfits := h.fits
  have hused := h.used_nonneg
  have hlen := h.length_replayable
  unfold CBUF_CHUNK at hroom
  induction fuel generalizing s k with
  | zero => omega
  | succ fuel ih =>
      by_cases hne : s.i ≠ cb.i_rep
      · -- not at the first replayable byte yet: one more is in front
        have hlt : (k : Int) < r := by
          refine lt_of_le_of_ne hle fun heq => hne ?_
          rw [hi, heq, h.out_eq, h.rep_eq, Int.emod_sub_emod]
          congr 1
          omega
        have hbounds := Int.emod_nonneg (cb.i_out - k) (show cb.size + 1 ≠ 0 by omega)
        have hlt' := Int.emod_lt_of_pos (cb.i_out - k) (show 0 < cb.size + 1 by omega)
        have hnext : (cint (s.i + cb.size)).tmod (cb.size + 1) =
            (cb.i_out - (k + 1)) % (cb.size + 1) := by
          rw [tmod_cint (by omega) (by omega), hi, Int.emod_add_emod,
            ← Int.add_emod_right (cb.i_out - (k + 1))]
          congr 1
          omega
        rw [replayLoop_succ cb fuel s hne hnext, h.drop_replayable hlt, LineSearch.scanBack]
        split
        · exact ⟨_, rfl⟩
        · obtain ⟨i, hloop⟩ :=
              @ih { s.takeBack (cb.data ((cb.i_out - (k + 1)) % (cb.size + 1))) with
            i := (cb.i_out - (k + 1)) % (cb.size + 1) } (k + 1)
            (by simp only [LineSearch.n_takeBack, hk]; push_cast; rfl) (by omega)
            (by push_cast; rfl) (by omega)
          refine ⟨i, ?_⟩
          rw [hloop, LineSearch.scanBack_with]
      · -- the places are the same modulo the size, and less than a round apart
        have heq := not_not.mp hne
        have hall : (k : Int) = r := by
          have hmod : (cb.i_in - cb.used - k) % (cb.size + 1) =
              (cb.i_in - (r + cb.used)) % (cb.size + 1) := by
            rw [← Int.emod_sub_emod, ← h.out_eq, ← hi, heq, h.rep_eq]
          have hsame := eq_of_emod_eq hmod (by rw [abs_lt]; omega)
          omega
        refine ⟨s.i, ?_⟩
        have hnil : cb.replayable.reverse.drop k = [] := by
          rw [List.drop_eq_nil_iff, List.length_reverse]
          omega
        rw [hnil, LineSearch.scanBack, replayLoop, if_neg hne]

/-- With one newline more to find than there are in `v` the scan goes on behind it. -/
theorem scanBack_through {v : List Char} {k : Nat} (hcount : v.count '\n' = k) (rest : List Char)
    (i n m l : Int) :
    ∃ m', LineSearch.scanBack ⟨i, n, m, l, -1, (k + 1 : Nat)⟩ (v ++ rest) =
      LineSearch.scanBack ⟨i, n + v.length, m', l + k, -1, 1⟩ rest := by
  induction v generalizing n m l k with
  | nil =>
      obtain rfl : k = 0 := by simpa using hcount.symm
      exact ⟨m, by simp⟩
  | cons c v ih =>
      rw [List.cons_append, LineSearch.scanBack]
      by_cases hc : c = '\n'
      · subst hc
        obtain ⟨k, rfl⟩ : ∃ j, k = j + 1 := ⟨v.count '\n', by simpa using hcount.symm⟩
        have htake : LineSearch.takeBack ⟨i, n, m, l, -1, (k + 1 + 1 : Nat)⟩ '\n' =
            ⟨i, n + 1, n, l + 1, -1, (k + 1 : Nat)⟩ := by
          simp [LineSearch.takeBack, LineSearch.count, LineSearch.found]
          omega
        obtain ⟨m', hscan⟩ := ih (by simpa using hcount) (n + 1) n (l + 1)
        refine ⟨m', ?_⟩
        rw [htake, if_neg (by simp; omega), hscan, List.length_cons]
        congr 2
        · push_cast
          omega
        · push_cast
          omega
      · have htake : LineSearch.takeBack ⟨i, n, m, l, -1, (k + 1 : Nat)⟩ c =
            ⟨i, n + 1, m, l, -1, (k + 1 : Nat)⟩ := by
          simp [LineSearch.takeBack, LineSearch.count, hc]
        obtain ⟨m', hscan⟩ := ih (by simpa [hc] using hcount) (n + 1) m l
        refine ⟨m', ?_⟩
        rw [htake, if_neg (by simp; omega), hscan, List.length_cons]
        congr 2
        push_cast
        omega

/-- The last byte that can be replayed, as the code finds it. -/
theorem Inv.last_replayable (h : Inv cb r) {c : Char} (hlast : cb.replayable.getLast? = some c) :
    cb.data ((cint (cb.i_out + cb.size)).tmod (cb.size + 1)) = c ∧ cb.i_out ≠ cb.i_rep := by
  have hroom := h.twice_size
  have hpos := h.size_pos
  have hout := h.out_bounds
  have hfits := h.fits
  have hused := h.used_nonneg
  have hlen := h.length_replayable
  unfold CBUF_CHUNK at hroom
  have hr : 0 < r := by
    cases hrep : cb.replayable with
    | nil => simp [hrep] at hlast
    | cons d u =>
        rw [hrep, List.length_cons] at hlen
        omega
  have hdrop := h.drop_replayable (k := 0) hr
  rw [List.drop_zero, Int.natCast_zero, Int.zero_add] at hdrop
  constructor
  · rw [← List.head?_reverse, hdrop, List.head?_cons, Option.some.injEq] at hlast
    rw [tmod_cint (by omega) (by omega), ← hlast, ← Int.add_emod_right (cb.i_out - 1)]
    congr 2
    omega
  · intro heq
    rw [h.out_eq, h.rep_eq] at heq
    have hsame := eq_of_emod_eq heq (by rw [abs_lt]; omega)
    omega

/-- Behind whole lines that were read from the start of a line, the search for as many lines finds
them, or nothing when the start may have been overwritten. -/
theorem Inv.findReplayLine_lines (h : Inv cb r) {before p : List Char}
    (hreplay : cb.replayable = before ++ p) (hbefore : Ended '\n' before) (hp : Ended '\n' p)
    (hne : p ≠ []) (chars : Int) :
    (cb.findReplayLine chars (p.count '\n')).m = p.length ∨
      (cb.findReplayLine chars (p.count '\n')).m = 0 := by
  have hroom := h.twice_size
  have hfits := h.fits
  have hused := h.used_nonneg
  have hr := h.rep_nonneg
  have hout := h.out_bounds
  have hlen := h.length_replayable
  unfold CBUF_CHUNK at hroom
  have hlastp : p.getLast? = some '\n' := hp.resolve_left hne
  have hlast : cb.replayable.getLast? = some '\n' := by
    rw [hreplay, List.getLast?_append_of_ne_nil _ hne, hlastp]
  obtain ⟨hdata, hdiffer⟩ := h.last_replayable hlast
  have hcount : 0 < p.count '\n' := List.count_pos_iff.mpr (List.mem_of_getLast? hlastp)
  have hcount_le : (p.count '\n' : Int) ≤ r := by
    have hle := List.count_le_length (a := '\n') (l := p)
    rw [hreplay, List.length_append] at hlen
    omega
  -- the newline at the end is the one more that is looked for
  have hlines : cint ((p.count '\n' : Int) + 1) = (p.count '\n' + 1 : Nat) := by
    rw [cint_eq (by omega) (by omega)]
    push_cast
    rfl
  obtain ⟨i, hloop⟩ := h.replayLoop_eq (cb.size + 1).toNat
    (s := ⟨cb.i_out, 0, 0, -1, -1, (p.count '\n' + 1 : Nat)⟩) (k := 0) rfl hr
    (by simp [Int.emod_eq_of_lt hout.1 (show cb.i_out < cb.size + 1 by omega)]) (by omega)
  obtain ⟨m', hscan⟩ := scanBack_through (v := p.reverse) (k := p.count '\n')
    (List.count_reverse ..) before.reverse cb.i_out 0 0 (-1)
  rw [List.drop_zero, hreplay, List.reverse_append, hscan] at hloop
  have hguard : ¬ ((p.count '\n' : Int) = 0 ∨ ((p.count '\n' : Int) ≤ -1 ∧ chars ≤ 0)) := by omega
  have hpos : (p.count '\n' : Int) > 0 := by omega
  rw [findReplayLine, if_neg hguard, if_neg hdiffer]
  simp only [hpos, hdata, hlines, if_true, and_self]
  rw [hloop]
  rcases hbefore with rfl | hlastb
  · -- nothing is in front: it is the start of a line unless bytes were overwritten
    rw [List.reverse_nil, LineSearch.scanBack]
    cases cb.got_wrap with
    | true => exact .inr (by simp)
    | false => exact .inl (by simp [LineSearch.found])
  · obtain ⟨u, hu⟩ : ∃ u, before.reverse = '\n' :: u := by
      rw [← List.head?_reverse] at hlastb
      exact List.head?_eq_some_iff.mp hlastb
    refine .inl ?_
    rw [hu, LineSearch.scanBack]
    simp [LineSearch.takeBack, LineSearch.count, LineSearch.found]

/-! ## Reads, peeks and rewinds -/

/-- The bytes put into a buffer of `len` bytes: as many as there is room for, and a NUL. -/
def lineBytes (len : Int) (p : List Char) : List Char :=
  if p = [] ∨ len ≤ 0 then [] else p.take (len - 1).toNat ++ ['\x00']

theorem Inv.lineText_eq (h : Inv cb r) (len : Int) {p : List Char} (hp : p <+: cb.unread) :
    cb.lineText len p.length = lineBytes len p := by
  obtain ⟨rest, hrest⟩ := hp
  unfold lineText lineBytes
  by_cases hnone : p = [] ∨ len ≤ 0
  · have hzero : ¬ ((p.length : Int) > 0 ∧ len > 0) := by
      rcases hnone with rfl | hle
      · simp
      · omega
    rw [if_pos hnone, if_neg hzero]
  · obtain ⟨hne, hlen⟩ := not_or.mp hnone
    have hpos := List.length_pos_iff.mpr hne
    have htake : cb.unread.take (min (p.length : Int) (len - 1)).toNat =
        p.take (len - 1).toNat := by
      rw [← hrest, List.take_append_of_le_length (by omega)]
      rcases le_total (p.length : Int) (len - 1) with hle | hge
      · rw [min_eq_left hle, List.take_of_length_le (by omega), List.take_of_length_le (by omega)]
      · rw [min_eq_right hge]
    rw [if_neg hnone, if_pos (by omega)]
    dsimp only
    split
    next hm => rw [reader_mem h (by omega), List.nil_append, htake]
    next hm =>
      rw [← htake, show (min (p.length : Int) (len - 1)).toNat = 0 by omega]
      rfl

theorem dropRead_zero (cb : Cbuf) : cb.dropRead (.ok 0) = cb := rfl

/-- A read takes whole lines and delivers what a peek shows. -/
theorem Inv.readLine_eq (h : Inv cb r) {len lines : Int} (hlen : 0 ≤ len) (hlines : -1 ≤ lines) :
    ∃ p, WholeLines cb.unread (len - 1) lines p ∧
      cb.readLine false len lines = (.ok p.length, lineBytes len p, cb.dropRead (.ok p.length)) ∧
      cb.peekLine false len lines = (.ok p.length, lineBytes len p) := by
  obtain ⟨p, hwhole, hfound⟩ := foundLines_whole cb.unread (len - 1) hlines
  have hvalid : ¬ (false = true ∨ len < 0 ∨ lines < -1) := by simp; omega
  refine ⟨p, hwhole, ?_, ?_⟩
  · rw [readLine, if_neg hvalid]
    split
    next hzero => simp [hwhole.none hzero, lineBytes, dropRead_zero]
    next => simp only [h.findUnreadLine_eq, hfound, h.lineText_eq len hwhole.starts]
  · rw [peekLine, if_neg hvalid]
    split
    next hzero => simp [hwhole.none hzero, lineBytes]
    next => simp only [h.findUnreadLine_eq, hfound, h.lineText_eq len hwhole.starts]

/-- What is left behind a read: the lines moved to the replayable bytes. -/
theorem Inv.dropRead_lines (h : Inv cb r) {p : List Char} (hp : p <+: cb.unread) :
    ∃ r', Inv (cb.dropRead (.ok p.length)) r' ∧
      cb.unread = p ++ (cb.dropRead (.ok p.length)).unread ∧
      (cb.dropRead (.ok p.length)).replayable = cb.replayable ++ p := by
  obtain ⟨rest, hrest⟩ := hp
  have hlen := h.length_unread
  have hle : (p.length : Int) ≤ cb.used := by
    rw [← hrest, List.length_append] at hlen
    omega
  obtain ⟨r', hinv⟩ := h.dropFound ⟨Int.natCast_nonneg p.length, hle⟩
  have hret : ∀ n : Int, Except.ok (ε := Errno) (p.length : Int) = .ok n → 0 ≤ n ∧ n ≤ cb.used := by
    rintro n ⟨⟩
    exact ⟨Int.natCast_nonneg p.length, hle⟩
  have hview := view_dropRead h hret [] 0
  have hunread := congrArg TwoPart.unread hview
  have hreplay := congrArg TwoPart.replay hview
  simp only [view, TwoPart.moved, TwoPart.drop, Int.toNat_natCast, ← hrest] at hunread hreplay
  rw [List.drop_left] at hunread
  rw [List.take_left] at hreplay
  exact ⟨r', hinv, by rw [hunread, hrest], hreplay⟩

/-- A rewind for as many lines as were read gives all of them back, or does nothing. -/
theorem Inv.rewindLine_lines (h : Inv cb r) {before p : List Char}
    (hreplay : cb.replayable = before ++ p) (hbefore : Ended '\n' before) (hp : Ended '\n' p)
    (hne : p ≠ []) {len : Int} (hlen : 0 ≤ len) :
    ((cb.rewindLine len (p.count '\n')).1 = .ok p.length ∧
        (cb.rewindLine len (p.count '\n')).2.unread = p ++ cb.unread) ∨
      cb.rewindLine len (p.count '\n') = (.ok 0, cb) := by
  have hr := h.length_replayable
  have hcount : 0 < p.count '\n' :=
    List.count_pos_iff.mpr (List.mem_of_getLast? (hp.resolve_left hne))
  rw [rewindLine, if_neg (by omega), if_neg (by omega)]
  dsimp only
  rcases h.findReplayLine_lines hreplay hbefore hp hne len with hm | hm
  · refine .inl ⟨by rw [hm], ?_⟩
    have hle : (p.length : Int) ≤ r := by
      rw [hreplay, List.length_append] at hr
      omega
    have hview := congrArg TwoPart.unread (view_rewound h (Int.natCast_nonneg p.length) hle)
    simp only [view, TwoPart.rewind, Int.toNat_natCast] at hview
    rw [hm, hview, hreplay, rtake_append_of_le le_rfl, rtake_of_length_le le_rfl]
  · refine .inr ?_
    rw [hm]
    rfl

/-- Line reads are exact: a read takes whole lines as they were asked for and returns their length,
a peek shows the same and changes nothing, and where the unread bytes began at the start of a line
a rewind for the lines read restores them, or returns 0 and changes nothing. -/
theorem line_reads_exact (h : Inv cb r) {len lines : Int} (hlen : 0 ≤ len) (hlines : -1 ≤ lines) :
    ∃ p cb', WholeLines cb.unread (len - 1) lines p ∧
      cb.call (.read_line false len lines) = (⟨.ok p.length, lineBytes len p, 0⟩, cb') ∧
      cb.unread = p ++ cb'.unread ∧ (p = [] → cb' = cb) ∧
      cb.call (.peek_line false len lines) = (⟨.ok p.length, lineBytes len p, 0⟩, cb) ∧
      (Ended '\n' cb.replayable → p ≠ [] → ∀ size, 0 ≤ size →
        ((cb'.call (.rewind_line size (p.count '\n'))).1.ret = .ok p.length ∧
            (cb'.call (.rewind_line size (p.count '\n'))).2.unread = cb.unread) ∨
          cb'.call (.rewind_line size (p.count '\n')) = (⟨.ok 0, [], 0⟩, cb')) := by
  obtain ⟨p, hwhole, hread, hpeek⟩ := h.readLine_eq hlen hlines
  obtain ⟨r', hinv, hunread, hreplay⟩ := h.dropRead_lines hwhole.starts
  refine ⟨p, cb.dropRead (.ok p.length), hwhole, ?_, hunread, ?_, ?_, ?_⟩
  · simp only [call, hread]
  · rintro rfl
    exact dropRead_zero cb
  · simp only [call, hpeek]
  · intro hstart hne size hsize
    rcases hinv.rewindLine_lines hreplay hstart hwhole.ended hne hsize with ⟨hret, hback⟩ | hnone
    · exact .inl ⟨hret, by rw [hunread]; exact hback⟩
    · exact .inr (by simp only [call, hnone])

/-- One line of two is read from a buffer of eight bytes. -/
theorem line_reads_exact_one : ∃ cb : Cbuf, cb.unread = "ab\ncd\n".toList ∧
    ∃ p cb', WholeLines cb.unread 7 1 p ∧
      cb.call (.read_line false 8 1) = (⟨.ok p.length, lineBytes 8 p, 0⟩, cb') ∧
      cb.unread = p ++ cb'.unread := by
  have hcreate : create true true (fun _ => 'z') 8 8 = .ok _ := rfl
  obtain ⟨hinv, -⟩ := inv_create (by decide) hcreate
  obtain ⟨r, hwritten⟩ := hinv.writeLine (s := "ab\ncd".toList) (by decide)
    (hinv.fitsInt (by decide)) fun _ => true
  obtain ⟨p, cb', hwhole, hread, hunread, -⟩ := line_reads_exact hwritten
    (show (0 : Int) ≤ 8 by decide) (show (-1 : Int) ≤ 1 by decide)
  exact ⟨_, by decide, p, cb', hwhole, hread, hunread⟩

/-- A buffer of 1500000000 bytes behind a write of 1400000006 and a drop of 1400000000 of them. -/
def farBuffer : Cbuf where
  magic := []
  alloc := 1500000001
  minsize := 1500000000
  maxsize := 1500000000
  size := 1500000000
  used := 6
  overwrite := .CBUF_WRAP_MANY
  got_wrap := false
  i_in := 1400000006
  i_out := 1400000000
  i_rep := 0
  data i := if i < 1400000000 then '\n' else memoryOf "ab\ncd\n".toList (i - 1400000000)

/-- The byte in front of the unread ones ends a line, and the first of two lines is read. The rewind for
it adds the index of the next one to the size, which is more than an `int` holds, and puts back one byte
that was not read. -/
theorem line_rewind_overflows : farBuffer.IsValid ∧
    farBuffer.data 1399999999 = '\n' ∧ Ended '\n' farBuffer.replayable ∧ farBuffer.unread = "ab\ncd\n".toList ∧
    (farBuffer.call (.read_line false 8 1)).1.ret = .ok 3 ∧
    ((farBuffer.call (.read_line false 8 1)).2.call (.rewind_line 8 1)).1.ret = .ok 1 ∧
    ((farBuffer.call (.read_line false 8 1)).2.call (.rewind_line 8 1)).2.i_out < 0 := by
  refine ⟨?_, by decide +kernel, ?_, by decide +kernel, by decide +kernel, by decide +kernel, by decide +kernel⟩
  · refine ⟨?_, ?_, ?_, ?_, ?_, ?_, ?_, ?_, ?_, ?_, ?_, ?_, ?_, ?_, ?_, ?_, ?_, ?_, ?_, ?_, ?_⟩ <;> decide +kernel
  · -- their number is an `int` as well, and comes out below 0
    have hreused : farBuffer.reused.toNat = 0 := by decide +kernel
    rw [replayable, hreused]
    exact .inl rfl

end Cbuf

end Pdsh
