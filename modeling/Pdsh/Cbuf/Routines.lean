import Pdsh.Cbuf.Invariant

/-!
# The helper routines of a circular buffer

What `cbuf_create`, `cbuf_dropper`, `cbuf_grow` and the loops of `cbuf_reader`, `cbuf_writer`
and `cbuf_copier` do to the history of a buffer and to the number of bytes in it that can be
replayed.
-/

namespace Pdsh

open Lib.Ring

namespace Cbuf

variable {cb : Cbuf} {r : Int}

/-! ## Creating, dropping, rewinding -/

theorem Inv.history_eq_nil (h : Inv cb 0) (hused : cb.used = 0) : cb.history = [] := by
  have hlen := h.length_history
  rw [hused] at hlen
  exact List.length_eq_zero_iff.mp (by omega)

/-- A new buffer holds together and holds nothing. -/
theorem inv_create {ndebug mallocs : Bool} {heap : Int → Char} {minsize maxsize : Int}
    (hroom : 2 * (max minsize maxsize + 1 + 2 * (CBUF_MAGIC ndebug).length) + CBUF_CHUNK ≤ INT_MAX)
    (h : create ndebug mallocs heap minsize maxsize = .ok cb) : Inv cb 0 ∧ cb.history = [] := by
  unfold create at h
  split at h
  · cases h
  · rename_i hmin
    simp only at h
    split at h
    · unfold CBUF_CHUNK at hroom
      have halloc : cint (minsize + 1 + 2 * (CBUF_MAGIC ndebug).length) =
          minsize + 1 + 2 * (CBUF_MAGIC ndebug).length := cint_eq (by omega) (by omega)
      have hinv : Inv cb 0 := by
        cases h
        exact {
          underflow := (block_blit_of_disjoint (.inl (by omega))).trans (block_blit_self ..)
          overflow := block_blit_self ..
          alloc_eq := halloc
          min_pos := by simp only; omega
          min_le := le_rfl
          le_max := by simp only; split <;> omega
          room := by simp only [CBUF_CHUNK]; split <;> omega
          in_nonneg := le_rfl
          in_le := by simp only; omega
          used_nonneg := le_rfl
          rep_nonneg := le_rfl
          fits := by simp only; omega
          out_eq := by simp
          rep_eq := by simp
          wrap := .inr rfl }
      exact ⟨hinv, hinv.history_eq_nil (by cases h; rfl)⟩
    · cases h

/-- A flushed buffer holds nothing. -/
theorem Inv.flush (h : Inv cb r) : Inv cb.flush 0 ∧ cb.flush.history = [] := by
  have hinv : Inv cb.flush 0 := { h with
    in_nonneg := le_rfl
    in_le := h.size_pos.le
    used_nonneg := le_rfl
    rep_nonneg := le_rfl
    fits := h.size_pos.le
    out_eq := by simp [Cbuf.flush]
    rep_eq := by simp [Cbuf.flush]
    wrap := .inr rfl }
  exact ⟨hinv, hinv.history_eq_nil rfl⟩

/-- The same history, of which `r'` bytes can be replayed now. -/
theorem Inv.shift (h : Inv cb r) {r' used i_out : Int} (hr : 0 ≤ r') (hused : 0 ≤ used)
    (hsum : r' + used = r + cb.used) (hout : i_out = (cb.i_in - used) % (cb.size + 1)) :
    Inv { cb with used := used, i_out := i_out } r' ∧
      history { cb with used := used, i_out := i_out } = cb.history := by
  have hinv : Inv { cb with used := used, i_out := i_out } r' := { h with
    used_nonneg := hused
    rep_nonneg := hr
    fits := by simp only [hsum]; exact h.fits
    out_eq := hout
    rep_eq := by simp only [hsum]; exact h.rep_eq }
  refine ⟨hinv, ?_⟩
  rw [hinv.history_eq, h.history_eq]
  simp only [hsum]

/-- Bytes that are dropped can be replayed. -/
theorem Inv.dropper (h : Inv cb r) {len : Int} (hlen : 0 ≤ len) (hle : len ≤ cb.used) :
    Inv (cb.dropper len) (r + len) ∧ (cb.dropper len).history = cb.history := by
  have hout := h.out_bounds
  have hroom := h.twice_size
  have hr := h.rep_nonneg
  have hfits := h.fits
  unfold CBUF_CHUNK at hroom
  have hdrop : cb.dropper len = { cb with
      used := cb.used - len, i_out := (cint (cb.i_out + len)).tmod (cb.size + 1) } := by
    unfold Cbuf.dropper shrink
    simp only [ite_self]
  rw [hdrop]
  apply h.shift (by omega) (by omega) (by omega)
  rw [tmod_cint (by omega) (by omega), h.out_eq, Int.emod_add_emod]
  congr 1
  omega

/-- Bytes that are rewound are unread again. -/
theorem Inv.rewound (h : Inv cb r) {len : Int} (hlen : 0 ≤ len) (hle : len ≤ r) :
    Inv (cb.rewound len) (r - len) ∧ (cb.rewound len).history = cb.history := by
  have hout := h.out_bounds
  have hroom := h.twice_size
  have hused := h.used_nonneg
  have hfits := h.fits
  unfold CBUF_CHUNK at hroom
  unfold Cbuf.rewound
  split
  · apply h.shift (by omega) (by omega) (by omega)
    rw [tmod_cint (by omega) (by omega), Int.add_emod_right, h.out_eq, Int.emod_sub_emod]
    congr 1
    omega
  · obtain rfl : len = 0 := by omega
    rw [Int.sub_zero]
    exact ⟨h, rfl⟩

/-! ## Growing -/

/-- What growing keeps, and what it may change. -/
structure Grown (cb cb' : Cbuf) : Prop where
  magic : cb'.magic = cb.magic
  minsize : cb'.minsize = cb.minsize
  maxsize : cb'.maxsize = cb.maxsize
  overwrite : cb'.overwrite = cb.overwrite
  used : cb'.used = cb.used
  size_le : cb.size ≤ cb'.size
  history : cb'.history = cb.history

theorem Grown.refl (cb : Cbuf) : Grown cb cb := ⟨rfl, rfl, rfl, rfl, rfl, le_rfl, rfl⟩

/-- The size `cbuf_grow` asks for: the allocation is rounded up to a multiple of the chunk. -/
def grownSize (cb : Cbuf) (n : Int) : Int :=
  min (cb.alloc + n + (CBUF_CHUNK - (cb.alloc + n) % CBUF_CHUNK)) (cb.maxsize + (cb.alloc - cb.size)) -
    (cb.alloc - cb.size)

theorem grownSize_bounds {n : Int} (hn : 0 < n) (hsize : cb.size < cb.maxsize) :
    cb.size < cb.grownSize n ∧ cb.grownSize n ≤ cb.maxsize ∧
      (cb.size + n ≤ cb.grownSize n ∨ cb.grownSize n = cb.maxsize) := by
  have hmod := Int.emod_nonneg (cb.alloc + n) (show (1000 : Int) ≠ 0 by decide)
  have hlt := Int.emod_lt_of_pos (cb.alloc + n) (show (0 : Int) < 1000 by decide)
  unfold grownSize CBUF_CHUNK
  omega

theorem cint_grownSize {n : Int} (h : Inv cb r) (hn : 0 < n)
    (hlen : cb.alloc + n + (CBUF_CHUNK - (cb.alloc + n) % CBUF_CHUNK) ≤ INT_MAX) :
    min (cint (cint (cb.alloc + n) + (CBUF_CHUNK - (cint (cb.alloc + n)).tmod CBUF_CHUNK)))
        (cint (cb.maxsize + (cb.alloc - cb.size))) = cb.grownSize n + (cb.alloc - cb.size) := by
  have hroom := h.room
  have halloc := h.alloc_eq
  have hpos := h.size_pos
  have hmax := h.le_max
  unfold grownSize CBUF_CHUNK at *
  have hmod := Int.emod_nonneg (cb.alloc + n) (show (1000 : Int) ≠ 0 by decide)
  have hlt := Int.emod_lt_of_pos (cb.alloc + n) (show (0 : Int) < 1000 by decide)
  rw [cint_eq (n := cb.alloc + n) (by omega) (by omega), Int.tmod_eq_emod_of_nonneg (by omega),
    cint_eq (by omega) (by omega), cint_eq (by omega) (by omega)]
  omega

/-- The buffer in a ring of `size + 1` slots: what lies behind the wrap moves to the new end. -/
def relocated (cb : Cbuf) (size : Int) : Cbuf :=
  let data := blit cb.data (size + 1) cb.magic
  let grown := { cb with alloc := size + (cb.alloc - cb.size), size := size, data := data }
  let n := cb.size + 1 - cb.i_rep
  let m := size + 1 - n
  if cb.i_rep > cb.i_in then
    { grown with
      data := blit data m (block data cb.i_rep n.toNat)
      i_out := if cb.i_out ≥ cb.i_rep then cb.i_out + (m - cb.i_rep) else cb.i_out
      i_rep := m }
  else grown

theorem grow_eq {n : Int} (h : Inv cb r) (hn : 0 < n) (hsize : cb.size < cb.maxsize)
    (hlen : cb.alloc + n + (CBUF_CHUNK - (cb.alloc + n) % CBUF_CHUNK) ≤ INT_MAX) (reallocs : Bool) :
    cb.grow n reallocs =
      if reallocs then (cb.grownSize n - cb.size, cb.relocated (cb.grownSize n)) else (0, cb) := by
  have hm := cint_grownSize h hn hlen
  have hbounds := grownSize_bounds hn hsize
  have halloc := h.alloc_eq
  have hpos := h.size_pos
  unfold Cbuf.grow relocated
  simp only [hm, show ¬ cb.size = cb.maxsize by omega, if_false, Int.add_sub_cancel]
  cases reallocs with
  | false => simp
  | true =>
      rw [if_pos ⟨rfl, by omega⟩, if_pos rfl]
      split <;> rfl

/-- A ring that wraps is two blocks of memory. -/
theorem slice_wrapped {d : Int → Char} {M i : Int} {m n : Nat} (hi : 0 ≤ i) (hm : i + m = M) (hn : n ≤ M) :
    slice d M i (m + n) = block d i m ++ block d 0 n := by
  rw [slice_add, slice_eq_block hi hm.le, hm, ← slice_emod, Int.emod_self,
    slice_eq_block le_rfl (by omega)]

theorem Inv.history_wrapped (h : Inv cb r) (hwrap : cb.i_rep > cb.i_in) :
    cb.history = block cb.data cb.i_rep (cb.size + 1 - cb.i_rep).toNat ++
      block cb.data 0 cb.i_in.toNat := by
  have hin := h.in_nonneg
  have hle := h.in_le
  have hr := h.rep_nonneg
  have hused := h.used_nonneg
  have hfits := h.fits
  have hrep := h.rep_eq
  have hbounds := h.rep_bounds
  rw [h.history_eq, ← slice_emod, ← h.rep_eq]
  rw [emod_back hin (by omega) (by omega) (by omega)] at hrep
  split at hrep
  · omega
  · rw [show (r + cb.used).toNat = (cb.size + 1 - cb.i_rep).toNat + cb.i_in.toNat by omega]
    exact slice_wrapped hbounds.1 (by omega) (by omega)

theorem Inv.history_straight (h : Inv cb r) (hstraight : ¬ cb.i_rep > cb.i_in) :
    r + cb.used ≤ cb.i_in ∧ cb.history = block cb.data (cb.i_in - (r + cb.used)) (r + cb.used).toNat := by
  have hin := h.in_nonneg
  have hle := h.in_le
  have hr := h.rep_nonneg
  have hused := h.used_nonneg
  have hfits := h.fits
  have hrep := h.rep_eq
  rw [emod_back hin (by omega) (by omega) (by omega)] at hrep
  split at hrep
  · refine ⟨by omega, ?_⟩
    rw [h.history_eq, slice_eq_block (by omega) (by omega)]
  · omega

/-- Growing keeps what the buffer holds. -/
theorem Inv.relocated (h : Inv cb r) {size : Int} (hgt : cb.size < size) (hmax : size ≤ cb.maxsize) :
    Inv (cb.relocated size) r ∧ (cb.relocated size).history = cb.history := by
  have hin := h.in_nonneg
  have hle := h.in_le
  have hr := h.rep_nonneg
  have hused := h.used_nonneg
  have hfits := h.fits
  have hbounds := h.rep_bounds
  have hout := h.out_eq
  have hrep := h.rep_eq
  have hmin := h.min_le
  have halloc := h.alloc_eq
  rw [emod_back hin (by omega) (by omega) (by omega)] at hout hrep
  by_cases hwrap : cb.i_rep > cb.i_in
  · have hinv : Inv (cb.relocated size) r := by
      unfold Cbuf.relocated
      rw [if_pos hwrap]
      exact { h with
        underflow := by
          simp only
          rw [block_blit_of_disjoint (.inl (by omega)), block_blit_of_disjoint (.inl (by omega))]
          exact h.underflow
        overflow := by
          simp only
          rw [block_blit_of_disjoint (.inr (by rw [length_block]; omega)), block_blit_self]
        alloc_eq := by simp only; omega
        min_le := by simp only; omega
        le_max := hmax
        in_le := by simp only; omega
        fits := by simp only; omega
        out_eq := by
          simp only
          rw [emod_back hin (by omega) (by omega) (by omega)]
          split at hout <;> split at hrep <;> split <;> omega
        rep_eq := by
          simp only
          rw [emod_back hin (by omega) (by omega) (by omega)]
          split at hrep <;> split <;> omega
        wrap := .inl (h.wrap.resolve_right (by omega)) }
    refine ⟨hinv, ?_⟩
    have hwrap' : (cb.relocated size).i_rep > (cb.relocated size).i_in := by
      unfold Cbuf.relocated
      rw [if_pos hwrap]
      simp only
      omega
    rw [hinv.history_wrapped hwrap', h.history_wrapped hwrap]
    unfold Cbuf.relocated
    rw [if_pos hwrap]
    simp only
    rw [show size + 1 - (size + 1 - (cb.size + 1 - cb.i_rep)) = cb.size + 1 - cb.i_rep by omega]
    congr 1
    · have hself := block_blit_self (blit cb.data (size + 1) cb.magic)
        (size + 1 - (cb.size + 1 - cb.i_rep))
        (block (blit cb.data (size + 1) cb.magic) cb.i_rep (cb.size + 1 - cb.i_rep).toNat)
      rw [length_block] at hself
      rw [hself, block_blit_of_disjoint (.inl (by omega))]
    · rw [block_blit_of_disjoint (.inl (by omega)), block_blit_of_disjoint (.inl (by omega))]
  · obtain ⟨hstraight, hhistory⟩ := h.history_straight hwrap
    have hinv : Inv (cb.relocated size) r := by
      unfold Cbuf.relocated
      rw [if_neg hwrap]
      exact { h with
        underflow := by
          simp only
          rw [block_blit_of_disjoint (.inl (by omega))]
          exact h.underflow
        overflow := block_blit_self ..
        alloc_eq := by simp only; omega
        min_le := by simp only; omega
        le_max := hmax
        in_le := by simp only; omega
        fits := by simp only; omega
        out_eq := by
          simp only
          rw [emod_back hin (by omega) (by omega) (by omega)]
          split at hout <;> split <;> omega
        rep_eq := by
          simp only
          rw [emod_back hin (by omega) (by omega) (by omega)]
          split at hrep <;> split <;> omega }
    refine ⟨hinv, ?_⟩
    have hwrap' : ¬ (cb.relocated size).i_rep > (cb.relocated size).i_in := by
      unfold Cbuf.relocated
      rw [if_neg hwrap]
      exact hwrap
    rw [(hinv.history_straight hwrap').2, hhistory]
    unfold Cbuf.relocated
    rw [if_neg hwrap]
    simp only
    exact block_blit_of_disjoint (.inl (by omega))

theorem grown_relocated (h : Inv cb r) {size : Int} (hgt : cb.size < size) (hmax : size ≤ cb.maxsize) :
    Grown cb (cb.relocated size) := by
  have hhistory := (h.relocated hgt hmax).2
  unfold Cbuf.relocated at *
  split
  · rename_i hwrap
    rw [if_pos hwrap] at hhistory
    exact ⟨rfl, rfl, rfl, rfl, rfl, hgt.le, hhistory⟩
  · rename_i hwrap
    rw [if_neg hwrap] at hhistory
    exact ⟨rfl, rfl, rfl, rfl, rfl, hgt.le, hhistory⟩

@[simp] theorem size_relocated (cb : Cbuf) (size : Int) : (cb.relocated size).size = size := by
  unfold relocated
  split <;> rfl

/-- No `int` overflows when `len` bytes are written: neither the number of unread bytes, in a
buffer that takes them all, nor the size asked for, when the buffer has to grow. -/
def FitsInt (cb : Cbuf) (len : Int) : Prop :=
  (cb.overwrite = .CBUF_WRAP_MANY → cb.used + len ≤ INT_MAX) ∧
    (cb.size - cb.used < len → cb.size < cb.maxsize → cb.alloc + len + CBUF_CHUNK ≤ INT_MAX)

/-- Rounded up, the size asked for is still an `int`. -/
theorem Inv.rounded (h : Inv cb r) {len : Int} (hfit : cb.FitsInt len)
    (hneed : cb.size - cb.used < len) (hmax : cb.size < cb.maxsize) :
    cb.alloc + (len - (cb.size - cb.used)) +
      (CBUF_CHUNK - (cb.alloc + (len - (cb.size - cb.used))) % CBUF_CHUNK) ≤ INT_MAX := by
  have hfits := h.fits
  have hr := h.rep_nonneg
  have hroom := hfit.2 hneed hmax
  have hmod := Int.emod_nonneg (cb.alloc + (len - (cb.size - cb.used))) (show CBUF_CHUNK ≠ 0 by decide)
  omega

/-- Room is made in chunks. -/
theorem size_attemptGrow {len : Int} (h : Inv cb r) (hfit : cb.FitsInt len)
    (hneed : cb.size - cb.used < len) (hmax : cb.size < cb.maxsize) :
    (cb.attemptGrow len true).2.size = cb.grownSize (len - (cb.size - cb.used)) := by
  have hpos : 0 < len - (cb.size - cb.used) := by omega
  have hfits := h.fits
  have hr := h.rep_nonneg
  unfold Cbuf.attemptGrow
  simp only
  rw [if_pos ⟨hneed, hmax⟩, grow_eq h hpos hmax (h.rounded hfit hneed hmax), if_pos rfl,
    size_relocated]

/-- No room is made for bytes that fit. -/
theorem attemptGrow_eq_self {len : Int} {reallocs : Bool} (hfree : cb.used + len ≤ cb.size) :
    (cb.attemptGrow len reallocs).2 = cb := by
  unfold Cbuf.attemptGrow
  simp only
  rw [if_neg (by omega)]

/-- Making room for `len` bytes: a buffer that could be allocated has it, or is as large as it
may get. -/
theorem Inv.attemptGrow (h : Inv cb r) {len : Int} (hfit : cb.FitsInt len) (reallocs : Bool) :
    Inv (cb.attemptGrow len reallocs).2 r ∧ Grown cb (cb.attemptGrow len reallocs).2 ∧
      (cb.attemptGrow len reallocs).1 =
        (cb.attemptGrow len reallocs).2.size - (cb.attemptGrow len reallocs).2.used ∧
      (reallocs = true → cb.used + len ≤ (cb.attemptGrow len reallocs).2.size ∨
        (cb.attemptGrow len reallocs).2.size = cb.maxsize) ∧
      (reallocs = false → (cb.attemptGrow len reallocs).2 = cb) := by
  have hused := h.used_nonneg
  have hfits := h.fits
  have hr := h.rep_nonneg
  have hmax := h.le_max
  unfold Cbuf.attemptGrow
  simp only
  split
  · rename_i hneed
    have hpos : 0 < len - (cb.size - cb.used) := by omega
    obtain ⟨hgt, hle, henough⟩ := grownSize_bounds hpos hneed.2
    rw [grow_eq h hpos hneed.2 (h.rounded hfit hneed.1 hneed.2) reallocs]
    cases reallocs with
    | false =>
        refine ⟨h, Grown.refl cb, ?_, fun hf => absurd hf (by decide), fun _ => rfl⟩
        simp
    | true =>
        have hgrown := grown_relocated h hgt hle
        rw [if_pos rfl]
        refine ⟨(h.relocated hgt hle).1, hgrown, ?_, fun _ => ?_, fun hf => absurd hf (by decide)⟩
        · rw [hgrown.used, size_relocated]
          omega
        · rw [size_relocated]
          omega
  · refine ⟨h, Grown.refl cb, rfl, fun _ => ?_, fun _ => rfl⟩
    simp only
    omega

end Cbuf

end Pdsh
