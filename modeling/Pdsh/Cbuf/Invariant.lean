import Pdsh.Cbuf.Lines

/-!
# The representation invariant of a circular buffer

In a buffer that holds together, `i_in` fixes the rest: `i_out` lies `used` slots in front of
it, and `i_rep` as many slots further as there are bytes to replay. `Inv cb r` says so, with
`r` for the last number; `Inv.isValid` derives `cbuf_is_valid`. The bytes from `i_rep` to `i_in`
are the `history` of the buffer, and what each helper routine does is what it does to the
history and to `r`.
-/

namespace Pdsh

open Lib.Ring

theorem cint_eq {n : Int} (hlo : -2147483648 ≤ n) (hhi : n ≤ INT_MAX) : cint n = n := by
  unfold INT_MAX at hhi
  exact Int32.toInt_ofInt_of_le hlo (by simpa using Int.lt_of_le_of_lt hhi (by decide))

namespace Cbuf

/-- An index that did not overflow, brought back into the ring. -/
theorem tmod_cint {n M : Int} (hlo : 0 ≤ n) (hhi : n ≤ INT_MAX) : (cint n).tmod M = n % M := by
  rw [cint_eq (by omega) hhi, Int.tmod_eq_emod_of_nonneg hlo]

/-- The slot `k` in front of slot `i`. -/
theorem emod_back {i k M : Int} (hi : 0 ≤ i) (hlt : i < M) (hk : 0 ≤ k) (hle : k ≤ M) :
    (i - k) % M = if k ≤ i then i - k else i - k + M := by
  split
  · exact Int.emod_eq_of_lt (by omega) (by omega)
  · rw [← Int.add_emod_right, Int.emod_eq_of_lt (by omega) (by omega)]

/-- `r` bytes can be replayed and the buffer holds together. Its sizes leave room for the
sums of two of them that the code forms: `room` keeps `maxsize` below about `2^30`, half of
what an `int` holds, wherever `Inv` is assumed. -/
structure Inv (cb : Cbuf) (r : Int) : Prop where
  underflow : block cb.data (-cb.magic.length) cb.magic.length = cb.magic
  overflow : block cb.data (cb.size + 1) cb.magic.length = cb.magic
  alloc_eq : cb.alloc = cb.size + 1 + 2 * cb.magic.length
  min_pos : 0 < cb.minsize
  min_le : cb.minsize ≤ cb.size
  le_max : cb.size ≤ cb.maxsize
  room : 2 * (cb.maxsize + 1 + 2 * cb.magic.length) + CBUF_CHUNK ≤ INT_MAX
  in_nonneg : 0 ≤ cb.i_in
  in_le : cb.i_in ≤ cb.size
  used_nonneg : 0 ≤ cb.used
  rep_nonneg : 0 ≤ r
  fits : r + cb.used ≤ cb.size
  out_eq : cb.i_out = (cb.i_in - cb.used) % (cb.size + 1)
  rep_eq : cb.i_rep = (cb.i_in - (r + cb.used)) % (cb.size + 1)
  wrap : cb.got_wrap = true ∨ cb.i_rep = 0

namespace Inv

variable {cb : Cbuf} {r : Int}

theorem size_pos (h : Inv cb r) : 0 < cb.size := by
  have := h.min_pos
  have := h.min_le
  omega

theorem out_bounds (h : Inv cb r) : 0 ≤ cb.i_out ∧ cb.i_out ≤ cb.size := by
  have hsize := h.size_pos
  rw [h.out_eq]
  have := Int.emod_nonneg (cb.i_in - cb.used) (show cb.size + 1 ≠ 0 by omega)
  have := Int.emod_lt_of_pos (cb.i_in - cb.used) (show 0 < cb.size + 1 by omega)
  omega

theorem rep_bounds (h : Inv cb r) : 0 ≤ cb.i_rep ∧ cb.i_rep ≤ cb.size := by
  have hsize := h.size_pos
  rw [h.rep_eq]
  have := Int.emod_nonneg (cb.i_in - (r + cb.used)) (show cb.size + 1 ≠ 0 by omega)
  have := Int.emod_lt_of_pos (cb.i_in - (r + cb.used)) (show 0 < cb.size + 1 by omega)
  omega

/-- Twice the size of a buffer is still an `int`. -/
theorem twice_size (h : Inv cb r) : 2 * cb.size + CBUF_CHUNK + 2 ≤ INT_MAX := by
  have := h.room
  have := h.le_max
  omega

/-- What the code computes as the number of bytes to replay. -/
theorem reused_eq (h : Inv cb r) : cb.reused = r := by
  have hout := h.out_bounds
  have hrep := h.rep_bounds
  have hroom := h.twice_size
  have hr := h.rep_nonneg
  have hfits := h.fits
  have hused := h.used_nonneg
  have hsize := h.size_pos
  unfold CBUF_CHUNK at hroom
  rw [reused, tmod_cint (by omega) (by omega), Int.add_emod_right, h.out_eq, h.rep_eq, ← Int.sub_emod,
    show cb.i_in - cb.used - (cb.i_in - (r + cb.used)) = r by omega]
  exact Int.emod_eq_of_lt hr (by omega)

/-- A buffer that holds together is valid. -/
theorem isValid (h : Inv cb r) : IsValid cb := by
  have hout := h.out_bounds
  have hrep := h.rep_bounds
  have hroom := h.twice_size
  have hr := h.rep_nonneg
  have hfits := h.fits
  have hused := h.used_nonneg
  have hsize := h.size_pos
  have halloc := h.alloc_eq
  have hmin := h.min_le
  have hmax := h.le_max
  have hin := h.in_nonneg
  have hle := h.in_le
  unfold CBUF_CHUNK at hroom
  have hout_eq := h.out_eq
  have hrep_eq := h.rep_eq
  rw [emod_back hin (by omega) (by omega) (by omega)] at hout_eq hrep_eq
  refine ⟨h.underflow, h.overflow, by omega, by omega, hsize, hmin, hmax, h.min_pos, by omega, hused,
    by omega, ?_, h.wrap, hin, hle, hout.1, hout.2, hrep.1, hrep.2, ?_, ?_⟩
  · cases cb.overwrite with
    | CBUF_NO_DROP => exact .inl rfl
    | CBUF_WRAP_ONCE => exact .inr (.inl rfl)
    | CBUF_WRAP_MANY => exact .inr (.inr rfl)
  · split at hout_eq <;> split at hrep_eq <;> split <;> omega
  · rw [tmod_cint (by omega) (by omega)]
    split at hout_eq
    · rw [Int.emod_eq_of_lt (by omega) (by omega)]
      omega
    · rw [Int.add_emod_right, Int.emod_eq_of_lt (by omega) (by omega)]
      omega

end Inv

/-! ## What a buffer holds -/

/-- The unread bytes. -/
def unread (cb : Cbuf) : List Char := slice cb.data (cb.size + 1) cb.i_out cb.used.toNat

/-- The bytes that can be replayed. -/
def replayable (cb : Cbuf) : List Char := slice cb.data (cb.size + 1) cb.i_rep cb.reused.toNat

/-- All bytes kept: those to replay, then the unread ones. -/
def history (cb : Cbuf) : List Char := cb.replayable ++ cb.unread

namespace Inv

variable {cb : Cbuf} {r : Int}

theorem length_unread (h : Inv cb r) : (cb.unread.length : Int) = cb.used := by
  rw [unread, length_slice, Int.toNat_of_nonneg h.used_nonneg]

theorem length_replayable (h : Inv cb r) : (cb.replayable.length : Int) = r := by
  rw [replayable, length_slice, h.reused_eq, Int.toNat_of_nonneg h.rep_nonneg]

/-- The history is one window of the ring. -/
theorem history_eq (h : Inv cb r) :
    cb.history = slice cb.data (cb.size + 1) (cb.i_in - (r + cb.used)) (r + cb.used).toNat := by
  have hr := h.rep_nonneg
  have hused := h.used_nonneg
  rw [history, replayable, unread, h.reused_eq, h.out_eq, h.rep_eq, slice_emod, slice_emod,
    Int.toNat_add hr hused, slice_add, Int.toNat_of_nonneg hr]
  congr 2
  omega

theorem length_history (h : Inv cb r) : (cb.history.length : Int) = r + cb.used := by
  rw [history, List.length_append, Nat.cast_add, h.length_replayable, h.length_unread]

theorem replayable_eq (h : Inv cb r) : cb.replayable = cb.history.take r.toNat := by
  have hlen := h.length_replayable
  rw [history, List.take_left' (by omega)]

theorem unread_eq (h : Inv cb r) : cb.unread = cb.history.drop r.toNat := by
  have hlen := h.length_replayable
  rw [history, List.drop_left' (by omega)]

end Inv

end Cbuf

end Pdsh
