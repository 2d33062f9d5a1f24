import Pdsh.Cbuf.TwoPart
import Pdsh.Cbuf.Valid

/-!
# A circular buffer is a bounded two-part list

The `view` of a buffer is the pair of lists its caller sees. In every run of the byte
operations in which no `int` overflows and memory can be had, each call gives the answer the
pair would give and leaves the pair it would leave (`cbuf_refines`).
-/

namespace Pdsh

open Lib.Ring Lib.Transition

namespace Cbuf

variable {cb cb' : Cbuf} {r r' : Int}

/-- A buffer as its caller sees it. -/
def view (cb : Cbuf) : TwoPart :=
  { replay := cb.replayable, unread := cb.unread, size := cb.size.toNat,
    maxsize := cb.maxsize.toNat, overwrite := cb.overwrite }

/-- The history and the number of bytes to replay fix the view. -/
theorem view_eq (h : Inv cb r) : cb.view =
    { replay := cb.history.take r.toNat, unread := cb.history.drop r.toNat, size := cb.size.toNat,
      maxsize := cb.maxsize.toNat, overwrite := cb.overwrite } := by
  rw [view, h.replayable_eq, h.unread_eq]

theorem view_create {ndebug mallocs : Bool} {heap : Int → Char} {minsize maxsize : Int}
    (hroom : 2 * (max minsize maxsize + 1 + 2 * (CBUF_MAGIC ndebug).length) + CBUF_CHUNK ≤ INT_MAX)
    (h : create ndebug mallocs heap minsize maxsize = .ok cb) :
    cb.view = TwoPart.new minsize.toNat maxsize.toNat := by
  obtain ⟨hinv, hempty⟩ := inv_create hroom h
  rw [view_eq hinv, hempty]
  unfold create at h
  split at h
  · cases h
  · simp only at h
    split at h
    · cases h
      simp only [TwoPart.new, List.take_nil, List.drop_nil, TwoPart.mk.injEq, true_and, and_true]
      split <;> omega
    · cases h

theorem view_flush (h : Inv cb r) : cb.flush.view = { cb.view with replay := [], unread := [] } := by
  obtain ⟨hinv, hempty⟩ := h.flush
  rw [view_eq hinv, hempty]
  rfl

theorem view_dropper (h : Inv cb r) {n : Int} (hn : 0 ≤ n) (hle : n ≤ cb.used) :
    (cb.dropper n).view = cb.view.drop n.toNat := by
  obtain ⟨hinv, hhistory⟩ := h.dropper hn hle
  have hlen := h.length_replayable
  have hr := h.rep_nonneg
  have hlimits : (cb.dropper n).size = cb.size ∧ (cb.dropper n).maxsize = cb.maxsize ∧
      (cb.dropper n).overwrite = cb.overwrite := by
    unfold dropper shrink
    simp only [ite_self, and_self]
  rw [view_eq hinv, hhistory, hlimits.1, hlimits.2.1, hlimits.2.2, history, TwoPart.drop, view,
    show (r + n).toNat = cb.replayable.length + n.toNat by omega, List.take_length_add_append,
    List.drop_length_add_append]

theorem view_rewound (h : Inv cb r) {n : Int} (hn : 0 ≤ n) (hle : n ≤ r) :
    (cb.rewound n).view = cb.view.rewind n.toNat := by
  obtain ⟨hinv, hhistory⟩ := h.rewound hn hle
  have hlen := h.length_replayable
  have hlimits : (cb.rewound n).size = cb.size ∧ (cb.rewound n).maxsize = cb.maxsize ∧
      (cb.rewound n).overwrite = cb.overwrite := by
    unfold rewound
    split <;> exact ⟨rfl, rfl, rfl⟩
  rw [view_eq hinv, hhistory, hlimits.1, hlimits.2.1, hlimits.2.2, history, TwoPart.rewind, view,
    show (r - n).toNat = cb.replayable.length - n.toNat by omega,
    List.take_append_of_le_length (Nat.sub_le ..), List.drop_append_of_le_length (Nat.sub_le ..)]
  rfl

theorem view_grown (h : Inv cb r) (h' : Inv cb' r) (hgrown : Grown cb cb') :
    cb'.view = { cb.view with size := cb'.size.toNat } := by
  rw [view_eq h', view_eq h, hgrown.history, hgrown.maxsize, hgrown.overwrite]

/-- Bytes appended to the history are appended to the unread list. -/
theorem view_appended {bs : List Char} (h : Inv cb r) (happ : Appended cb r bs cb' r') :
    cb'.view = cb.view.append cb.size.toNat bs := by
  have hreplay := h.length_replayable
  have hunread := h.length_unread
  have hr' := happ.inv.rep_nonneg
  have hused' := happ.used
  have htotal := happ.total
  have hpos := h.size_pos
  have hr := h.rep_nonneg
  have hhistory : cb'.history = cb.replayable.rtake (cb.size.toNat - (cb.unread.length + bs.length)) ++
      (cb.unread ++ bs).rtake cb.size.toNat := by
    rw [happ.history, history, List.append_assoc, rtake_append, List.length_append]
  have hlength : (cb.replayable.rtake (cb.size.toNat - (cb.unread.length + bs.length))).length =
      r'.toNat := by
    rw [List.rtake, List.length_drop]
    omega
  rw [view_eq happ.inv, hhistory, happ.size, happ.maxsize, happ.overwrite, ← hlength,
    List.take_left, List.drop_left]
  rfl

/-! ## Writes -/

theorem growsTo (h : Inv cb r) {len : Int} (hlen : 0 ≤ len) (hroom : MadeRoom cb r len true cb') :
    cb.view.GrowsTo len.toNat cb'.size.toNat := by
  have hunread := h.length_unread
  have hpos := h.size_pos
  have henough := hroom.enough rfl
  have hle := hroom.grown.size_le
  have hmax := hroom.inv.le_max
  rw [hroom.grown.maxsize] at hmax
  refine ⟨?_, ?_, ?_, fun hfree => ?_⟩
  · simp only [view]
    omega
  · simp only [view]
    omega
  · simp only [view]
    omega
  · simp only [view] at hfree ⊢
    rw [hroom.unneeded (by omega)]

/-- How many bytes are let in does not depend on how far the buffer has grown. -/
theorem bound_eq (h : Inv cb r) {len : Int} (hlen : 0 ≤ len) (hroom : MadeRoom cb r len true cb') :
    cb'.bound len = cb.view.accepted len.toNat := by
  have hunread := h.length_unread
  have hused := h.used_nonneg
  have henough := hroom.enough rfl
  have hmax := hroom.inv.le_max
  have hfits := hroom.inv.fits
  have hr := h.rep_nonneg
  have hused' := hroom.grown.used
  rw [hroom.grown.maxsize] at hmax
  unfold bound TwoPart.accepted
  rw [hroom.grown.overwrite]
  simp only [view]
  cases cb.overwrite with
  | CBUF_NO_DROP =>
      simp only
      omega
  | CBUF_WRAP_ONCE =>
      simp only
      omega
  | CBUF_WRAP_MANY =>
      simp only
      omega

theorem view_writes (h : Inv cb r) {bs : List Char} {len : Int} (hlen : len = bs.length)
    (hroom : MadeRoom cb r len true cb') {n : Int} (hn : n = cb'.bound len) {cb'' : Cbuf}
    (happ : Appended cb' r (bs.take n.toNat) cb'' r') (hpos : 0 < n) :
    cb.view.writes bs cb'.size.toNat =
      (⟨.ok n, [], max 0 (cb'.used + n - cb'.size)⟩, cb''.view) := by
  have hunread := h.length_unread
  have hsize := hroom.inv.size_pos
  have haccepted := bound_eq h (by omega) hroom
  have hacc : cb.view.accepted bs.length = n.toNat := by
    rw [← hn, hlen, Int.toNat_natCast] at haccepted
    omega
  unfold TwoPart.writes
  rw [hacc, if_neg (by omega), view_appended hroom.inv happ, view_grown h hroom.inv hroom.grown]
  have hdropped : ((cb.view.unread.length + n.toNat - cb'.size.toNat : Nat) : Int) =
      max 0 (cb'.used + n - cb'.size) := by
    rw [hroom.grown.used]
    simp only [view]
    omega
  rw [hdropped, Int.toNat_of_nonneg hpos.le]
  rfl

theorem view_full (h : Inv cb r) {bs : List Char} {len : Int} (hlen : len = bs.length)
    (hroom : MadeRoom cb r len true cb') (hmode : cb'.overwrite = .CBUF_NO_DROP)
    (hbound : cb'.bound len = 0) :
    cb.view.writes bs cb'.size.toNat = (⟨.error .ENOSPC, [], 0⟩, cb'.view) := by
  have haccepted := bound_eq h (by omega) hroom
  rw [hlen, Int.toNat_natCast, ← hlen] at haccepted
  unfold TwoPart.writes
  rw [if_pos ⟨by rw [← hmode, hroom.grown.overwrite]; rfl, by omega⟩,
    view_grown h hroom.inv hroom.grown]

/-! ## Calls -/

/-- The byte operations, with memory to be had. -/
def Call.Plain : Call → Prop
  | .flush | .opt_set _ _ | .drop _ | .peek _ _ | .read _ _ | .replay _ _ | .rewind _ => True
  | .write _ _ reallocs => reallocs = true
  | _ => False

theorem view_opt_set (cb : Cbuf) (name value : Int) :
    cb.view.Calls (.opt_set name value) (cb.call (.opt_set name value)).1
      (cb.call (.opt_set name value)).2.view := by
  show cb.view.Calls _ ⟨(cb.optSet name value).1, [], 0⟩ (cb.optSet name value).2.view
  unfold optSet
  split
  · rename_i hname
    subst hname
    split
    · rename_i overwrite hvalue
      exact .opt_set hvalue
    · rename_i hvalue
      exact .opt_set_invalid (.inr hvalue)
  · rename_i hname
    exact .opt_set_invalid (.inl hname)

theorem view_drop (h : Inv cb r) (len : Int) :
    cb.view.Calls (.drop len) (cb.call (.drop len)).1 (cb.call (.drop len)).2.view := by
  have hunread := h.length_unread
  have hused := h.used_nonneg
  show cb.view.Calls _ ⟨(cb.drop len).1, [], 0⟩ (cb.drop len).2.view
  by_cases hneg : len < -1
  · unfold Cbuf.drop
    rw [if_pos hneg]
    exact .drop_invalid hneg
  · have hcall := @TwoPart.Calls.drop cb.view len (by omega)
    have hlen : ((TwoPart.length len cb.view.unread.length : Nat) : Int) =
        if len = -1 then cb.used else min len cb.used := by
      unfold TwoPart.length
      simp only [view]
      split <;> omega
    unfold Cbuf.drop
    rw [if_neg hneg]
    generalize TwoPart.length len cb.view.unread.length = n at hcall hlen
    split
    · rename_i hzero
      obtain rfl : n = 0 := by subst hzero; simp at hlen; omega
      simpa [TwoPart.drop] using hcall
    · simp only
      rw [← hlen]
      split
      · rw [view_dropper h (by omega) (by rw [hlen]; split <;> omega), Int.toNat_natCast]
        exact hcall
      · obtain rfl : n = 0 := by omega
        simpa [TwoPart.drop] using hcall

theorem view_peek (h : Inv cb r) (null : Bool) (len : Int) :
    cb.view.Calls (.peek null len) (cb.call (.peek null len)).1 (cb.call (.peek null len)).2.view := by
  have hunread := h.length_unread
  show cb.view.Calls _ ⟨(cb.peek null len).1, (cb.peek null len).2, 0⟩ cb.view
  unfold Cbuf.peek
  by_cases hbad : null = true ∨ len < 0
  · rw [if_pos hbad]
    exact .peek_invalid hbad
  · obtain ⟨hnull, hlen⟩ := not_or.mp hbad
    obtain rfl : null = false := by simpa using hnull
    have hcall := @TwoPart.Calls.peek cb.view len (by omega)
    rw [if_neg hbad]
    split
    · rename_i hzero
      subst hzero
      simpa using hcall
    · rw [reader_mem h (by omega), show min len cb.used =
        (min len.toNat cb.view.unread.length : Nat) by simp only [view]; omega]
      exact hcall

theorem view_read (h : Inv cb r) (null : Bool) (len : Int) :
    cb.view.Calls (.read null len) (cb.call (.read null len)).1 (cb.call (.read null len)).2.view := by
  have hunread := h.length_unread
  have hused := h.used_nonneg
  show cb.view.Calls _ ⟨(cb.read null len).1, (cb.read null len).2.1, 0⟩ (cb.read null len).2.2.view
  unfold Cbuf.read
  by_cases hbad : null = true ∨ len < 0
  · rw [if_pos hbad]
    exact .read_invalid hbad
  · obtain ⟨hnull, hlen⟩ := not_or.mp hbad
    obtain rfl : null = false := by simpa using hnull
    have hcall := @TwoPart.Calls.read cb.view len (by omega)
    rw [if_neg hbad]
    split
    · rename_i hzero
      subst hzero
      simpa [TwoPart.drop] using hcall
    · have hdrop : cb.view.drop len.toNat = cb.view.drop (min len cb.used).toNat := by
        rcases le_total len cb.used with hle | hge
        · rw [min_eq_left hle]
        · unfold TwoPart.drop
          simp only [view]
          rw [List.take_of_length_le (by omega), List.drop_of_length_le (by omega),
            List.take_of_length_le (by omega), List.drop_of_length_le (by omega)]
      simp only [reader_mem h (show 0 ≤ len by omega)]
      rw [hdrop] at hcall
      have hview : (cb.dropRead (.ok (min len cb.used))).view = cb.view.drop (min len cb.used).toNat := by
        unfold dropRead
        simp only
        split
        · exact view_dropper h (by omega) (by omega)
        · rw [show min len cb.used = 0 by omega]
          simp [TwoPart.drop]
      rw [hview, show min len cb.used =
        (min len.toNat cb.view.unread.length : Nat) by simp only [view]; omega] at *
      exact hcall

theorem view_replay (h : Inv cb r) (null : Bool) (len : Int) :
    cb.view.Calls (.replay null len) (cb.call (.replay null len)).1
      (cb.call (.replay null len)).2.view := by
  have hreplay := h.length_replayable
  show cb.view.Calls _ ⟨(cb.replay null len).1, (cb.replay null len).2, 0⟩ cb.view
  unfold Cbuf.replay
  by_cases hbad : null = true ∨ len < 0
  · rw [if_pos hbad]
    exact .replay_invalid hbad
  · obtain ⟨hnull, hlen⟩ := not_or.mp hbad
    obtain rfl : null = false := by simpa using hnull
    have hcall := @TwoPart.Calls.replay cb.view len (by omega)
    rw [if_neg hbad]
    split
    · rename_i hzero
      subst hzero
      simpa [List.rtake] using hcall
    · rw [replayer_mem h (by omega), show min len r =
        (min len.toNat cb.view.replay.length : Nat) by simp only [view]; omega]
      exact hcall

theorem view_rewind (h : Inv cb r) (len : Int) :
    cb.view.Calls (.rewind len) (cb.call (.rewind len)).1 (cb.call (.rewind len)).2.view := by
  have hreplay := h.length_replayable
  have hr := h.rep_nonneg
  show cb.view.Calls _ ⟨(cb.rewind len).1, [], 0⟩ (cb.rewind len).2.view
  by_cases hneg : len < -1
  · unfold Cbuf.rewind
    rw [if_pos hneg]
    exact .rewind_invalid hneg
  · have hcall := @TwoPart.Calls.rewind cb.view len (by omega)
    have hlen : ((TwoPart.length len cb.view.replay.length : Nat) : Int) =
        if len = -1 then r else min len r := by
      unfold TwoPart.length
      simp only [view]
      split <;> omega
    unfold Cbuf.rewind
    rw [if_neg hneg]
    generalize TwoPart.length len cb.view.replay.length = n at hcall hlen
    split
    · rename_i hzero
      obtain rfl : n = 0 := by subst hzero; simp at hlen; omega
      simpa [TwoPart.rewind, List.rtake] using hcall
    · simp only
      rw [h.reused_eq, ← hlen, view_rewound h (by omega) (by rw [hlen]; split <;> omega),
        Int.toNat_natCast]
      exact hcall

theorem view_write (h : Inv cb r) (srcbuf : Option (Int → Char)) (len : Int)
    (hfit : cb.FitsInt len) :
    cb.view.Calls (.write srcbuf len true) (cb.call (.write srcbuf len true)).1
      (cb.call (.write srcbuf len true)).2.view := by
  show cb.view.Calls _ ⟨(cb.write srcbuf len true).1, [], (cb.write srcbuf len true).2.1⟩
    (cb.write srcbuf len true).2.2.view
  unfold Cbuf.write
  cases srcbuf with
  | none => exact .write_invalid (.inl rfl)
  | some mem =>
      simp only
      split
      · rename_i hneg
        exact .write_invalid (.inr hneg)
      · split
        · rename_i hzero
          subst hzero
          exact .write_nothing
        · have hpos : 0 < len := by omega
          have hblock : len = (block mem 0 len.toNat).length := by rw [length_block]; omega
          obtain ⟨cb', hroom, hdoes⟩ := writer_spec h hpos hfit (getMem_spec mem 0) (getMem_start mem 0) true
          have hcall := @TwoPart.Calls.write cb.view mem len true _ hpos (growsTo h hpos.le hroom)
          generalize cb.writer len (getMem mem) 0 true = w at hdoes ⊢
          cases hdoes with
          | full hmode hbound =>
              rw [view_full h hblock hroom hmode hbound] at hcall
              exact hcall
          | nothing m src' hP hQ => exact absurd hQ id
          | bytes bs m src' cb'' r'' hne hle hP hall happ =>
              have hlength := hall.resolve_right id
              have hbs : bs = (block mem 0 len.toNat).take (bs.length : Int).toNat := by
                have hbound := hroom.inv.bound_bounds hpos
                conv_lhs => rw [hP.2]
                rw [Int.toNat_natCast, ← slice_eq_block (M := len) le_rfl (by omega),
                  ← slice_eq_block (M := len) le_rfl (by omega), take_slice (by omega)]
              rw [hbs] at happ
              have hsome := List.length_pos_iff.mpr hne
              rw [view_writes h hblock hroom hlength happ (by omega)] at hcall
              exact hcall

theorem view_call (h : Inv cb r) {c : Call} (hplain : c.Plain) (hok : c.InRange cb) :
    cb.view.Calls c (cb.call c).1 (cb.call c).2.view := by
  cases c with
  | flush =>
      have hflush := view_flush h
      show cb.view.Calls _ _ cb.flush.view
      rw [hflush]
      exact .flush
  | opt_set name value => exact view_opt_set cb name value
  | drop len => exact view_drop h len
  | peek null len => exact view_peek h null len
  | read null len => exact view_read h null len
  | replay null len => exact view_replay h null len
  | rewind len => exact view_rewind h len
  | write srcbuf len reallocs =>
      obtain rfl : reallocs = true := hplain
      exact view_write h srcbuf len hok
  | _ => exact absurd hplain id

/-! ## Two buffers -/

variable {src dst : Cbuf}

/-- The source after the bytes that were copied are dropped. -/
theorem view_dropRead (h : Inv src r) {ret : Except Errno Int}
    (hret : ∀ n, ret = .ok n → 0 ≤ n ∧ n ≤ src.used) (bytes : List Char) (ndropped : Int) :
    (src.dropRead ret).view = src.view.moved ⟨ret, bytes, ndropped⟩ := by
  cases ret with
  | error e => rfl
  | ok n =>
      obtain ⟨hnonneg, hle⟩ := hret n rfl
      unfold dropRead TwoPart.moved
      simp only
      split
      · exact view_dropper h hnonneg hle
      · obtain rfl : n = 0 := by omega
        simp [TwoPart.drop]

theorem view_copier (hs : Inv src r') (h : Inv dst r) {len : Int} (hpos : 0 < min len src.used) :
    ∃ size, dst.view.GrowsTo (min len src.used).toNat size ∧
      dst.view.writes (src.view.unread.take (min len src.used).toNat) size =
        (⟨(copier src dst len true).1, [], (copier src dst len true).2.1.getD 0⟩,
          (copier src dst len true).2.2.view) := by
  have hunread := hs.length_unread
  obtain ⟨dst', hroom, hdoes⟩ := copier_spec hs h hpos true
  have hbound := hroom.inv.bound_bounds hpos
  refine ⟨dst'.size.toNat, growsTo h hpos.le hroom, ?_⟩
  have hbytes : min len src.used = (src.view.unread.take (min len src.used).toNat).length := by
    rw [List.length_take]
    simp only [view]
    omega
  generalize copier src dst len true = c at hdoes ⊢
  cases hdoes with
  | full hmode hfull => exact view_full h hbytes hroom hmode hfull
  | bytes dst'' r'' hsome happ =>
      have hsame : (src.view.unread.take (min len src.used).toNat).take
          (dst'.bound (min len src.used)).toNat =
          src.unread.take (dst'.bound (min len src.used)).toNat := by
        rw [List.take_take, Nat.min_eq_left (by omega)]
        rfl
      exact view_writes h hbytes hroom rfl (hsame ▸ happ) hsome

theorem length_eq (h : Inv src r) (len : Int) (hlen : -1 ≤ len) :
    (TwoPart.length len src.view.unread.length : Int) =
      min (if len = -1 then src.used else len) src.used := by
  have hunread := h.length_unread
  have hused := h.used_nonneg
  unfold TwoPart.length
  simp only [view]
  split <;> omega

theorem view_move (hs : Inv src r') (h : Inv dst r) (len : Int) :
    src.view.Copies dst.view len
        ⟨(move false src dst len true).1, [], (move false src dst len true).2.1⟩
        (move false src dst len true).2.2.2.view ∧
      (move false src dst len true).2.2.1.view =
        src.view.moved ⟨(move false src dst len true).1, [], (move false src dst len true).2.1⟩ := by
  have hnothing : src.view.moved ⟨.ok 0, [], 0⟩ = src.view := by
    unfold TwoPart.moved TwoPart.drop
    simp
  unfold move
  simp only [Bool.false_eq_true, if_false]
  by_cases hneg : len < -1
  · rw [if_pos hneg]
    exact ⟨.invalid hneg, rfl⟩
  · have hlength := length_eq hs len (by omega)
    have hused := hs.used_nonneg
    rw [if_neg hneg]
    by_cases hzero : len = 0
    · subst hzero
      rw [if_pos rfl]
      exact ⟨.nothing (by omega) (by simp at hlength; omega), hnothing.symm⟩
    · rw [if_neg hzero]
      generalize (if len = -1 then src.used else len) = len' at hlength ⊢
      by_cases hpos : len' > 0
      · rw [if_pos hpos]
        refine ⟨?_, view_dropRead hs (inv_copier hs h len' true hpos).2 [] _⟩
        by_cases hsome : 0 < min len' src.used
        · obtain ⟨size, hgrow, hwrites⟩ := view_copier hs h hsome
          rw [← hlength, Int.toNat_natCast] at hgrow hwrites
          have hcopies := @TwoPart.Copies.bytes src.view dst.view len size (by omega) (by omega) hgrow
          rw [hwrites] at hcopies
          exact hcopies
        · have hempty : copier src dst len' true = (.ok 0, none, dst) := by
            unfold copier
            simp only
            rw [if_pos (by omega)]
          rw [hempty]
          exact .nothing (by omega) (by omega)
      · rw [if_neg hpos]
        exact ⟨.nothing (by omega) (by omega), hnothing.symm⟩

/-- `cbuf_copy` is `cbuf_move` without dropping what was copied. -/
theorem copy_eq_move (same : Bool) (src dst : Cbuf) (len : Int) (reallocs : Bool) :
    copy same src dst len reallocs =
      ((move same src dst len reallocs).1, (move same src dst len reallocs).2.1,
        (move same src dst len reallocs).2.2.2) := by
  unfold copy move
  simp only
  split
  · rfl
  · split
    · rfl
    · split
      · rfl
      · split <;> split <;> rfl

/-! ## Every run -/

/-- The byte operations, with memory to be had. -/
def Op.Plain : Op → Prop
  | .on _ call => call.Plain
  | .copy _ _ _ reallocs | .move _ _ _ reallocs => reallocs = true
  | .create .. | .destroy _ => True

/-- A byte operation in which no `int` overflows. -/
def PlainStep (s : Store) (op : Op) (a : Answer) (s' : Store) : Prop :=
  op.Plain ∧ InRange s op ∧ step s op = some (a, s')

/-- The buffers as their callers see them. -/
def views (s : Store) : TwoPart.Store := fun h => (s h).map view

theorem views_update (s : Store) (h : Nat) (cb : Option Cbuf) :
    views (Function.update s h cb) = Function.update (views s) h (cb.map view) := by
  funext k
  unfold views
  by_cases hk : k = h
  · subst hk
    simp
  · simp [hk]

/-- Every call gives the answer that the pairs of lists give. -/
theorem views_step {s s' : Store} {op : Op} {a : Answer} (hs : AllInv s)
    (hstep : PlainStep s op a s') : TwoPart.Step (views s) op a (views s') := by
  obtain ⟨hplain, hok, hstep⟩ := hstep
  have hview : ∀ h cb, s h = some cb → views s h = some cb.view := fun h cb hcb => by
    rw [views, hcb]
    rfl
  cases op with
  | create ndebug mallocs heap minsize maxsize h =>
      unfold step at hstep
      cases hfree : s h with
      | some cb => simp [hfree] at hstep
      | none =>
          have hfree' : views s h = none := by rw [views, hfree]; rfl
          cases hcreate : create ndebug mallocs heap minsize maxsize with
          | error e =>
              simp only [hfree, hcreate, Option.some.injEq, Prod.mk.injEq] at hstep
              obtain ⟨rfl, rfl⟩ := hstep
              unfold create at hcreate
              split at hcreate
              · rename_i hneg
                cases hcreate
                exact .create_invalid hneg hfree'
              · rename_i hpos
                simp only at hcreate
                split at hcreate
                · cases hcreate
                · rename_i hnomem
                  cases hcreate
                  have hmallocs : mallocs = false := by
                    cases mallocs with
                    | false => rfl
                    | true =>
                        refine absurd ⟨rfl, ?_⟩ hnomem
                        unfold InRange CBUF_CHUNK at hok
                        rw [cint_eq (by omega) (by omega)]
                        omega
                  subst hmallocs
                  exact .create_nomem (by omega) hfree'
          | ok cb =>
              simp only [hfree, hcreate, Option.some.injEq, Prod.mk.injEq] at hstep
              obtain ⟨rfl, rfl⟩ := hstep
              have hmade : mallocs = true ∧ 0 < minsize := by
                unfold create at hcreate
                split at hcreate
                · cases hcreate
                · simp only at hcreate
                  split at hcreate
                  · rename_i hpos hmem
                    exact ⟨hmem.1, by omega⟩
                  · cases hcreate
              obtain ⟨rfl, hpos⟩ := hmade
              rw [views_update, Option.map_some, view_create hok hcreate]
              exact .create hpos hfree'
  | destroy h =>
      unfold step at hstep
      cases hcb : s h with
      | none => simp [hcb] at hstep
      | some cb =>
          simp only [hcb, Option.map_some, Option.some.injEq, Prod.mk.injEq] at hstep
          obtain ⟨rfl, rfl⟩ := hstep
          rw [views_update]
          exact .destroy (hview h cb hcb)
  | on h call =>
      unfold step at hstep
      cases hcb : s h with
      | none => simp [hcb] at hstep
      | some cb =>
          simp only [hcb, Option.map_some, Option.some.injEq, Prod.mk.injEq] at hstep
          obtain ⟨rfl, rfl⟩ := hstep
          obtain ⟨r, hinv⟩ := hs h cb hcb
          rw [views_update]
          exact .on (hview h cb hcb) (view_call hinv hplain (hok cb hcb))
  | copy h k len reallocs =>
      obtain rfl : reallocs = true := hplain
      unfold step at hstep
      cases hsrc : s h with
      | none => simp [hsrc] at hstep
      | some src =>
          cases hdst : s k with
          | none => simp [hsrc, hdst] at hstep
          | some dst =>
              simp only [hsrc, hdst, Option.some.injEq, Prod.mk.injEq] at hstep
              obtain ⟨rfl, rfl⟩ := hstep
              obtain ⟨r, hinv⟩ := hs h src hsrc
              obtain ⟨r', hinv'⟩ := hs k dst hdst
              by_cases hne : h = k
              · subst hne
                rw [hsrc] at hdst
                cases hdst
                have hsame : copy (decide (h = h)) src src len true = (.error .EINVAL, 0, src) := by
                  simp [copy]
                rw [hsame, Function.update_eq_self_iff.mpr hsrc.symm]
                exact .copy_same (hview h src hsrc)
              · rw [decide_eq_false hne, copy_eq_move, views_update]
                exact .copy hne (hview h src hsrc) (hview k dst hdst) (view_move hinv hinv' len).1
  | move h k len reallocs =>
      obtain rfl : reallocs = true := hplain
      unfold step at hstep
      cases hsrc : s h with
      | none => simp [hsrc] at hstep
      | some src =>
          cases hdst : s k with
          | none => simp [hsrc, hdst] at hstep
          | some dst =>
              simp only [hsrc, hdst, Option.some.injEq, Prod.mk.injEq] at hstep
              obtain ⟨rfl, rfl⟩ := hstep
              obtain ⟨r, hinv⟩ := hs h src hsrc
              obtain ⟨r', hinv'⟩ := hs k dst hdst
              by_cases hne : h = k
              · subst hne
                rw [hsrc] at hdst
                cases hdst
                have hsame : move (decide (h = h)) src src len true = (.error .EINVAL, 0, src, src) := by
                  simp [move]
                rw [hsame, Function.update_idem, Function.update_eq_self_iff.mpr hsrc.symm]
                exact .move_same (hview h src hsrc)
              · obtain ⟨hcopies, hmoved⟩ := view_move hinv hinv' len
                rw [decide_eq_false hne, views_update, views_update, Option.map_some, Option.map_some,
                  hmoved]
                exact .move hne (hview h src hsrc) (hview k dst hdst) hcopies

/-- In every run of the byte operations, without overflow and with memory to be had, the
buffers are bounded two-part lists: each call gives the answer the lists give, and the buffers
hold what the lists hold. -/
theorem cbuf_refines {tr : List (Op × Answer)} {s : Store} (hrun : Trace PlainStep noBuffer tr s) :
    Trace TwoPart.Step (fun _ => none) tr (views s) := by
  obtain ⟨t, htrace, -, rfl⟩ := Trace.simulate (S := TwoPart.Step)
    (V := fun s t => AllInv s ∧ t = views s) (fun s op a s' t hrel hstep => by
      obtain ⟨hinv, rfl⟩ := hrel
      have hnext : next s op = some s' := by rw [next, hstep.2.2]; rfl
      exact ⟨views s', views_step hinv hstep, hinv.next hstep.2.1 hnext, rfl⟩)
    ⟨(fun h cb hcb => by cases hcb), rfl⟩ hrun
  exact htrace

/-- Five bytes are written to a new buffer of at most four. -/
theorem cbuf_refines_write : ∃ (tr : List (Op × Answer)) (s : Store) (cb : Cbuf), tr.length = 2 ∧
    s 0 = some cb ∧ cb.unread = ['a', 'a', 'a', 'a'] ∧ Trace TwoPart.Step (fun _ => none) tr (views s) := by
  have hcreate : Trace PlainStep noBuffer _ _ :=
    .snoc .nil (i := Op.create true true (fun _ => 'z') 2 4 0)
      ⟨trivial, by unfold InRange; decide, step_create rfl rfl⟩
  have hwrite : Trace PlainStep noBuffer _ _ :=
    hcreate.snoc (i := Op.on 0 (.write (some fun _ => 'a') 5 true))
      ⟨rfl, fun cb hcb => by cases hcb; exact ⟨fun _ => by decide, fun _ _ => by decide⟩,
        step_on (Function.update_self ..) _⟩
  exact ⟨_, _, _, rfl, Function.update_self .., by decide, cbuf_refines hwrite⟩

end Cbuf

end Pdsh
