import Pdsh.Cbuf.Routines

/-!
# Copying into and out of a circular buffer

The loops of `cbuf_writer`, `cbuf_copier` and `cbuf_reader` go round the ring block by block.
What they move is a list of bytes: a write appends it to the history, of which the last `size`
bytes stay, and a read delivers a window of it.
-/

namespace Pdsh

open Lib.Ring

namespace Cbuf

variable {cb : Cbuf} {r : Int}

/-! ## The metadata of a write -/

/-- The history after bytes were stored, read back from where they end. -/
theorem Inv.slice_stored (h : Inv cb r) (bs : List Char) {t : Int}
    (ht : t = min (r + cb.used + bs.length) cb.size) :
    slice (store cb.data (cb.size + 1) cb.i_in bs) (cb.size + 1)
      ((cb.i_in + bs.length) % (cb.size + 1) - t) t.toNat = (cb.history ++ bs).rtake cb.size.toNat := by
  have hlen := h.length_history
  have hr := h.rep_nonneg
  have hused := h.used_nonneg
  have hfits := h.fits
  have hpos := h.size_pos
  obtain ⟨n, hn⟩ := Int.eq_ofNat_of_zero_le (show 0 ≤ t by omega)
  have hback : slice cb.data (cb.size + 1) (cb.i_in - n) n =
      slice cb.data (cb.size + 1) (cb.i_in - n) (n - cb.history.length) ++ cb.history := by
    conv_lhs => rw [show n = (n - cb.history.length) + cb.history.length by omega]
    rw [slice_add, h.history_eq, length_slice]
    congr 2 <;> omega
  rw [← slice_emod, Int.emod_sub_emod, slice_emod, hn, Int.toNat_natCast,
    slice_store _ _ _ (by omega) (by omega), hback, List.append_assoc,
    rtake_append_of_le (by rw [List.length_append]; omega)]
  rcases le_total (r + cb.used + bs.length) cb.size with hfew | hmany
  · rw [rtake_of_length_le (by rw [List.length_append]; omega),
      rtake_of_length_le (by rw [List.length_append]; omega)]
  · rw [show n = cb.size.toNat by omega]

/-- A ring position is the same one round further. -/
theorem emod_round (i size : Int) : (i + 1) % (size + 1) = (i - size) % (size + 1) := by
  rw [← Int.add_emod_right (i - size)]
  congr 1
  omega

/-- What a write keeps of a buffer, and what is in it then. -/
structure Appended (cb : Cbuf) (r : Int) (bs : List Char) (cb' : Cbuf) (r' : Int) : Prop where
  inv : Inv cb' r'
  magic : cb'.magic = cb.magic
  minsize : cb'.minsize = cb.minsize
  maxsize : cb'.maxsize = cb.maxsize
  overwrite : cb'.overwrite = cb.overwrite
  size : cb'.size = cb.size
  used : cb'.used = min (cb.used + bs.length) cb.size
  total : r' + cb'.used = min (r + cb.used + bs.length) cb.size
  history : cb'.history = (cb.history ++ bs).rtake cb.size.toNat

/-- The metadata after bytes were stored at `i_in`. -/
theorem Inv.updateMetadata (h : Inv cb r) (bs : List Char) (hadd : cb.used + bs.length ≤ INT_MAX)
    {n i_dst : Int} (hn : n = bs.length) (hdst : i_dst = (cb.i_in + bs.length) % (cb.size + 1)) :
    ∃ r', Appended cb r bs
      (updateMetadata { cb with data := store cb.data (cb.size + 1) cb.i_in bs } n i_dst
        (cb.size - cb.used)) r' := by
  subst hn
  have hr := h.rep_nonneg
  have hused := h.used_nonneg
  have hfits := h.fits
  have hpos := h.size_pos
  have hroom := h.twice_size
  unfold CBUF_CHUNK at hroom
  have hdst_nonneg := Int.emod_nonneg (cb.i_in + bs.length) (show cb.size + 1 ≠ 0 by omega)
  have hdst_lt := Int.emod_lt_of_pos (cb.i_in + bs.length) (show 0 < cb.size + 1 by omega)
  have hunder : block (store cb.data (cb.size + 1) cb.i_in bs) (-cb.magic.length) cb.magic.length =
      cb.magic :=
    (block_congr fun k hk hlt => store_outside (by omega) (by omega)).trans h.underflow
  have hover : block (store cb.data (cb.size + 1) cb.i_in bs) (cb.size + 1) cb.magic.length =
      cb.magic :=
    (block_congr fun k hk hlt => store_outside (by omega) (by omega)).trans h.overflow
  have hnext : (cint (i_dst + 1)).tmod (cb.size + 1) = (i_dst - cb.size) % (cb.size + 1) := by
    rw [tmod_cint (by omega) (by omega), emod_round]
  -- the history ends at `i_dst`, however many bytes of it are unread
  have hnew : ∀ (got_wrap : Bool) (i_out i_rep used r' : Int), 0 ≤ r' → 0 ≤ used →
      used = min (cb.used + bs.length) cb.size →
      r' + used = min (r + cb.used + bs.length) cb.size →
      i_out = (i_dst - used) % (cb.size + 1) → i_rep = (i_dst - (r' + used)) % (cb.size + 1) →
      got_wrap = true ∨ i_rep = 0 →
      Appended cb r bs { cb with
        used := used, got_wrap := got_wrap, i_in := i_dst, i_out := i_out, i_rep := i_rep,
        data := store cb.data (cb.size + 1) cb.i_in bs } r' := by
    intro got_wrap i_out i_rep used r' hr' hused' hu ht hout hrep hwrap
    have hinv : Inv { cb with
        used := used, got_wrap := got_wrap, i_in := i_dst, i_out := i_out, i_rep := i_rep,
        data := store cb.data (cb.size + 1) cb.i_in bs } r' := { h with
      underflow := hunder
      overflow := hover
      in_nonneg := by simp only; omega
      in_le := by simp only; omega
      used_nonneg := hused'
      rep_nonneg := hr'
      fits := by simp only; omega
      out_eq := hout
      rep_eq := hrep
      wrap := hwrap }
    refine ⟨hinv, rfl, rfl, rfl, rfl, rfl, hu, ht, ?_⟩
    rw [hinv.history_eq]
    simp only
    rw [hdst]
    exact h.slice_stored bs ht
  unfold Cbuf.updateMetadata
  simp only
  rw [show ({ cb with data := store cb.data (cb.size + 1) cb.i_in bs } : Cbuf).reused = r from
    h.reused_eq, cint_eq (by omega) hadd, hnext]
  have hfull : min (cb.used + bs.length) cb.size ≤ cb.size := by omega
  by_cases hover' : (bs.length : Int) > cb.size - cb.used
  · rw [if_pos (show (bs.length : Int) > cb.size - cb.used - r by omega), if_pos hover']
    exact ⟨0, hnew true _ _ (min (cb.used + bs.length) cb.size) 0 le_rfl (by omega) rfl (by omega)
      (by rw [show min (cb.used + bs.length) cb.size = cb.size by omega])
      (by rw [show 0 + min (cb.used + bs.length) cb.size = cb.size by omega]) (.inl rfl)⟩
  · have hout : cb.i_out = (i_dst - min (cb.used + bs.length) cb.size) % (cb.size + 1) := by
      rw [h.out_eq, hdst, Int.emod_sub_emod]
      congr 1
      omega
    by_cases hpast : (bs.length : Int) > cb.size - cb.used - r
    · rw [if_pos hpast, if_neg (by simpa using hover')]
      exact ⟨cb.size - min (cb.used + bs.length) cb.size, hnew true _ _
        (min (cb.used + bs.length) cb.size) _ (by omega) (by omega) rfl
        (by omega) hout (by rw [Int.sub_add_cancel]) (.inl rfl)⟩
    · rw [if_neg hpast, if_neg hover']
      refine ⟨r, hnew cb.got_wrap _ _ (min (cb.used + bs.length) cb.size) r hr (by omega) rfl (by omega) hout ?_ h.wrap⟩
      rw [h.rep_eq, hdst, Int.emod_sub_emod]
      congr 1
      omega

/-! ## `cbuf_writer` -/

/-- A function that copies bytes out of an object. `P bs src` holds of the bytes copied so far
and what the object has become, and `Q` as well once a copy was short or failed. -/
def GetfSpec {σ : Type} (getf : Getf σ) (P : List Char → σ → Prop)
    (Q : List Char → σ → Except Errno Int → Prop) : Prop :=
  ∀ acc src n, P acc src → 0 < n → match getf src n with
    | (.ok bytes, src') => bytes.length ≤ n ∧ P (acc ++ bytes) src' ∧
        (bytes.length < n → Q (acc ++ bytes) src' (.ok bytes.length))
    | (.error e, src') => P acc src' ∧ Q acc src' (.error e)

/-- Where the loop of `cbuf_writer` stands after the bytes `bs`. -/
structure Writing.At {σ : Type} (w : Writing σ) (d : Int → Char) (size i len : Int)
    (bs : List Char) : Prop where
  data : w.data = store d (size + 1) i bs
  i_dst : w.i_dst = (i + bs.length) % (size + 1)
  nleft : w.nleft = len - bs.length
  length : bs.length ≤ len

/-- One block more. -/
theorem Writing.At.next {σ : Type} {w : Writing σ} {d : Int → Char} {size i len : Int}
    {acc : List Char} (h : w.At d size i len acc) (hsize : 0 < size)
    (hroom : 2 * size + CBUF_CHUNK + 2 ≤ INT_MAX) {bytes : List Char}
    (hlen : bytes.length ≤ min w.nleft (size + 1 - w.i_dst)) (src : σ) (m : Except Errno Int) :
    Writing.At { data := blit w.data w.i_dst bytes, nleft := w.nleft - bytes.length,
                 i_dst := (cint (w.i_dst + bytes.length)).tmod (size + 1), m := m, src := src }
      d size i len (acc ++ bytes) := by
  have hnonneg := Int.emod_nonneg (i + acc.length) (show size + 1 ≠ 0 by omega)
  have hnleft := h.nleft
  have hi := h.i_dst
  have hacc := h.length
  unfold CBUF_CHUNK at hroom
  refine ⟨?_, ?_, ?_, ?_⟩
  · simp only
    rw [← store_eq_blit (M := size + 1) (by omega) (by omega), h.data, hi, store_emod, store_append]
  · simp only
    rw [tmod_cint (by omega) (by omega), hi, Int.emod_add_emod, List.length_append]
    push_cast
    congr 1
    omega
  · simp only [List.length_append]
    push_cast
    omega
  · rw [List.length_append]
    push_cast
    omega

/-- The loop writes what it reads, and stops early only where a copy was short or failed. -/
theorem writerLoop_spec {σ : Type} {getf : Getf σ} {P : List Char → σ → Prop}
    {Q : List Char → σ → Except Errno Int → Prop} (hget : GetfSpec getf P Q) {d : Int → Char}
    {size i len : Int} (hsize : 0 < size) (hroom : 2 * size + CBUF_CHUNK + 2 ≤ INT_MAX)
    (fuel : Nat) {w : Writing σ} {acc : List Char} (hw : w.At d size i len acc) (hP : P acc w.src)
    (hfuel : w.nleft ≤ fuel) :
    ∃ bs, (writerLoop size getf fuel w).At d size i len bs ∧ P bs (writerLoop size getf fuel w).src ∧
      (bs.length = len ∨ Q bs (writerLoop size getf fuel w).src (writerLoop size getf fuel w).m) := by
  induction fuel generalizing w acc with
  | zero =>
      have hnleft := hw.nleft
      have hlen := hw.length
      exact ⟨acc, hw, hP, .inl (by simp at hfuel; omega)⟩
  | succ fuel ih =>
      have hnleft := hw.nleft
      have hlen := hw.length
      have hi := hw.i_dst
      have hlt := Int.emod_lt_of_pos (i + acc.length) (show 0 < size + 1 by omega)
      rw [writerLoop]
      split
      · rename_i hpos
        have hn : 0 < min w.nleft (size + 1 - w.i_dst) := by omega
        have hspec := hget acc w.src _ hP hn
        cases hcall : getf w.src (min w.nleft (size + 1 - w.i_dst)) with
        | mk got src =>
            rw [hcall] at hspec
            cases got with
            | error e =>
                simp only [hcall]
                exact ⟨acc, ⟨hw.data, hw.i_dst, hw.nleft, hw.length⟩, hspec.1, .inr hspec.2⟩
            | ok bytes =>
                obtain ⟨hle, hPnext, hQ⟩ := hspec
                simp only [hcall]
                have hnext := hw.next hsize hroom hle src (.ok bytes.length)
                by_cases hm : (bytes.length : Int) > 0
                · simp only [if_pos hm]
                  split
                  · rename_i hshort
                    exact ⟨acc ++ bytes, hnext, hPnext, .inr (hQ (by omega))⟩
                  · exact ih hnext hPnext (by simp only; push_cast at hfuel; omega)
                · simp only [if_neg hm]
                  obtain rfl : bytes = [] := List.length_eq_zero_iff.mp (by omega)
                  rw [List.append_nil] at hPnext hQ
                  split
                  · exact ⟨acc, ⟨hw.data, hw.i_dst, hw.nleft, hw.length⟩, hPnext, .inr (hQ (by simpa using hn))⟩
                  · rename_i hsame
                    simp at hsame
                    omega
      · exact ⟨acc, hw, hP, .inl (by omega)⟩

theorem Inv.bound_bounds (h : Inv cb r) {len : Int} (hlen : 0 < len) :
    0 ≤ cb.bound len ∧ cb.bound len ≤ len ∧
      (cb.bound len = 0 → cb.overwrite = .CBUF_NO_DROP) := by
  have hfits := h.fits
  have hr := h.rep_nonneg
  have hpos := h.size_pos
  unfold bound
  cases cb.overwrite with
  | CBUF_NO_DROP => exact ⟨by simp only; omega, by simp only; omega, fun _ => rfl⟩
  | CBUF_WRAP_ONCE => exact ⟨by simp only; omega, by simp only; omega, fun _ => by simp only at *; omega⟩
  | CBUF_WRAP_MANY => exact ⟨by simp only; omega, by simp only; omega, fun _ => by simp only at *; omega⟩

/-- The number of unread bytes that a write adds up to is an `int`. -/
theorem Inv.used_bound (h : Inv cb r) (len : Int)
    (hmany : cb.overwrite = .CBUF_WRAP_MANY → cb.used + len ≤ INT_MAX) :
    cb.used + cb.bound len ≤ INT_MAX := by
  have hroom := h.twice_size
  have hfits := h.fits
  have hr := h.rep_nonneg
  have hpos := h.size_pos
  unfold CBUF_CHUNK at hroom
  unfold bound
  cases hmode : cb.overwrite with
  | CBUF_NO_DROP =>
      simp only
      omega
  | CBUF_WRAP_ONCE =>
      simp only
      omega
  | CBUF_WRAP_MANY => exact hmany hmode

/-- What `cbuf_writer` leaves behind once the buffer has grown: it is full, nothing could be
read, or bytes were appended. -/
inductive WriterDoes {σ : Type} (cb : Cbuf) (r len : Int) (P : List Char → σ → Prop)
    (Q : List Char → σ → Except Errno Int → Prop) (src : σ) : Written σ → Prop where
  | full (hmode : cb.overwrite = .CBUF_NO_DROP) (hbound : cb.bound len = 0) :
      WriterDoes cb r len P Q src ⟨.error .ENOSPC, none, src, cb⟩
  | nothing (m : Except Errno Int) (src' : σ) (hP : P [] src') (hQ : Q [] src' m) :
      WriterDoes cb r len P Q src ⟨m, none, src', cb⟩
  | bytes (bs : List Char) (m : Except Errno Int) (src' : σ) (cb' : Cbuf) (r' : Int) (hne : bs ≠ [])
      (hle : bs.length ≤ cb.bound len) (hP : P bs src') (hall : bs.length = cb.bound len ∨ Q bs src' m)
      (happ : Appended cb r bs cb' r') :
      WriterDoes cb r len P Q src
        ⟨.ok bs.length, some (max 0 (cb.used + bs.length - cb.size)), src', cb'⟩

/-- A buffer that made room for `len` bytes. -/
structure MadeRoom (cb : Cbuf) (r len : Int) (reallocs : Bool) (cb' : Cbuf) : Prop where
  inv : Inv cb' r
  grown : Grown cb cb'
  enough : reallocs = true → cb.used + len ≤ cb'.size ∨ cb'.size = cb.maxsize
  kept : reallocs = false → cb' = cb
  unneeded : cb.used + len ≤ cb.size → cb' = cb
  chunks : reallocs = true → cb.size - cb.used < len → cb.size < cb.maxsize →
    cb'.size = cb.grownSize (len - (cb.size - cb.used))

/-- `cbuf_writer` makes room and then writes what it reads. -/
theorem writer_spec {σ : Type} {getf : Getf σ} {P : List Char → σ → Prop}
    {Q : List Char → σ → Except Errno Int → Prop} (h : Inv cb r) {len : Int} (hlen : 0 < len)
    (hfit : cb.FitsInt len) (hget : GetfSpec getf P Q) {src : σ} (hP : P [] src) (reallocs : Bool) :
    ∃ cb₁, MadeRoom cb r len reallocs cb₁ ∧
      WriterDoes cb₁ r len P Q src (cb.writer len getf src reallocs) := by
  obtain ⟨hinv, hgrown, hfree, henough, hkept⟩ := h.attemptGrow hfit reallocs
  refine ⟨(cb.attemptGrow len reallocs).2, ⟨hinv, hgrown, henough, hkept,
    attemptGrow_eq_self, fun hr => by subst hr; exact size_attemptGrow h hfit⟩, ?_⟩
  have hsum := hinv.used_bound len (by rw [hgrown.overwrite, hgrown.used]; exact hfit.1)
  unfold Cbuf.writer
  simp only
  rw [hfree]
  generalize (cb.attemptGrow len reallocs).2 = cb₁ at hinv hsum ⊢
  obtain ⟨hnonneg, hle, hmode⟩ := hinv.bound_bounds hlen
  split
  · rename_i hfull
    exact .full hfull.1 hfull.2
  · rename_i hfull
    have hpos : 0 < cb₁.bound len := by
      rcases Int.lt_or_eq_of_le hnonneg with hlt | heq
      · exact hlt
      · exact absurd ⟨hmode heq.symm, heq.symm⟩ hfull
    have hin := hinv.in_nonneg
    have hin_le := hinv.in_le
    have hstart : Writing.At (⟨cb₁.data, cb₁.i_in, cb₁.bound len, .ok 0, src⟩ : Writing σ) cb₁.data
        cb₁.size cb₁.i_in (cb₁.bound len) [] :=
      ⟨rfl, by simp [Int.emod_eq_of_lt hin (show cb₁.i_in < cb₁.size + 1 by omega)], by simp, by simpa⟩
    obtain ⟨bs, hat, hPbs, hall⟩ := writerLoop_spec hget hinv.size_pos hinv.twice_size
      (cb₁.bound len).toNat hstart hP (by simp only; omega)
    generalize writerLoop cb₁.size getf (cb₁.bound len).toNat
      ⟨cb₁.data, cb₁.i_in, cb₁.bound len, .ok 0, src⟩ = w at *
    have hn : cb₁.bound len - w.nleft = bs.length := by rw [hat.nleft]; omega
    have hbound := hat.length
    rw [hn]
    by_cases hbs : bs = []
    · subst hbs
      rw [if_pos (by simp), hat.data]
      exact .nothing w.m w.src hPbs (hall.resolve_left (by simp; omega))
    · have hlength := List.length_pos_iff.mpr hbs
      rw [if_neg (by omega), if_pos (by omega), hat.data]
      obtain ⟨r', happ⟩ := hinv.updateMetadata bs (n := bs.length) (by omega) rfl
        hat.i_dst
      rw [show (bs.length : Int) - (cb₁.size - cb₁.used) = cb₁.used + bs.length - cb₁.size by omega]
      exact .bytes bs w.m w.src _ r' hbs hbound hPbs hall happ

/-- Memory is never short of bytes. -/
theorem getMem_spec (mem : Int → Char) (start : Int) :
    GetfSpec (getMem mem) (fun bs src => src = start + bs.length ∧ bs = block mem start bs.length)
      (fun _ _ _ => False) := by
  intro acc src n hP hn
  obtain ⟨hsrc, hacc⟩ := hP
  show (block mem src n.toNat).length ≤ n ∧ (src + n = start + (acc ++ block mem src n.toNat).length ∧
    acc ++ block mem src n.toNat = block mem start (acc ++ block mem src n.toNat).length) ∧ _
  rw [List.length_append, length_block, block_add, ← hacc, ← hsrc]
  exact ⟨by omega, ⟨by push_cast; omega, rfl⟩, fun hlt => absurd hlt (by omega)⟩

theorem getMem_start (mem : Int → Char) (start : Int) :
    start = start + ([] : List Char).length ∧ ([] : List Char) = block mem start ([] : List Char).length :=
  ⟨by simp, rfl⟩

/-- A descriptor never has more bytes than are asked for. -/
theorem getFd_spec :
    GetfSpec getFd (fun _ _ => True) (fun _ _ _ => True) := by
  intro acc src n _ hn
  induction src with
  | nil => exact ⟨by simpa [getFd] using hn.le, trivial, fun _ => trivial⟩
  | cons event reads ih =>
      cases event with
      | bytes bs => exact ⟨by simp only [List.length_take]; omega, trivial, fun _ => trivial⟩
      | fails e =>
          by_cases he : e = .EINTR
          · simpa only [getFd, if_pos he] using ih
          · simp only [getFd, if_neg he]
            exact ⟨trivial, trivial⟩

/-! ## `cbuf_copier` -/

/-- The loop copies a window of one ring behind what is in another. -/
theorem copierLoop_spec (src : Cbuf) (d : Int → Char) {size : Int} (s i : Int) {n : Nat} (hsrc : 0 < src.size)
    (hroom : 2 * src.size + CBUF_CHUNK + 2 ≤ INT_MAX) (hsize : 0 < size)
    (hroom' : 2 * size + CBUF_CHUNK + 2 ≤ INT_MAX) (fuel : Nat) {k : Nat} (hk : k ≤ n)
    (hfuel : n - k ≤ fuel) :
    copierLoop src size fuel (store d (size + 1) i (slice src.data (src.size + 1) s k))
        ((s + k) % (src.size + 1)) ((i + k) % (size + 1)) (n - k) =
      (store d (size + 1) i (slice src.data (src.size + 1) s n), (i + n) % (size + 1)) := by
  induction fuel generalizing k with
  | zero =>
      obtain rfl : k = n := by omega
      rfl
  | succ fuel ih =>
      have hs_nonneg := Int.emod_nonneg (s + k) (show src.size + 1 ≠ 0 by omega)
      have hs_lt := Int.emod_lt_of_pos (s + k) (show 0 < src.size + 1 by omega)
      have hi_nonneg := Int.emod_nonneg (i + k) (show size + 1 ≠ 0 by omega)
      have hi_lt := Int.emod_lt_of_pos (i + k) (show 0 < size + 1 by omega)
      unfold CBUF_CHUNK at hroom hroom'
      rw [copierLoop]
      split
      · simp only
        obtain ⟨m, hm⟩ := Int.eq_ofNat_of_zero_le (show 0 ≤ min (min (src.size + 1 - (s + k) % (src.size + 1))
          (size + 1 - (i + k) % (size + 1))) (n - k) by omega)
        rw [hm, Int.toNat_natCast, tmod_cint (by omega) (by omega), tmod_cint (by omega) (by omega),
          Int.emod_add_emod, Int.emod_add_emod,
          ← slice_eq_block (M := src.size + 1) hs_nonneg (by omega), slice_emod,
          ← store_eq_blit (M := size + 1) hi_nonneg (by rw [length_slice]; omega), store_emod]
        have hnext := @ih (k + m) (by omega) (by omega)
        rw [slice_add, store_append, length_slice] at hnext
        rw [← hnext]
        push_cast
        simp only [Int.add_assoc, Int.sub_sub]
      · obtain rfl : k = n := by omega
        rfl

theorem take_unread (cb : Cbuf) {n : Nat} (hn : n ≤ cb.used.toNat) :
    cb.unread.take n = slice cb.data (cb.size + 1) cb.i_out n := by
  rw [unread, take_slice hn]

/-- What `cbuf_copier` does with `len > 0` bytes of the source, once the destination has grown:
it is full, or the bytes are appended. -/
inductive CopierDoes (src dst : Cbuf) (r len : Int) : Except Errno Int × Option Int × Cbuf → Prop where
  | full (hmode : dst.overwrite = .CBUF_NO_DROP) (hbound : dst.bound len = 0) :
      CopierDoes src dst r len (.error .ENOSPC, none, dst)
  | bytes (dst' : Cbuf) (r' : Int) (hpos : 0 < dst.bound len)
      (happ : Appended dst r (src.unread.take (dst.bound len).toNat) dst' r') :
      CopierDoes src dst r len
        (.ok (dst.bound len), some (max 0 (dst.used + dst.bound len - dst.size)), dst')

/-- Only the last bytes of what is appended matter to a full buffer. -/
theorem rtake_append_rtake {xs ys : List Char} {k : Nat} (h : k ≤ ys.length) :
    (xs ++ ys.rtake k).rtake k = (xs ++ ys).rtake k := by
  have hlen : (ys.rtake k).length = k := by
    rw [List.rtake, List.length_drop]
    omega
  rw [rtake_append_of_le hlen.ge, rtake_append_of_le h, rtake_of_length_le hlen.le]

/-- What one buffer holds is never too much for the `int`s of another. -/
theorem fitsInt_copy {src dst : Cbuf} {r' : Int} (hs : Inv src r') (h : Inv dst r) (len : Int) :
    dst.FitsInt (min len src.used) := by
  have hsrc := hs.room
  have hsrc_fits := hs.fits
  have hsrc_max := hs.le_max
  have hsrc_rep := hs.rep_nonneg
  have hdst := h.room
  have hdst_fits := h.fits
  have hdst_max := h.le_max
  have hdst_rep := h.rep_nonneg
  have halloc := h.alloc_eq
  unfold CBUF_CHUNK at hsrc hdst
  unfold FitsInt CBUF_CHUNK
  omega

/-- `cbuf_copier` makes room in the destination and then copies. -/
theorem copier_spec {src dst : Cbuf} {r' : Int} (hs : Inv src r') (h : Inv dst r) {len : Int}
    (hlen : 0 < min len src.used) (reallocs : Bool) :
    ∃ dst₁, MadeRoom dst r (min len src.used) reallocs dst₁ ∧
      CopierDoes src dst₁ r (min len src.used) (copier src dst len reallocs) := by
  have hfit := fitsInt_copy hs h len
  obtain ⟨hinv, hgrown, hfree, henough, hkept⟩ := h.attemptGrow hfit reallocs
  refine ⟨(dst.attemptGrow (min len src.used) reallocs).2,
    ⟨hinv, hgrown, henough, hkept, attemptGrow_eq_self,
      fun hr => by subst hr; exact size_attemptGrow h hfit⟩, ?_⟩
  have hsum := hinv.used_bound (min len src.used)
    (by rw [hgrown.overwrite, hgrown.used]; exact hfit.1)
  unfold copier
  simp only
  rw [if_neg (show ¬ min len src.used = 0 by omega), hfree]
  generalize (dst.attemptGrow (min len src.used) reallocs).2 = dst₁ at hinv hsum ⊢
  obtain ⟨hnonneg, hle, hmode⟩ := hinv.bound_bounds hlen
  generalize hl : min len src.used = l at *
  split
  · rename_i hfull
    exact .full hfull.1 hfull.2
  · rename_i hfull
    have hpos : 0 < dst₁.bound l := by
      rcases Int.lt_or_eq_of_le hnonneg with hlt | heq
      · exact hlt
      · exact absurd ⟨hmode heq.symm, heq.symm⟩ hfull
    generalize hb : dst₁.bound l = b at *
    have hin := hinv.in_nonneg
    have hin_le := hinv.in_le
    have hused := hinv.used_nonneg
    have hsize := hinv.size_pos
    have hout := hs.out_bounds
    have hsrc := hs.twice_size
    have hfits := hs.fits
    have hr' := hs.rep_nonneg
    have hdst := hinv.twice_size
    have hfits' := hinv.fits
    have hr := hinv.rep_nonneg
    have htake := src.take_unread (n := b.toNat) (by omega)
    -- the bytes that are really copied: the last ones, when there are more than `size`
    obtain ⟨bs, hbs, hlength, hbytes⟩ : ∃ bs : List Char, bs.length = min b dst₁.size ∧
        (dst₁.history ++ bs).rtake dst₁.size.toNat =
          (dst₁.history ++ src.unread.take b.toNat).rtake dst₁.size.toNat ∧
        copierLoop src dst₁.size (if b > dst₁.size then b - (b - dst₁.size) else b).toNat dst₁.data
          (if b > dst₁.size then (cint (src.i_out + (b - dst₁.size))).tmod (src.size + 1) else src.i_out)
          dst₁.i_in (if b > dst₁.size then b - (b - dst₁.size) else b) =
          (store dst₁.data (dst₁.size + 1) dst₁.i_in bs, (dst₁.i_in + bs.length) % (dst₁.size + 1)) := by
      have hloop := fun (s : Int) (n : Nat) => copierLoop_spec src dst₁.data s dst₁.i_in
        hs.size_pos hsrc hsize hdst n (Nat.zero_le n) (by omega)
      simp only [Nat.cast_zero, Int.add_zero, Int.sub_zero, slice, store,
        Int.emod_eq_of_lt hin (show dst₁.i_in < dst₁.size + 1 by omega)] at hloop
      unfold CBUF_CHUNK at hsrc
      by_cases hmany : b > dst₁.size
      · refine ⟨(src.unread.take b.toNat).rtake dst₁.size.toNat, ?_, ?_, ?_⟩
        · rw [htake, List.rtake, List.length_drop, length_slice]
          omega
        · exact rtake_append_rtake (by rw [htake, length_slice]; omega)
        · rw [if_pos hmany, if_pos hmany, tmod_cint (by omega) (by omega), htake, List.rtake,
            length_slice, drop_slice (by omega)]
          have hrest := hloop (src.i_out + (b - dst₁.size)) dst₁.size.toNat
          rw [Int.toNat_of_nonneg hsize.le] at hrest
          rw [show b - (b - dst₁.size) = dst₁.size by omega, hrest, length_slice,
            show b.toNat - (b.toNat - dst₁.size.toNat) = dst₁.size.toNat by omega,
            Int.toNat_of_nonneg hsize.le,
            show ((b.toNat - dst₁.size.toNat : Nat) : Int) = b - dst₁.size by omega]
      · refine ⟨src.unread.take b.toNat, ?_, rfl, ?_⟩
        · rw [htake, length_slice]
          omega
        · have hall := hloop src.i_out b.toNat
          rw [Int.emod_eq_of_lt hout.1 (show src.i_out < src.size + 1 by omega),
            Int.toNat_of_nonneg hpos.le] at hall
          rw [if_neg hmany, if_neg hmany, htake, hall, length_slice, Int.toNat_of_nonneg hpos.le]
    have hncopy : (if b > dst₁.size then b - (b - dst₁.size) else b) = bs.length := by
      split <;> omega
    have hdropped : cint (b - dst₁.size + dst₁.used) = dst₁.used + b - dst₁.size := by
      have hmax : INT_MAX = 2147483647 := rfl
      unfold CBUF_CHUNK at hdst
      rw [cint_eq (by omega) (by omega)]
      omega
    rw [hbytes, hdropped, hncopy, if_pos (by omega)]
    obtain ⟨r'', happ⟩ := hinv.updateMetadata bs (n := bs.length) (by omega) rfl rfl
    have hcopied : ((src.unread.take b.toNat).length : Int) = b := by
      rw [htake, length_slice]
      omega
    rw [← hb] at hcopied hlength ⊢
    exact .bytes _ r'' (hb ▸ hpos) { happ with
      used := happ.used.trans (by rw [hcopied]; omega)
      total := happ.total.trans (by rw [hcopied]; omega)
      history := happ.history.trans hlength }

/-! ## `cbuf_reader` and `cbuf_replayer` -/

/-- The loop delivers a window of the ring to memory. -/
theorem readerLoop_mem (hsize : 0 < cb.size) (hroom : 2 * cb.size + CBUF_CHUNK + 2 ≤ INT_MAX)
    (fuel : Nat) (p : Int) {n : Nat} (m : Except Errno Int) (dst : List Char) (hfuel : n ≤ fuel) :
    (cb.readerLoop putMem fuel ⟨p % (cb.size + 1), n, m, dst⟩).nleft = 0 ∧
      (cb.readerLoop putMem fuel ⟨p % (cb.size + 1), n, m, dst⟩).dst =
        dst ++ slice cb.data (cb.size + 1) p n := by
  induction fuel generalizing p n m dst with
  | zero =>
      obtain rfl : n = 0 := by omega
      exact ⟨rfl, by simp [readerLoop, slice]⟩
  | succ fuel ih =>
      have hnonneg := Int.emod_nonneg p (show cb.size + 1 ≠ 0 by omega)
      have hlt := Int.emod_lt_of_pos p (show 0 < cb.size + 1 by omega)
      unfold CBUF_CHUNK at hroom
      rw [readerLoop]
      split
      · rename_i hpos
        simp only at hpos
        obtain ⟨k, hk⟩ := Int.eq_ofNat_of_zero_le
          (show 0 ≤ min (n : Int) (cb.size + 1 - p % (cb.size + 1)) by omega)
        have hblock : block cb.data (p % (cb.size + 1)) k = slice cb.data (cb.size + 1) p k := by
          rw [← slice_emod, slice_eq_block hnonneg (by omega)]
        simp only [hk, Int.toNat_natCast, putMem, length_block, ne_eq, not_true, if_false,
          if_pos (show (k : Int) > 0 by omega)]
        rw [tmod_cint (by omega) (by omega), Int.emod_add_emod, show (n : Int) - k = (n - k : Nat) by omega]
        obtain ⟨hleft, hdst⟩ := @ih (p + k) (n - k) (.ok k) (dst ++ block cb.data (p % (cb.size + 1)) k)
          (by omega)
        refine ⟨hleft, ?_⟩
        rw [hdst, hblock, List.append_assoc, ← slice_add, Nat.add_sub_cancel' (by omega)]
      · rename_i hzero
        simp only at hzero
        obtain rfl : n = 0 := by omega
        exact ⟨rfl, by simp [slice]⟩

/-- Bytes copied out to memory. -/
theorem copyOut_mem (hsize : 0 < cb.size) (hroom : 2 * cb.size + CBUF_CHUNK + 2 ≤ INT_MAX) {p : Int}
    {n : Nat} (hn : 0 < n) (dst : List Char) :
    cb.copyOut (p % (cb.size + 1)) n putMem dst = (.ok n, dst ++ slice cb.data (cb.size + 1) p n) := by
  obtain ⟨hleft, hdst⟩ := readerLoop_mem hsize hroom n p (.ok 0) dst le_rfl
  unfold copyOut
  simp only [Int.toNat_natCast, hleft, hdst, Int.sub_zero]
  rw [if_neg (by omega)]

/-- `cbuf_reader` delivers the first unread bytes. -/
theorem reader_mem (h : Inv cb r) {len : Int} (hlen : 0 ≤ len) (dst : List Char) :
    cb.reader len putMem dst = (.ok (min len cb.used), dst ++ cb.unread.take len.toNat) := by
  have hused := h.used_nonneg
  have hbounds := h.out_bounds
  have htake : cb.unread.take len.toNat = cb.unread.take (min len cb.used).toNat := by
    have hlength := h.length_unread
    rcases le_total len cb.used with hle | hge
    · rw [min_eq_left hle]
    · rw [min_eq_right hge, List.take_of_length_le (by omega), List.take_of_length_le (by omega)]
  obtain ⟨n, hn⟩ := Int.eq_ofNat_of_zero_le (show 0 ≤ min len cb.used by omega)
  unfold Cbuf.reader
  simp only
  rw [htake, hn, Int.toNat_natCast, cb.take_unread (by omega)]
  split
  · rename_i hzero
    obtain rfl : n = 0 := by omega
    simp [slice]
  · rw [← Int.emod_eq_of_lt hbounds.1 (show cb.i_out < cb.size + 1 by omega),
      copyOut_mem h.size_pos h.twice_size (by omega), slice_emod]

/-- `cbuf_replayer` delivers the last bytes that were read. -/
theorem replayer_mem (h : Inv cb r) {len : Int} (hlen : 0 ≤ len) (dst : List Char) :
    cb.replayer len putMem dst = (.ok (min len r), dst ++ cb.replayable.rtake len.toNat) := by
  have hr := h.rep_nonneg
  have hbounds := h.out_bounds
  have hroom := h.twice_size
  have hfits := h.fits
  have hused := h.used_nonneg
  obtain ⟨n, hn⟩ := Int.eq_ofNat_of_zero_le (show 0 ≤ min len r by omega)
  have hlast : cb.replayable.rtake len.toNat =
      slice cb.data (cb.size + 1) (cb.i_out - n) n := by
    have hlength := h.length_replayable
    have hstart : cb.i_out - n = (cb.i_in - cb.used) % (cb.size + 1) - n := by rw [h.out_eq]
    rw [hstart, ← slice_emod, Int.emod_sub_emod, slice_emod, List.rtake, replayable, length_slice,
      h.reused_eq, drop_slice (by omega), h.rep_eq, ← slice_emod, Int.emod_add_emod, slice_emod]
    congr 1 <;> omega
  unfold Cbuf.replayer
  simp only
  rw [h.reused_eq, hlast, hn]
  split
  · rename_i hzero
    obtain rfl : n = 0 := by omega
    simp [slice]
  · unfold CBUF_CHUNK at hroom
    rw [tmod_cint (by omega) (by omega), Int.add_emod_right,
      copyOut_mem h.size_pos h.twice_size (by omega)]

/-- A function that copies bytes into an object takes some of them, or fails. -/
def PutfSpec {δ : Type} (putf : Putf δ) : Prop :=
  ∀ dst bytes m dst', putf dst bytes = (.ok m, dst') → 0 ≤ m ∧ m ≤ bytes.length

theorem putMem_spec : PutfSpec putMem := by
  intro dst bytes m dst' h
  cases h
  omega

theorem putFd_spec : PutfSpec putFd := by
  intro fd bytes m fd' h
  unfold putFd at h
  generalize fd.writes = writes at h
  induction writes with
  | nil =>
      cases h
      omega
  | cons event writes ih =>
      cases event with
      | takes n =>
          cases h
          rw [List.length_take]
          omega
      | fails e =>
          rw [putFdFrom] at h
          split at h
          · exact ih h
          · cases h

/-- The loop never takes more than is left, and what it returns when it took nothing is no
number of bytes. -/
theorem readerLoop_bounds {δ : Type} {putf : Putf δ} (hput : PutfSpec putf) (cb : Cbuf) (fuel : Nat)
    (s : Reading δ) (hleft : 0 ≤ s.nleft) (hm : ∀ k, s.m = .ok k → k = 0) :
    0 ≤ (cb.readerLoop putf fuel s).nleft ∧ (cb.readerLoop putf fuel s).nleft ≤ s.nleft ∧
      ((cb.readerLoop putf fuel s).nleft = s.nleft → ∀ k, (cb.readerLoop putf fuel s).m = .ok k → k = 0) := by
  have hmore : ∀ (fuel : Nat) (s : Reading δ), 0 ≤ s.nleft →
      0 ≤ (cb.readerLoop putf fuel s).nleft ∧ (cb.readerLoop putf fuel s).nleft ≤ s.nleft := by
    intro fuel
    induction fuel with
    | zero => exact fun s hs => ⟨hs, le_rfl⟩
    | succ fuel ih =>
        intro s hs
        rw [readerLoop]
        split
        · cases hcall : putf s.dst (block cb.data s.i_src (min s.nleft (cb.size + 1 - s.i_src)).toNat) with
          | mk got dst =>
              cases got with
              | error e =>
                  simp only [hcall]
                  omega
              | ok m =>
                  have hbounds := hput _ _ _ _ hcall
                  rw [length_block] at hbounds
                  simp only [hcall]
                  by_cases hpos : m > 0
                  · simp only [if_pos hpos]
                    split
                    · simp only
                      omega
                    · have hrest := ih ⟨(cint (s.i_src + m)).tmod (cb.size + 1), s.nleft - m, .ok m, dst⟩
                        (by simp only; omega)
                      simp only at hrest
                      omega
                  · simp only [if_neg hpos]
                    split
                    · simp only
                      omega
                    · exact ih ⟨s.i_src, s.nleft, .ok m, dst⟩ hs
        · omega
  refine ⟨(hmore fuel s hleft).1, (hmore fuel s hleft).2, ?_⟩
  induction fuel generalizing s with
  | zero => exact fun _ => hm
  | succ fuel ih =>
      rw [readerLoop]
      split
      · cases hcall : putf s.dst (block cb.data s.i_src (min s.nleft (cb.size + 1 - s.i_src)).toNat) with
        | mk got dst =>
            cases got with
            | error e =>
                simp only [hcall]
                exact fun _ k hk => by cases hk
            | ok m =>
                have hbounds := hput _ _ _ _ hcall
                rw [length_block] at hbounds
                simp only [hcall]
                by_cases hpos : m > 0
                · simp only [if_pos hpos]
                  split
                  · simp only
                    omega
                  · have hrest := (hmore fuel
                      ⟨(cint (s.i_src + m)).tmod (cb.size + 1), s.nleft - m, .ok m, dst⟩
                      (by simp only; omega)).2
                    simp only at hrest
                    omega
                · simp only [if_neg hpos]
                  split
                  · intro _ k hk
                    cases hk
                    omega
                  · exact ih ⟨s.i_src, s.nleft, .ok m, dst⟩ hleft fun k hk => by cases hk; omega
      · exact fun _ => hm

/-- `cbuf_reader` reports no more bytes than are unread. -/
theorem reader_bounds {δ : Type} {putf : Putf δ} (hput : PutfSpec putf) (h : Inv cb r) {len n : Int}
    (hlen : 0 ≤ len) {dst : δ} (hret : (cb.reader len putf dst).1 = .ok n) : 0 ≤ n ∧ n ≤ cb.used := by
  have hused := h.used_nonneg
  unfold Cbuf.reader at hret
  simp only at hret
  split at hret
  · cases hret
    omega
  · obtain ⟨hnonneg, hle, hzero⟩ := readerLoop_bounds hput cb (min len cb.used).toNat
      ⟨cb.i_out, min len cb.used, .ok 0, dst⟩ (by simp only; omega) (fun k hk => by cases hk; rfl)
    unfold copyOut at hret
    simp only at hret hle hzero
    split at hret
    · have := hzero (by omega) n hret
      omega
    · cases hret
      omega

end Cbuf

end Pdsh
