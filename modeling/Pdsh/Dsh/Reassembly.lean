import Pdsh.Dsh.Reading

/-!
# Lines are put together again

However the bytes of a host are split into reads, what is printed for it is its stream, line by
line with its label, and whatever the order of the reads, they come to the end of it
(`output_reassembled`). A call of `_do_output` leaves an open line in the buffer at most, so the
flush at the end has no complete line to print for the wrong host, and the buffer grows before
bytes could be dropped.
-/

namespace Pdsh.Dsh

open Lib.Transition Lib.Ring Lib.Lines

/-! ## The buffer of a host -/

/-- The buffer of a stream holds the unread bytes `u`; it is one of those `_thd_init` creates.
Growing takes it from 64 bytes in chunks to its maximum. -/
structure Holds (cb : Cbuf) (u : List Char) : Prop where
  inv : ∃ r, Cbuf.Inv cb r
  unread : cb.unread = u
  magic : cb.magic.length = 0 ∨ cb.magic.length = 8
  maxsize : cb.maxsize = 131072
  overwrite : cb.overwrite = .CBUF_WRAP_MANY
  sizes : cb.size = 64 ∨ cb.alloc = 1000 ∨ (∃ k, cb.alloc = 2000 * k) ∨ cb.size = 131072

namespace Holds

variable {cb : Cbuf} {u : List Char}

theorem used (h : Holds cb u) : cb.used = u.length := by
  obtain ⟨r, hinv⟩ := h.inv
  rw [← hinv.length_unread, h.unread]

theorem length_le (h : Holds cb u) : (u.length : Int) ≤ cb.size := by
  obtain ⟨r, hinv⟩ := h.inv
  have hfits := hinv.fits
  have hr := hinv.rep_nonneg
  rw [← h.used]
  omega

/-- A new buffer holds nothing. -/
theorem create {ndebug mallocs : Bool} {heap : Int → Char}
    (h : Cbuf.create ndebug mallocs heap 64 131072 = .ok cb) : Holds cb [] := by
  have hmagic : (CBUF_MAGIC ndebug).length = 0 ∨ (CBUF_MAGIC ndebug).length = 8 := by
    cases ndebug with
    | false => exact .inr rfl
    | true => exact .inl rfl
  obtain ⟨hinv, hhistory⟩ := Cbuf.inv_create (by unfold CBUF_CHUNK INT_MAX; omega) h
  have hempty : cb.unread = [] := by rw [hinv.unread_eq, hhistory, List.drop_nil]
  unfold Cbuf.create at h
  rw [if_neg (by omega)] at h
  simp only at h
  split at h
  · cases h
    exact ⟨⟨0, hinv⟩, hempty, hmagic, rfl, rfl, .inl rfl⟩
  · cases h

/-- Bytes that are read leave the buffer. -/
theorem read (h : Holds cb u) {n : Int} (hn : 0 < n) :
    ∃ cb', cb.read false n = (.ok (min n u.length), u.take n.toNat, cb') ∧ Holds cb' (u.drop n.toNat) := by
  obtain ⟨r, hinv⟩ := h.inv
  have hused := h.used
  unfold Cbuf.read
  rw [if_neg (by simp only [Bool.false_eq_true, false_or]; omega), if_neg hn.ne']
  simp only [Cbuf.reader_mem hinv hn.le, List.nil_append, h.unread, hused]
  refine ⟨_, rfl, ?_⟩
  -- the bytes that were copied are dropped, if there were any
  unfold Cbuf.dropRead
  simp only
  by_cases hpos : min n (u.length : Int) > 0
  · rw [if_pos hpos]
    obtain ⟨hinv', -⟩ := hinv.dropper (show 0 ≤ min n (u.length : Int) by omega) (by omega)
    have hview := Cbuf.view_dropper hinv (n := min n u.length) (by omega) (by omega)
    have hunread : (cb.dropper (min n u.length)).unread = u.drop (min n u.length).toNat := by
      have := congrArg TwoPart.unread hview
      rwa [Cbuf.view, TwoPart.drop, Cbuf.view, h.unread] at this
    have hkept : (cb.dropper (min n u.length)).magic = cb.magic ∧
        (cb.dropper (min n u.length)).maxsize = cb.maxsize ∧
        (cb.dropper (min n u.length)).overwrite = cb.overwrite ∧
        (cb.dropper (min n u.length)).size = cb.size ∧
        (cb.dropper (min n u.length)).alloc = cb.alloc := by
      unfold Cbuf.dropper Cbuf.shrink
      simp only [ite_self, and_self]
    obtain ⟨hmagic, hmax, hmode, hsize, halloc⟩ := hkept
    refine ⟨⟨_, hinv'⟩, ?_, hmagic ▸ h.magic, hmax ▸ h.maxsize, hmode ▸ h.overwrite, ?_⟩
    · rw [hunread]
      rcases le_total n u.length with hle | hge
      · rw [min_eq_left hle]
      · rw [List.drop_of_length_le (by omega), List.drop_of_length_le (by omega)]
    · rw [hsize, halloc]
      exact h.sizes
  · rw [if_neg hpos]
    obtain rfl : u = [] := List.length_eq_zero_iff.mp (by omega)
    rw [List.drop_nil]
    exact h

/-- `cbuf_peek_line` tells the length of the first line. -/
theorem peekLine (h : Holds cb u) : (cb.peekLine false 1 1).1 = .ok (Cbuf.firstLine u) := by
  obtain ⟨r, hinv⟩ := h.inv
  unfold Cbuf.peekLine
  rw [if_neg (by decide), if_neg (by decide)]
  show Except.ok (cb.findUnreadLine (1 - 1) 1).1 = _
  rw [hinv.findUnreadLine_eq, h.unread, Cbuf.foundLines_one]

/-- There is room for what is asked for, unless the buffer is full and cannot grow. -/
theorem grown (h : Holds cb u) {r : Int} (hinv : Cbuf.Inv cb r) {cb' : Cbuf}
    (hroom : Cbuf.MadeRoom cb r (cb.fdLength (-1)) true cb') :
    Holds cb' u ∧ (u.length + cb.fdLength (-1) ≤ cb'.size ∨ u.length = 131072) := by
  have hpos := hinv.size_pos
  have halloc := hinv.alloc_eq
  have halloc' := hroom.inv.alloc_eq
  have hfits := hinv.fits
  have hrep := hinv.rep_nonneg
  have hmax := h.maxsize
  have hlemax := hinv.le_max
  have hused := h.used
  have hmagic := h.magic
  have hlen : cb.fdLength (-1) = if cb.size - cb.used = 0 then min cb.size CBUF_CHUNK
      else cb.size - cb.used := by
    unfold Cbuf.fdLength
    rw [if_pos rfl]
  have hview := Cbuf.view_grown hinv hroom.inv hroom.grown
  have hunread : cb'.unread = u := by
    have := congrArg TwoPart.unread hview
    rwa [Cbuf.view, Cbuf.view, h.unread] at this
  have hmagic' : cb'.magic.length = cb.magic.length := by rw [hroom.grown.magic]
  have hholds (hsizes : cb'.size = 64 ∨ cb'.alloc = 1000 ∨ (∃ k, cb'.alloc = 2000 * k) ∨
      cb'.size = 131072) : Holds cb' u :=
    ⟨⟨r, hroom.inv⟩, hunread, by rw [hmagic']; exact hmagic, by rw [hroom.grown.maxsize, hmax],
      by rw [hroom.grown.overwrite, h.overwrite], hsizes⟩
  by_cases hfree : cb.size - cb.used = 0
  · by_cases hfull : cb.size < cb.maxsize
    · -- a full buffer grows by whole chunks, of which `sizes` gives the ones that occur
      rw [if_pos hfree] at hlen
      have hsize := hroom.chunks rfl (by unfold CBUF_CHUNK at hlen; omega) hfull
      rw [hlen, hfree, Int.sub_zero] at hsize
      unfold Cbuf.grownSize at hsize
      unfold CBUF_CHUNK at hsize hlen
      rcases h.sizes with h64 | h1000 | ⟨k, hk⟩ | hlast
      · exact ⟨hholds (.inr (.inl (by omega))), .inl (by omega)⟩
      · exact ⟨hholds (.inr (.inr (.inl ⟨1, by omega⟩))), .inl (by omega)⟩
      · by_cases hcapped : cb'.size = 131072
        · exact ⟨hholds (.inr (.inr (.inr hcapped))), .inl (by omega)⟩
        · exact ⟨hholds (.inr (.inr (.inl ⟨k + 1, by omega⟩))), .inl (by omega)⟩
      · omega
    · have hle := hroom.grown.size_le
      have hle_max := hroom.inv.le_max
      rw [hroom.grown.maxsize] at hle_max
      exact ⟨hholds (.inr (.inr (.inr (by omega)))), .inr (by omega)⟩
  · rw [if_neg hfree] at hlen
    have hsame := hroom.unneeded (by omega)
    exact ⟨hsame ▸ h, .inl (by rw [hsame]; omega)⟩

end Holds

/-! ## Scripts of reads -/

/-- The bytes that are still to be read. -/
def streamOf : List Cbuf.FdRead → List Char
  | [] => []
  | .bytes bs :: reads => bs ++ streamOf reads
  | .fails _ :: reads => streamOf reads

/-- A read gives bytes, is to be tried again, or was interrupted. -/
def ReadsOk (reads : List Cbuf.FdRead) : Prop :=
  ∀ event ∈ reads, event = .fails .EAGAIN ∨ event = .fails .EINTR ∨ ∃ bs, bs ≠ [] ∧ event = .bytes bs

/-- The reads move along the stream; one that gives no byte has come to its end. -/
theorem getFd_stream (whole : List Char) :
    Cbuf.GetfSpec Cbuf.getFd (fun bs src => whole = bs ++ streamOf src ∧ ReadsOk src)
      (fun _ src m => m = .error .EAGAIN ∨ ∃ k : Nat, m = .ok (k : Int) ∧ (k = 0 → src = [])) := by
  intro acc src n hP hn
  induction src with
  | nil =>
      refine ⟨by simpa [Cbuf.getFd] using hn.le, by simpa [Cbuf.getFd] using hP, fun _ => ?_⟩
      exact .inr ⟨0, rfl, fun _ => rfl⟩
  | cons event reads ih =>
      obtain ⟨hwhole, hok⟩ := hP
      have hrest : ReadsOk reads := fun e he => hok e (List.mem_cons_of_mem _ he)
      rcases hok event List.mem_cons_self with rfl | rfl | ⟨bs, hbs, rfl⟩
      · exact ⟨⟨hwhole, hrest⟩, .inl rfl⟩
      · -- an interrupted read is tried again at once
        exact ih ⟨hwhole, hrest⟩
      · have hlength := List.length_pos_iff.mpr hbs
        simp only [Cbuf.getFd]
        refine ⟨by rw [List.length_take]; omega, ⟨?_, ?_⟩, fun _ => .inr ⟨_, rfl, fun h => ?_⟩⟩
        · rw [hwhole, streamOf]
          split
          · rw [List.take_of_length_le (by omega), List.append_assoc]
          · rw [streamOf, List.append_assoc, ← List.append_assoc (bs.take _), List.take_append_drop]
        · split
          · exact hrest
          · rename_i hmore
            intro e he
            rcases List.mem_cons.mp he with rfl | he
            · refine .inr (.inr ⟨_, ?_, rfl⟩)
              intro hnil
              rw [List.drop_eq_nil_iff] at hnil
              omega
            · exact hrest e he
        · rw [List.length_take] at h
          omega

/-- What `cbuf_write_from_fd` leaves in the buffer of a stream: the last bytes of those it had and
those that were read. Only a full buffer drops some, and never more than a chunk. -/
theorem writeFromFd_tail {cb : Cbuf} {u : List Char} (h : Holds cb u) {fd : Int} (hfd : 0 ≤ fd)
    {reads : List Cbuf.FdRead} (hreads : ReadsOk reads) :
    ∃ bs ret reads' cb' dropped, cb.writeFromFd fd reads (-1) true = (ret, dropped, reads', cb') ∧
      streamOf reads = bs ++ streamOf reads' ∧ ReadsOk reads' ∧ Holds cb' ((u ++ bs).rtake 131072) ∧
      (131072 < (u ++ bs).length → u.length = 131072 ∧ bs.length ≤ 1000) ∧
      ((ret = .error .EAGAIN ∧ bs = []) ∨ ∃ k : Nat, ret = .ok (k : Int) ∧ (k = 0 → reads' = [])) := by
  obtain ⟨r, hinv⟩ := h.inv
  have hsize := hinv.size_pos
  have hused := h.used
  have hle := h.length_le
  have hlen : 0 < cb.fdLength (-1) ∧ cb.fdLength (-1) ≤ cb.size := by
    unfold Cbuf.fdLength CBUF_CHUNK
    rw [if_pos rfl]
    simp only
    split <;> omega
  have hroom := hinv.room
  have hmax := hinv.le_max
  have halloc := hinv.alloc_eq
  have hfit : cb.FitsInt (cb.fdLength (-1)) := by
    unfold Cbuf.FitsInt
    unfold CBUF_CHUNK INT_MAX at *
    omega
  obtain ⟨cb₁, hmade, hdoes⟩ := Cbuf.writer_spec hinv hlen.1 hfit (getFd_stream (streamOf reads))
    (show streamOf reads = [] ++ streamOf reads ∧ ReadsOk reads from ⟨rfl, hreads⟩) true
  obtain ⟨hholds, hspace⟩ := h.grown hinv hmade
  have hmax₁ := hmade.inv.le_max
  have hmaxsize := hholds.maxsize
  have hle₁ := hholds.length_le
  unfold Cbuf.writeFromFd
  rw [if_neg (by omega)]
  simp only [if_pos (show cb.fdLength (-1) > 0 from hlen.1)]
  generalize cb.writer (cb.fdLength (-1)) Cbuf.getFd reads true = w at hdoes
  cases hdoes with
  | full hmode _ => rw [hholds.overwrite] at hmode; cases hmode
  | nothing m src' hP hQ =>
      have hsame : (u ++ []).rtake 131072 = u := by
        rw [List.append_nil]
        exact rtake_of_length_le (by omega)
      refine ⟨[], m, src', cb₁, 0, rfl, hP.1, hP.2, by rwa [hsame], fun hover => ?_, ?_⟩
      · rw [List.append_nil] at hover
        omega
      · exact hQ.imp (fun h => ⟨h, rfl⟩) id
  | bytes bs m src' cb' r' hne hbound hP hall happ =>
      have hlength := List.length_pos_iff.mpr hne
      have hmode : cb₁.bound (cb.fdLength (-1)) = cb.fdLength (-1) := by
        unfold Cbuf.bound
        rw [hholds.overwrite]
      rw [hmode] at hbound
      obtain ⟨r₁, hinv₁⟩ := hholds.inv
      have hview := Cbuf.view_appended hmade.inv happ
      have hunread : cb'.unread = (u ++ bs).rtake cb₁.size.toNat := by
        have := congrArg TwoPart.unread hview
        rwa [Cbuf.view, TwoPart.append, Cbuf.view, hholds.unread] at this
      -- a buffer that is not of the largest size has room for everything
      have hlast : (u ++ bs).rtake cb₁.size.toNat = (u ++ bs).rtake 131072 := by
        rcases hspace with hroomy | hfull
        · have hlen' : (u ++ bs).length ≤ cb₁.size := by
            rw [List.length_append]
            omega
          rw [rtake_of_length_le (by omega), rtake_of_length_le (by omega)]
        · congr 1
          omega
      have hcut : 131072 < (u ++ bs).length → u.length = 131072 ∧ bs.length ≤ 1000 := by
        intro hover
        rw [List.length_append] at hover
        rcases hspace with hroomy | hfull
        · omega
        · -- the buffer was full before it grew
          have hmaxsize' := h.maxsize
          have hchunk : cb.fdLength (-1) ≤ 1000 := by
            unfold Cbuf.fdLength CBUF_CHUNK
            rw [if_pos rfl]
            simp only
            split <;> omega
          omega
      have hsame : cb'.alloc = cb₁.alloc := by
        rw [happ.inv.alloc_eq, hinv₁.alloc_eq, happ.size, happ.magic]
      refine ⟨bs, .ok bs.length, src', cb', _, rfl, hP.1, hP.2, ?_, hcut, .inr ⟨bs.length, rfl, by omega⟩⟩
      exact ⟨⟨r', happ.inv⟩, hunread.trans hlast, by rw [happ.magic]; exact hholds.magic,
        by rw [happ.maxsize, hholds.maxsize], by rw [happ.overwrite, hholds.overwrite],
        by rw [happ.size, hsame]; exact hholds.sizes⟩

/-- Where a full buffer has nothing left to read, all bytes are kept. -/
theorem writeFromFd_spec {cb : Cbuf} {u : List Char} (h : Holds cb u) {fd : Int} (hfd : 0 ≤ fd)
    {reads : List Cbuf.FdRead} (hreads : ReadsOk reads)
    (hfull : u.length = 131072 → streamOf reads = []) :
    ∃ bs ret reads' cb' dropped, cb.writeFromFd fd reads (-1) true = (ret, dropped, reads', cb') ∧
      streamOf reads = bs ++ streamOf reads' ∧ ReadsOk reads' ∧ Holds cb' (u ++ bs) ∧
      ((ret = .error .EAGAIN ∧ bs = []) ∨ ∃ k : Nat, ret = .ok (k : Int) ∧ (k = 0 → reads' = [])) := by
  obtain ⟨bs, ret, reads', cb', dropped, hwrite, hstream, hreads', hholds, hcut, hret⟩ :=
    writeFromFd_tail h hfd hreads
  refine ⟨bs, ret, reads', cb', dropped, hwrite, hstream, hreads', ?_, hret⟩
  have hfits : (u ++ bs).length ≤ 131072 := by
    by_contra hover
    obtain ⟨hlast, -⟩ := hcut (by omega)
    rw [hfull hlast] at hstream
    have hnil := (List.append_eq_nil_iff.mp hstream.symm).1
    rw [hnil, List.append_nil] at hover
    omega
  rwa [rtake_of_length_le hfits] at hholds

/-! ## Printing what is in the buffer -/

/-- What is printed in front of a line of the host. -/
def ThdOut.label (e : ErrState) (th : ThdOut) : CStr :=
  if th.labels then hostText e.keep_host_domain th.host ++ ": ".toList else []

/-- The characters of several prints. -/
def texts (prints : List Print) : CStr := prints.flatMap Print.text

theorem texts_append (ps qs : List Print) : texts (ps ++ qs) = texts ps ++ texts qs := by
  simp [texts]

/-- The print of a line is the label and the line. -/
theorem texts_line (e : ErrState) (th : ThdOut) {buf : CStr} (hbuf : buf ≠ []) :
    texts (if buf.length > 0 then
      if th.labels then [Print.outf (verr e "%S: %s".toList [.str th.host, .str buf])]
      else [Print.outf (verr e "%s".toList [.str buf])]
    else []) = th.label e ++ buf := by
  rw [if_pos (List.length_pos_iff.mpr hbuf)]
  unfold ThdOut.label
  split <;> simp [texts, Print.text, verr, verrConversion]

theorem stringIn_eq {bs : List Char} (h : '\x00' ∉ bs) : stringIn bs = bs := by
  refine List.takeWhile_eq_self_iff.mpr fun c hc => ?_
  simp only [ne_eq, decide_eq_true_eq]
  rintro rfl
  exact h hc

theorem extractRc_eq {buf : CStr} (h : ¬ RC_MAGIC <:+: buf) : extractRc buf = (0, buf) := by
  rw [extractRc, strstr_eq_none h]

/-- A piece of a stream cut behind its first newline. -/
theorem cut_line {u : List Char} (h : '\n' ∈ u) :
    '\n' ∉ u.take (u.idxOf '\n') ∧ u.take (Cbuf.firstLine u) = u.take (u.idxOf '\n') ++ ['\n'] := by
  have hlt := List.idxOf_lt_length_of_mem h
  refine ⟨fun hmem => ?_, ?_⟩
  · rw [List.mem_take_iff_idxOf_lt h] at hmem
    omega
  · rw [Cbuf.firstLine, if_pos h, List.take_add_one, List.getElem?_eq_getElem hlt, List.getElem_idxOf]
    rfl

/-- What `_flush_lines` makes of a line: the return code, and what is left to print. -/
def lineResult (read_rc : Bool) (rc : Int) (line : List Char) : Int × CStr :=
  if read_rc then extractRc (stringIn line) else (rc, stringIn line)

/-- A pass of the loop takes the first line out of the buffer. -/
theorem flushLines_line (e : ErrState) (read_rc : Bool) (th : ThdOut) (fuel : Nat) {cb : Cbuf}
    {u : List Char} (rc : Int) (h : Holds cb u) (hmem : '\n' ∈ u) :
    ∃ cb', Holds cb' (u.drop (Cbuf.firstLine u)) ∧
      let r := lineResult read_rc rc (u.take (Cbuf.firstLine u))
      let rest := flushLines e read_rc th fuel cb' r.1
      flushLines e read_rc th (fuel + 1) cb rc =
        { rest with
          prints := (if r.2.length > 0 then
              if th.labels then [Print.outf (verr e "%S: %s".toList [.str th.host, .str r.2])]
              else [Print.outf (verr e "%s".toList [.str r.2])]
            else []) ++ rest.prints } := by
  have hlt := List.idxOf_lt_length_of_mem hmem
  have hfirst : Cbuf.firstLine u = u.idxOf '\n' + 1 := by rw [Cbuf.firstLine, if_pos hmem]
  obtain ⟨cb', hread, hrest⟩ := h.read (n := Cbuf.firstLine u) (by omega)
  have hmin : min (Cbuf.firstLine u : Int) u.length ≠ 0 := by omega
  rw [Int.toNat_natCast] at hread hrest
  refine ⟨cb', hrest, ?_⟩
  rw [flushLines, h.peekLine]
  simp only
  rw [if_neg (by omega), hread]
  simp only [if_neg hmin]
  rfl

/-- Without a newline there is no line to take out. -/
theorem flushLines_open (e : ErrState) (read_rc : Bool) (th : ThdOut) (fuel : Nat) {cb : Cbuf}
    {u : List Char} (rc : Int) (h : Holds cb u) (hmem : '\n' ∉ u) :
    flushLines e read_rc th (fuel + 1) cb rc = ⟨[], cb, rc⟩ := by
  have hfirst : Cbuf.firstLine u = 0 := by rw [Cbuf.firstLine, if_neg hmem]
  rw [flushLines, h.peekLine, hfirst]
  rfl

/-- `_flush_lines` prints the complete lines and leaves what is behind them. -/
theorem flushLines_spec (e : ErrState) (read_rc : Bool) (th : ThdOut) (fuel : Nat) {cb : Cbuf}
    {u : List Char} (rc : Int) (h : Holds cb u) (hnul : '\x00' ∉ u)
    (hmagic : read_rc → ¬ RC_MAGIC <:+: u) (hfuel : u.length < fuel) :
    ∃ done p, u = done ++ p ∧ Ended '\n' done ∧ '\n' ∉ p ∧
      Holds (flushLines e read_rc th fuel cb rc).cb p ∧
      texts (flushLines e read_rc th fuel cb rc).prints = mark '\n' (th.label e) true done := by
  induction fuel generalizing cb u rc with
  | zero => omega
  | succ fuel ih =>
      by_cases hmem : '\n' ∈ u
      · obtain ⟨hline, hcut⟩ := cut_line hmem
        obtain ⟨cb', hrest, heq⟩ := flushLines_line e read_rc th fuel rc h hmem
        have hpos : 0 < Cbuf.firstLine u := by
          rw [Cbuf.firstLine, if_pos hmem]
          omega
        have hsplit : u = u.take (Cbuf.firstLine u) ++ u.drop (Cbuf.firstLine u) :=
          (List.take_append_drop ..).symm
        have hnul_line : '\x00' ∉ u.take (Cbuf.firstLine u) := fun hc => hnul (List.mem_of_mem_take hc)
        -- the line is printed as it was read
        have hbuf : (lineResult read_rc rc (u.take (Cbuf.firstLine u))).2 = u.take (Cbuf.firstLine u) := by
          unfold lineResult
          rw [stringIn_eq hnul_line]
          split
          · rename_i hrc
            rw [extractRc_eq fun hin => hmagic hrc (hin.trans (List.take_prefix ..).isInfix)]
          · rfl
        obtain ⟨done, p, hu, hdone, hp, hholds, htexts⟩ := ih
          (lineResult read_rc rc (u.take (Cbuf.firstLine u))).1 hrest
          (fun hc => hnul (List.mem_of_mem_drop hc))
          (fun hrc hin => hmagic hrc (hin.trans (List.drop_suffix ..).isInfix))
          (by rw [List.length_drop]; have := List.length_pos_of_mem hmem; omega)
        rw [heq]
        refine ⟨u.take (Cbuf.firstLine u) ++ done, p, ?_, ?_, hp, hholds, ?_⟩
        · rw [List.append_assoc, ← hu, ← hsplit]
        · exact ended_append (hcut ▸ ended_line _) hdone
        · simp only
          rw [texts_append, htexts, hbuf, texts_line e th (by rw [hcut]; simp), hcut,
            List.append_assoc _ ['\n'], List.singleton_append, mark_line _ _ hline]
          simp
      · rw [flushLines_open e read_rc th fuel rc h hmem]
        exact ⟨[], u, rfl, .inl rfl, hmem, h, rfl⟩

/-- `_do_output` prints the lines that are complete with what it reads. -/
theorem doOutput_spec (e : ErrState) (read_rc : Bool) (th : ThdOut) {cb : Cbuf} {u : List Char}
    (h : Holds cb u) (hopen : '\n' ∉ u) {fd : Int} (hfd : 0 ≤ fd) {reads : List Cbuf.FdRead}
    (hreads : ReadsOk reads) (hfull : u.length = 131072 → streamOf reads = [])
    (hnul : '\x00' ∉ u ++ streamOf reads) (hmagic : read_rc → ¬ RC_MAGIC <:+: u ++ streamOf reads) :
    ∃ done p, u ++ streamOf reads = done ++ p ++ streamOf (doOutput e read_rc th fd cb reads).reads ∧
      Ended '\n' done ∧ '\n' ∉ p ∧ ReadsOk (doOutput e read_rc th fd cb reads).reads ∧
      Holds (doOutput e read_rc th fd cb reads).cb p ∧
      texts (doOutput e read_rc th fd cb reads).prints = mark '\n' (th.label e) true done ∧
      ((doOutput e read_rc th fd cb reads).ret ≤ 0 → (doOutput e read_rc th fd cb reads).reads = []) := by
  obtain ⟨bs, ret, reads', cb', dropped, hwrite, hstream, hreads', hholds, hret⟩ :=
    writeFromFd_spec h hfd hreads hfull
  unfold doOutput
  rw [hwrite]
  rcases hret with ⟨rfl, rfl⟩ | ⟨k, rfl, hk⟩
  · simp only [if_true]
    refine ⟨[], u, by simpa using hstream, .inl rfl, hopen, hreads', ?_, rfl, fun hneg => ?_⟩
    · simpa using hholds
    · omega
  · have hsplit : u ++ streamOf reads = u ++ bs ++ streamOf reads' := by
      rw [hstream, List.append_assoc]
    have hpre : u ++ bs <+: u ++ streamOf reads := ⟨streamOf reads', hsplit.symm⟩
    obtain ⟨done, p, hu, hdone, hp, hholds', htexts⟩ := flushLines_spec e read_rc th
      (cb'.used.toNat + 1) th.rc hholds (fun hc => hnul (hpre.subset hc))
      (fun hrc hin => hmagic hrc (hin.trans hpre.isInfix)) (by rw [hholds.used]; omega)
    refine ⟨done, p, by rw [hsplit, hu], hdone, hp, hreads', hholds', htexts, fun hneg => hk ?_⟩
    simp only at hneg
    omega

/-- What no newline ends is printed behind one label. -/
theorem flushRest_spec (e : ErrState) (th : ThdOut) (fuel : Nat) (labeled : Bool) {cb : Cbuf}
    {u : List Char} (h : Holds cb u) (hnul : '\x00' ∉ u) (hfuel : u.length < fuel) :
    texts (flushRest e th fuel labeled cb).1 =
      (if u = [] ∨ labeled then [] else th.label e) ++ u := by
  induction fuel generalizing cb u labeled with
  | zero => omega
  | succ fuel ih =>
      obtain ⟨cb', hread, hrest⟩ := h.read (n := 8191) (by decide)
      rw [flushRest, hread]
      simp only
      by_cases hempty : u = []
      · subst hempty
        simp [texts]
      · have hpos := List.length_pos_iff.mpr hempty
        rw [if_pos (by omega), stringIn_eq fun hc => hnul (List.mem_of_mem_take hc)]
        have hnext := ih (labeled ∨ th.labels) hrest (fun hc => hnul (List.mem_of_mem_drop hc))
          (by rw [List.length_drop]; omega)
        have hpiece : texts [Print.outf (verr e "%s".toList [.str (u.take (Int.toNat 8191))])] =
            u.take (Int.toNat 8191) := by simp [texts, Print.text, verr, verrConversion]
        -- the first piece has the label, the others none
        have hlabel : texts (if th.labels ∧ ¬ labeled then [Print.outf (verr e "%S: ".toList [.str th.host])]
            else []) = if labeled then [] else th.label e := by
          unfold ThdOut.label
          cases labeled <;> cases th.labels <;> simp [texts, Print.text, verr, verrConversion]
        have hlater : (if u.drop (Int.toNat 8191) = [] ∨ decide (labeled = true ∨ th.labels = true) = true then []
            else th.label e) = [] := by
          unfold ThdOut.label
          cases labeled <;> cases th.labels <;> simp
        rw [hlater, List.nil_append] at hnext
        rw [texts_append, texts_append, hnext, hpiece, hlabel, List.append_assoc, List.take_append_drop]
        simp only [hempty, false_or]

/-- `_flush_output` prints the piece that is left; there is no line for the first thread. -/
theorem flushOutput_spec (e : ErrState) (t th : ThdOut) {cb : Cbuf} {u : List Char} (h : Holds cb u)
    (hopen : '\n' ∉ u) (hnul : '\x00' ∉ u) :
    texts (flushOutput e t th cb).1 = mark '\n' (th.label e) true u := by
  have hused := h.used
  -- nothing is cut off behind a newline
  have hlines : flushLines e false t (cb.used.toNat + 1) cb t.rc = ⟨[], cb, t.rc⟩ :=
    flushLines_open e false t _ t.rc h hopen
  unfold flushOutput
  rw [hlines]
  simp only [List.nil_append]
  rw [flushRest_spec e th _ false h hnul (by omega), mark_open u hopen]
  by_cases hempty : u = []
  · simp [hempty]
  · simp [hempty]

/-! ## All hosts -/

/-- The hosts before the first read. -/
structure OutputState.Start (s : OutputState) : Prop where
  created : ∀ i w, i < s.t.length → ∃ ndebug mallocs heap,
    Cbuf.create ndebug mallocs heap 64 131072 = .ok (s.streams i w).cb
  fd : ∀ i w, i < s.t.length → 0 ≤ (s.streams i w).fd
  reads : ∀ i w, i < s.t.length → ReadsOk (s.streams i w).reads
  closed : ∀ i w, i < s.t.length → (s.streams i w).closed = false
  flushed : ∀ i w, i < s.t.length → (s.streams i w).flushed = false
  log : s.log = []

/-- A stream without NUL bytes, whose lines fit into the buffer. The magic text for the return
code matters on standard output only. -/
structure Plain (w : Which) (whole : List Char) : Prop where
  nul : '\x00' ∉ whole
  magic : w = .stdout → ¬ RC_MAGIC <:+: whole
  lines : AtMost '\n' 131072 whole

/-- How far a stream has come: lines were printed and the buffer holds the open one, or it was
flushed behind the bytes `shown`. -/
inductive StreamProgress (label : CStr) (whole : List Char) (stream : Stream) (printed : CStr) : Prop where
  | reading (done p : List Char) (hwhole : whole = done ++ p ++ streamOf stream.reads)
      (hdone : Ended '\n' done) (hopen : '\n' ∉ p) (hholds : Holds stream.cb p) (hfd : 0 ≤ stream.fd)
      (hreads : ReadsOk stream.reads) (hprinted : printed = mark '\n' label true done)
      (hclosed : stream.closed → stream.reads = []) (hflushed : stream.flushed = false)
  | flushed (shown : List Char) (hwhole : whole = shown ++ streamOf stream.reads)
      (hprinted : printed = mark '\n' label true shown) (hclosed : stream.closed → stream.reads = [])
      (hflushed : stream.flushed = true)

/-- Every stream of the table `t` is in progress. -/
def AllProgress (e : ErrState) (s₀ s : OutputState) : Prop :=
  ∀ i th₀, s₀.t[i]? = some th₀ → ∃ th, s.t[i]? = some th ∧ th.label e = th₀.label e ∧
    ∀ w, StreamProgress (th.label e) (streamOf (s₀.streams i w).reads) (s.streams i w) (s.printed i w)

theorem OutputState.printed_print (s : OutputState) (i j : Nat) (w v : Which) (prints : List Print) :
    (s.print i w prints).printed j v =
      if j = i ∧ v = w then s.printed j v ++ texts prints else s.printed j v := by
  unfold OutputState.printed OutputState.print
  rw [List.filter_append, List.flatMap_append]
  split
  · rename_i hsame
    obtain ⟨rfl, rfl⟩ := hsame
    congr 1
    induction prints with
    | nil => rfl
    | cons p prints ih => simpa [texts] using ih
  · rename_i hother
    have hnone : (prints.map ((i, w), ·)).filter (fun q => decide (q.1 = (j, v))) = [] := by
      rw [List.filter_eq_nil_iff]
      rintro q hq
      obtain ⟨p, -, rfl⟩ := List.mem_map.mp hq
      simp only [decide_eq_true_eq, Prod.mk.injEq, not_and]
      rintro rfl rfl
      exact hother ⟨rfl, rfl⟩
    rw [hnone]
    simp

theorem StreamProgress.start {s : OutputState} (hs : s.Start) {i : Nat} (hi : i < s.t.length) (w : Which)
    (label : CStr) :
    StreamProgress label (streamOf (s.streams i w).reads) (s.streams i w) (s.printed i w) := by
  obtain ⟨ndebug, mallocs, heap, hcreate⟩ := hs.created i w hi
  refine .reading [] [] rfl (.inl rfl) (by simp) (Holds.create hcreate) (hs.fd i w hi) (hs.reads i w hi) ?_
    (by simp [hs.closed i w hi]) (hs.flushed i w hi)
  rw [OutputState.printed, hs.log]
  rfl

/-- A read goes on where the last one stopped. -/
theorem StreamProgress.output {e : ErrState} {th : ThdOut} {whole : List Char} {stream : Stream}
    {printed : CStr} {w : Which} (hplain : Plain w whole)
    (h : StreamProgress (th.label e) whole stream printed) (hopen : ¬ (stream.closed ∨ stream.flushed)) :
    let o := doOutput e (w = .stdout) th stream.fd stream.cb stream.reads
    StreamProgress (th.label e) whole { stream with cb := o.cb, reads := o.reads, closed := o.ret ≤ 0 }
      (printed ++ texts o.prints) := by
  intro o
  cases h with
  | reading done p hwhole hdone hp hholds hfd hreads hprinted hclosed hflushed =>
      -- what is in the buffer and what is still to be read is a part of the whole
      have hpart : p ++ streamOf stream.reads <:+ whole := ⟨done, by rw [hwhole, List.append_assoc]⟩
      obtain ⟨done', p', hsplit, hdone', hp', hreads', hholds', htexts, hret⟩ :=
        doOutput_spec e (w = .stdout) th hholds hp hfd hreads
          (fun hfull => by rw [hplain.lines.full hwhole hp hfull])
          (fun hc => hplain.nul (hpart.subset hc))
          (fun hw hin => hplain.magic (of_decide_eq_true hw) (hin.trans hpart.isInfix))
      refine .reading (done ++ done') p' ?_ (ended_append hdone hdone') hp' hholds' hfd hreads' ?_ ?_ hflushed
      · rw [hwhole, List.append_assoc, hsplit]
        simp only [List.append_assoc]
        rfl
      · rw [hprinted, htexts, mark_append hdone]
      · intro hc
        exact hret (of_decide_eq_true hc)
  | flushed shown hwhole hprinted hclosed hflushed => exact absurd (.inr hflushed) hopen

/-- A flush prints the open line. -/
theorem StreamProgress.flush {e : ErrState} {first th : ThdOut} {whole : List Char} {stream : Stream}
    {printed : CStr} {w : Which} (hplain : Plain w whole)
    (h : StreamProgress (th.label e) whole stream printed) (hunflushed : ¬ stream.flushed) :
    StreamProgress (th.label e) whole
      { stream with cb := (flushOutput e first th stream.cb).2, flushed := true }
      (printed ++ texts (flushOutput e first th stream.cb).1) := by
  cases h with
  | reading done p hwhole hdone hp hholds hfd hreads hprinted hclosed hflushed =>
      refine .flushed (done ++ p) hwhole ?_ hclosed rfl
      have hnul : '\x00' ∉ p := fun hc => hplain.nul (by
        rw [hwhole]
        simp [hc])
      rw [hprinted, flushOutput_spec e first th hholds hp hnul, mark_append hdone]
  | flushed shown hwhole hprinted hclosed hflushed => exact absurd hflushed hunflushed

/-- One stream may move on; the threads keep their labels. -/
theorem AllProgress.replace {e : ErrState} {s₀ s : OutputState} (h : AllProgress e s₀ s) {t : List ThdOut}
    (ht : ∀ (i : Nat) (th : ThdOut), s.t[i]? = some th → ∃ th', t[i]? = some th' ∧ th'.label e = th.label e)
    {j : Nat} {v : Which} {stream : Stream} {prints : List Print}
    (hnew : ∀ th, s.t[j]? = some th →
      StreamProgress (th.label e) (streamOf (s₀.streams j v).reads) stream (s.printed j v ++ texts prints)) :
    AllProgress e s₀ ((OutputState.setStream { s with t := t } j v stream).print j v prints) := by
  intro i th₀ hth₀
  obtain ⟨th, hth, hlabel, hprogress⟩ := h i th₀ hth₀
  obtain ⟨th', hth', hlabel'⟩ := ht i th hth
  refine ⟨th', hth', hlabel'.trans hlabel, fun w => ?_⟩
  rw [OutputState.printed_print, hlabel']
  show StreamProgress (th.label e) _ (if i = j ∧ w = v then stream else s.streams i w)
    (if i = j ∧ w = v then s.printed i w ++ texts prints else s.printed i w)
  split
  · rename_i hsame
    obtain ⟨rfl, rfl⟩ := hsame
    exact hnew th hth
  · exact hprogress w

/-- Each step takes one stream further and leaves the others where they are. -/
theorem AllProgress.step {e : ErrState} {s₀ s s' : OutputState} {event : OutputEvent}
    (hplain : ∀ i w, i < s₀.t.length → Plain w (streamOf (s₀.streams i w).reads))
    (hlength : s.t.length = s₀.t.length) (h : AllProgress e s₀ s) (hstep : outputStep e s event = some s') :
    AllProgress e s₀ s' ∧ s'.t.length = s₀.t.length := by
  -- the stream that moves belongs to a thread of the table
  have hknown : ∀ {j : Nat} {th : ThdOut} (v : Which), s.t[j]? = some th →
      Plain v (streamOf (s₀.streams j v).reads) ∧
        StreamProgress (th.label e) (streamOf (s₀.streams j v).reads) (s.streams j v) (s.printed j v) := by
    intro j th v hj
    have hlt := (List.getElem?_eq_some_iff.mp hj).1
    obtain ⟨th', hth', -, hprogress⟩ := h j s₀.t[j] (List.getElem?_eq_getElem (hlength ▸ hlt))
    obtain rfl : th = th' := Option.some.inj (hj.symm.trans hth')
    exact ⟨hplain j v (hlength ▸ hlt), hprogress v⟩
  cases event with
  | output j v =>
      unfold outputStep at hstep
      simp only at hstep
      split at hstep
      · cases hstep
      · rename_i th hj
        split at hstep
        · cases hstep
        · rename_i hopen
          obtain ⟨hpl, hprogress⟩ := hknown v hj
          cases hstep
          refine ⟨h.replace ?_ ?_, (List.length_set ..).trans hlength⟩
          · intro i thi hi
            by_cases hij : i = j
            · -- only the return code of the thread changes
              subst hij
              obtain rfl : thi = th := Option.some.inj (hi.symm.trans hj)
              exact ⟨_, List.getElem?_set_self (List.getElem?_eq_some_iff.mp hi).1, rfl⟩
            · exact ⟨thi, by rwa [List.getElem?_set_ne (Ne.symm hij)], rfl⟩
          · intro th' hj'
            obtain rfl : th' = th := Option.some.inj (hj'.symm.trans hj)
            exact hprogress.output hpl hopen
  | flush j v =>
      unfold outputStep at hstep
      simp only at hstep
      split at hstep
      · rename_i th first hj hfirst
        split at hstep
        · cases hstep
        · rename_i hunflushed
          obtain ⟨hpl, hprogress⟩ := hknown v hj
          cases hstep
          refine ⟨h.replace (t := s.t) (fun i thi hi => ⟨thi, hi, rfl⟩) ?_, hlength⟩
          intro th' hj'
          obtain rfl : th' = th := Option.some.inj (hj'.symm.trans hj)
          exact hprogress.flush hpl hunflushed
      · cases hstep

/-- `dsh` flushes a stream when its descriptor was closed. -/
def InOrder (s : OutputState) : OutputEvent → Prop
  | .output _ _ => True
  | .flush i w => (s.streams i w).closed

/-- A read of an open stream or the flush of a closed one. -/
def OutputNext (e : ErrState) (s s' : OutputState) : Prop :=
  ∃ event, InOrder s event ∧ outputStep e s event = some s'

/-- No stream was flushed that was not closed. -/
def FlushedClosed (s : OutputState) : Prop :=
  ∀ i w, (s.streams i w).flushed → (s.streams i w).closed

theorem FlushedClosed.next {e : ErrState} {s s' : OutputState} (h : FlushedClosed s)
    (hnext : OutputNext e s s') : FlushedClosed s' := by
  obtain ⟨event, horder, hstep⟩ := hnext
  intro i w hflushed
  cases event with
  | output j v =>
      obtain ⟨hothers, -⟩ := outputStep_output_work hstep
      by_cases hsame : i = j ∧ w = v
      · obtain ⟨rfl, rfl⟩ := hsame
        -- a read does not flush, and a stream that was flushed is not read
        exfalso
        unfold outputStep at hstep
        simp only at hstep
        split at hstep
        · cases hstep
        · split at hstep
          · cases hstep
          · rename_i hopen
            cases hstep
            apply hopen
            right
            simpa [OutputState.print, OutputState.setStream] using hflushed
      · rw [hothers i w hsame] at hflushed ⊢
        exact h i w hflushed
  | flush j v =>
      obtain ⟨-, -, hothers, hkept⟩ := outputStep_flush hstep
      rw [(hkept i w).2]
      by_cases hsame : i = j ∧ w = v
      · obtain ⟨rfl, rfl⟩ := hsame
        exact horder
      · rw [hothers i w hsame] at hflushed
        exact h i w hflushed

/-- All that the streams of `s₀` give is printed. -/
def AllPrinted (e : ErrState) (s₀ s : OutputState) : Prop :=
  ∀ i w th, s₀.t[i]? = some th →
    s.printed i w = mark '\n' (th.label e) true (streamOf (s₀.streams i w).reads)

/-- What is closed and flushed is printed whole. -/
theorem AllProgress.printed {e : ErrState} {s₀ s : OutputState} (h : AllProgress e s₀ s) {i : Nat}
    {w : Which} {th : ThdOut} (hth : s₀.t[i]? = some th) (hclosed : (s.streams i w).closed)
    (hflushed : (s.streams i w).flushed) :
    s.printed i w = mark '\n' (th.label e) true (streamOf (s₀.streams i w).reads) := by
  obtain ⟨th', -, hlabel, hprogress⟩ := h i th hth
  rw [← hlabel]
  cases hprogress w with
  | reading done p hwhole hdone hopen hholds hfd hreads hprinted hends hunflushed =>
      rw [hunflushed] at hflushed
      cases hflushed
  | flushed shown hwhole hprinted hends hflushed' =>
      rw [hprinted, hwhole, hends hclosed, streamOf, List.append_nil]

/-- Where not everything is printed, a stream can be read or flushed. -/
theorem printed_or_next {e : ErrState} {s₀ s : OutputState} (h : AllProgress e s₀ s)
    (hlength : s.t.length = s₀.t.length) (hfc : FlushedClosed s) :
    AllPrinted e s₀ s ∨ ∃ s', OutputNext e s s' := by
  by_cases hmore : ∃ i w, i < s.t.length ∧ (s.streams i w).flushed = false
  · obtain ⟨i, w, hi, hunflushed⟩ := hmore
    right
    cases hclosed : (s.streams i w).closed with
    | false =>
        obtain ⟨s', hs'⟩ := outputStep_output_enabled e hi hclosed hunflushed
        exact ⟨s', .output i w, trivial, hs'⟩
    | true =>
        obtain ⟨s', hs'⟩ := outputStep_flush_enabled e hi hunflushed
        exact ⟨s', .flush i w, hclosed, hs'⟩
  · left
    intro i w th hth
    have hi : i < s.t.length := hlength ▸ (List.getElem?_eq_some_iff.mp hth).1
    have hflushed : (s.streams i w).flushed = true := by
      by_contra hnot
      exact hmore ⟨i, w, hi, by simpa using hnot⟩
    exact h.printed hth (hfc i w hflushed) hflushed

/-- Output does not depend on how the streams are cut into reads, nor on the order of the hosts.
In every run, what is printed for a stream is the part of it that was shown, each line and the
open piece at its end behind the label of its own host; and once the stream was read to its end
and flushed, all of it was shown. From every state in which no stream was flushed too early, all
that is left to do are reads and flushes, in any order, and they come to an end where everything
is printed. -/
theorem output_reassembled (e : ErrState) {s s' : OutputState} (hstart : s.Start)
    (hplain : ∀ i w, i < s.t.length → Plain w (streamOf (s.streams i w).reads))
    (run : Steps (outputStep e) anyStep s s') :
    (∀ (i : Nat) (w : Which) (th : ThdOut), s.t[i]? = some th →
      (∃ shown rest, streamOf (s.streams i w).reads = shown ++ rest ∧
          s'.printed i w = mark '\n' (th.label e) true shown) ∧
        ((s'.streams i w).closed → (s'.streams i w).flushed →
          s'.printed i w = mark '\n' (th.label e) true (streamOf (s.streams i w).reads))) ∧
    (FlushedClosed s' → Inevitable (OutputNext e) (AllPrinted e s) s') := by
  have hinit : AllProgress e s s := by
    intro j th₀ hj
    exact ⟨th₀, hj, rfl, fun v => StreamProgress.start hstart (List.getElem?_eq_some_iff.mp hj).1 v _⟩
  obtain ⟨hall, hlength⟩ := run.invariant (I := fun s' => AllProgress e s s' ∧ s'.t.length = s.t.length)
    ⟨hinit, rfl⟩ fun _ _ _ ⟨hprogress, hlength⟩ _ hstep => hprogress.step hplain hlength hstep
  constructor
  · intro i w th hth
    refine ⟨?_, fun hclosed hflushed => hall.printed hth hclosed hflushed⟩
    obtain ⟨th', -, hlabel, hprogress⟩ := hall i th hth
    rw [← hlabel]
    cases hprogress w with
    | reading done p hwhole hdone hopen hholds hfd hreads hprinted hclosed hflushed =>
        exact ⟨done, p ++ streamOf (s'.streams i w).reads, by rw [hwhole, List.append_assoc], hprinted⟩
    | flushed shown hwhole hprinted hclosed hflushed => exact ⟨shown, _, hwhole, hprinted⟩
  · -- where something is left to print there is a step, and each step leaves less work
    intro hfc
    apply Inevitable.of_wf (I := fun s' => AllProgress e s s' ∧ s'.t.length = s.t.length ∧ FlushedClosed s')
      (measure streamsWork).wf _ _ ⟨hall, hlength, hfc⟩
    · intro s₁ hinv
      exact printed_or_next hinv.1 hinv.2.1 hinv.2.2
    · intro s₁ s₂ hinv hnext
      obtain ⟨event, -, hstep⟩ := id hnext
      obtain ⟨hprogress, hlength'⟩ := hinv.1.step hplain hinv.2.1 hstep
      exact ⟨⟨hprogress, hlength', hinv.2.2.next hnext⟩, streamsWork_lt hstep⟩

/-- A host whose two lines come in three reads, with one that would have blocked. -/
theorem output_reassembled_split : ∃ s s' : OutputState, ∃ e : ErrState,
    (s.streams 0 .stdout).reads =
      [.bytes "x".toList, .fails .EAGAIN, .bytes "\ny".toList] ∧
    replay (outputStep e) s [.output 0 .stdout, .output 0 .stdout, .output 0 .stdout,
      .output 0 .stdout, .flush 0 .stdout] = some s' ∧
    s'.printed 0 .stdout = "a: x\na: y".toList ∧
    Inevitable (OutputNext e) (AllPrinted e s) s := by
  let e : ErrState := ⟨[], [], false, []⟩
  obtain ⟨cb, hcreate⟩ : ∃ cb, Cbuf.create true true (fun _ => '\x00') 64 131072 = .ok cb := ⟨_, rfl⟩
  let s : OutputState := {
    t := [⟨"a".toList, true, 0⟩]
    streams := fun _ _ => ⟨cb, 3, [.bytes "x".toList, .fails .EAGAIN, .bytes "\ny".toList], false, false⟩
    log := [] }
  have hruns : ((replay (outputStep e) s [.output 0 .stdout, .output 0 .stdout, .output 0 .stdout,
      .output 0 .stdout, .flush 0 .stdout]).map fun s' =>
      ((s'.streams 0 .stdout).closed, (s'.streams 0 .stdout).flushed)) = some (true, true) := by
    cases hcreate
    decide +kernel
  obtain ⟨s', hreplay, hends⟩ := Option.map_eq_some_iff.mp hruns
  obtain ⟨hclosed, hflushed⟩ := Prod.mk.injEq .. |>.mp hends
  have hreads : ReadsOk [.bytes "x".toList, .fails .EAGAIN, .bytes "\ny".toList] := by
    intro event hevent
    simp only [List.mem_cons, List.not_mem_nil, or_false] at hevent
    rcases hevent with rfl | rfl | rfl
    · exact .inr (.inr ⟨_, by decide, rfl⟩)
    · exact .inl rfl
    · exact .inr (.inr ⟨_, by decide, rfl⟩)
  have hshort : ∀ {part : List Char}, part <:+: "x\ny".toList → part.length ≤ 3 := fun h => h.length_le
  have hplain : ∀ w, Plain w "x\ny".toList := fun w =>
    ⟨by decide, fun _ h => absurd (hshort h) (by decide),
      fun before line after h _ => (hshort ⟨before, after, h.symm⟩).trans (by decide)⟩
  have hstart : s.Start :=
    ⟨fun _ _ _ => ⟨_, _, _, hcreate⟩, fun _ _ _ => show (0 : Int) ≤ 3 by decide, fun _ _ _ => hreads,
      fun _ _ _ => rfl, fun _ _ _ => rfl, rfl⟩
  have hall := ((@output_reassembled e s s' hstart (fun _ w _ => hplain w)
    (Steps.of_replay (fun _ _ _ h => ⟨trivial, h⟩) hreplay)).1 0 .stdout _ rfl).2 hclosed hflushed
  refine ⟨s, s', e, rfl, hreplay, ?_, ?_⟩
  · rw [hall]
    rfl
  · apply (@output_reassembled e s s hstart (fun _ w _ => hplain w) .refl).2
    intro i w h
    cases h

end Pdsh.Dsh
