import Pdsh.Cbuf.Refine

/-!
# Writing a line whole

`cbuf_write_line` makes room for the line, drops the head of a line that is longer than the
buffer, and writes the rest and the newline one after the other. Each of the two writes makes
room again if the first attempt got no memory, and then the buffer is larger than the size the
head was cut for. `write_line_whole_iff` says for which buffers and answers of `realloc` that
costs bytes.
-/

namespace Pdsh

open Lib.Ring

namespace Cbuf

variable {cb cb' : Cbuf} {r r' len : Int} {reallocs : Bool}

/-! ## Room -/

/-- Room for `len` bytes is needed and can be had: the size asked for, rounded up to whole
chunks, is an `int`, and `realloc` succeeds. -/
def Grows (cb : Cbuf) (len : Int) (reallocs : Bool) : Prop :=
  cb.size - cb.used < len ∧ cb.size < cb.maxsize ∧ reallocs = true ∧
    cb.alloc + (len - (cb.size - cb.used)) +
      (CBUF_CHUNK - (cb.alloc + (len - (cb.size - cb.used))) % CBUF_CHUNK) ≤ INT_MAX

instance (cb : Cbuf) (len : Int) (reallocs : Bool) : Decidable (cb.Grows len reallocs) :=
  inferInstanceAs (Decidable (_ ∧ _))

/-- The size after an attempt to make room for `len` bytes. -/
def sizeFor (cb : Cbuf) (len : Int) (reallocs : Bool) : Int :=
  if cb.Grows len reallocs then cb.grownSize (len - (cb.size - cb.used)) else cb.size

theorem sizeFor_of_not (h : ¬ cb.Grows len reallocs) : cb.sizeFor len reallocs = cb.size :=
  if_neg h

/-- A buffer that grows has more room than was asked for, or is as large as it may get. -/
theorem sizeFor_of_grows (h : cb.Grows len reallocs) :
    cb.size < cb.sizeFor len reallocs ∧ cb.sizeFor len reallocs ≤ cb.maxsize ∧
      (cb.used + len < cb.sizeFor len reallocs ∨ cb.sizeFor len reallocs = cb.maxsize) := by
  have hneed := h.1
  have hmax := h.2.1
  have hlt := Int.emod_lt_of_pos (cb.alloc + (len - (cb.size - cb.used)))
    (show 0 < CBUF_CHUNK by decide)
  rw [sizeFor, if_pos h, grownSize]
  omega

theorem Inv.sizeFor_bounds (h : Inv cb r) (len : Int) (reallocs : Bool) :
    cb.size ≤ cb.sizeFor len reallocs ∧ cb.sizeFor len reallocs ≤ cb.maxsize := by
  by_cases hgrows : cb.Grows len reallocs
  · have hsize := sizeFor_of_grows hgrows
    omega
  · have hmax := h.le_max
    rw [sizeFor_of_not hgrows]
    omega

/-- The size asked for bytes that fit into an empty buffer is an `int`. -/
theorem Inv.grows_iff (h : Inv cb r) (hle : len ≤ cb.size) (reallocs : Bool) :
    cb.Grows len reallocs ↔ cb.size - cb.used < len ∧ cb.size < cb.maxsize ∧ reallocs = true :=
  ⟨fun hgrows => ⟨hgrows.1, hgrows.2.1, hgrows.2.2.1⟩,
    fun hneed => ⟨hneed.1, hneed.2.1, hneed.2.2, h.rounded (h.fitsInt hle) hneed.1 hneed.2.1⟩⟩

/-- A buffer after an attempt to make room for `len` bytes. -/
structure Roomed (cb : Cbuf) (r len : Int) (reallocs : Bool) (cb' : Cbuf) : Prop where
  inv : Inv cb' r
  grown : Grown cb cb'
  size : cb'.size = cb.sizeFor len reallocs

theorem cint_wraps {n : Int} (hlo : INT_MAX < n) (hhi : n < 4294967296) :
    cint n = n - 4294967296 := by
  unfold INT_MAX at hlo
  rw [cint, Int32.toInt_ofInt]
  simp only [Int.bmod_def, Int32.size]
  omega

/-- A size that is no `int` is not asked for. -/
theorem grow_overflow (h : Inv cb r) {n : Int} (hn : 0 < n) (hint : n ≤ INT_MAX)
    (hover : INT_MAX < cb.alloc + n + (CBUF_CHUNK - (cb.alloc + n) % CBUF_CHUNK))
    (reallocs : Bool) :
    cb.grow n reallocs = (0, cb) := by
  have hroom := h.room
  have halloc := h.alloc_eq
  have hpos := h.size_pos
  have hmax := h.le_max
  have hmod := Int.emod_nonneg (cb.alloc + n) (show (1000 : Int) ≠ 0 by decide)
  have hneg : cint (cint (cb.alloc + n) + (CBUF_CHUNK - (cint (cb.alloc + n)).tmod CBUF_CHUNK)) ≤
      0 := by
    unfold CBUF_CHUNK at *
    by_cases hsum : cb.alloc + n ≤ INT_MAX
    · have hmax_int : INT_MAX = 2147483647 := rfl
      rw [cint_eq (n := cb.alloc + n) (by omega) hsum, Int.tmod_eq_emod_of_nonneg (by omega),
        cint_wraps (by omega) (by omega)]
      omega
    · have hmax_int : INT_MAX = 2147483647 := rfl
      rw [cint_wraps (n := cb.alloc + n) (by omega) (by omega),
        show cb.alloc + n - 4294967296 = -(4294967296 - (cb.alloc + n)) by omega, Int.neg_tmod,
        Int.tmod_eq_emod_of_nonneg (by omega), cint_eq (by omega) (by omega)]
      omega
  unfold Cbuf.grow
  simp only
  split
  · rfl
  · rw [if_neg (by omega)]

/-- A buffer that cannot grow is left as it is. -/
theorem attemptGrow_of_not (h : Inv cb r) (hint : len ≤ INT_MAX)
    (hgrows : ¬ cb.Grows len reallocs) :
    (cb.attemptGrow len reallocs).2 = cb := by
  have hfits := h.fits
  have hr := h.rep_nonneg
  unfold Cbuf.attemptGrow
  simp only
  split
  · rename_i hneed
    have hpos : 0 < len - (cb.size - cb.used) := by omega
    by_cases hround : cb.alloc + (len - (cb.size - cb.used)) +
        (CBUF_CHUNK - (cb.alloc + (len - (cb.size - cb.used))) % CBUF_CHUNK) ≤ INT_MAX
    · have hre : ¬ reallocs = true := fun hre => hgrows ⟨hneed.1, hneed.2, hre, hround⟩
      rw [grow_eq h hpos hneed.2 hround, if_neg hre]
    · rw [grow_overflow h hpos (by omega) (by omega)]
  · rfl

theorem Inv.attemptGrow_roomed (h : Inv cb r) (hint : len ≤ INT_MAX) (reallocs : Bool) :
    Roomed cb r len reallocs (cb.attemptGrow len reallocs).2 := by
  by_cases hgrows : cb.Grows len reallocs
  · obtain ⟨hneed, hmax, hre, hround⟩ := id hgrows
    have hpos : 0 < len - (cb.size - cb.used) := by omega
    obtain ⟨hgt, hle, -⟩ := grownSize_bounds hpos hmax
    unfold Cbuf.attemptGrow
    simp only
    rw [if_pos ⟨hneed, hmax⟩, grow_eq h hpos hmax hround, if_pos hre]
    refine ⟨(h.relocated hgt hle).1, grown_relocated h hgt hle, ?_⟩
    rw [size_relocated, sizeFor, if_pos hgrows]
  · rw [attemptGrow_of_not h hint hgrows]
    exact ⟨h, Grown.refl cb, (sizeFor_of_not hgrows).symm⟩

/-- A writer that made room for bytes that fit into an `int` together with the buffer. -/
theorem MadeRoom.roomed (h : Inv cb r) {len : Int} (hfit : cb.FitsInt len) {reallocs : Bool}
    (hroom : MadeRoom cb r len reallocs cb') : Roomed cb r len reallocs cb' := by
  refine ⟨hroom.inv, hroom.grown, ?_⟩
  by_cases hgrows : cb.Grows len reallocs
  · rw [sizeFor, if_pos hgrows]
    exact hroom.chunks hgrows.2.2.1 hgrows.1 hgrows.2.1
  · rw [sizeFor_of_not hgrows]
    by_cases hneed : cb.used + len ≤ cb.size
    · rw [hroom.unneeded hneed]
    · by_cases hmax : cb.size < cb.maxsize
      · cases hre : reallocs with
        | false => rw [hroom.kept hre]
        | true =>
            have hneed' : cb.size - cb.used < len := by omega
            exact absurd ⟨hneed', hmax, hre, h.rounded hfit hneed' hmax⟩ hgrows
      · have hle := hroom.grown.size_le
        have hle_max := hroom.inv.le_max
        rw [hroom.grown.maxsize] at hle_max
        omega

theorem Roomed.unread_eq (h : Inv cb r) (hroom : Roomed cb r len reallocs cb') :
    cb'.unread = cb.unread :=
  congrArg TwoPart.unread (view_grown h hroom.inv hroom.grown)

theorem Roomed.replayable_eq (h : Inv cb r) (hroom : Roomed cb r len reallocs cb') :
    cb'.replayable = cb.replayable :=
  congrArg TwoPart.replay (view_grown h hroom.inv hroom.grown)

/-! ## Bytes that are let in -/

/-- A buffer after bytes were put into it and it had grown to the size `size'`. -/
structure PutIn (cb : Cbuf) (bs : List Char) (size' : Int) (cb' : Cbuf) : Prop where
  inv : ∃ r', Inv cb' r'
  size : cb'.size = size'
  maxsize : cb'.maxsize = cb.maxsize
  overwrite : cb'.overwrite = cb.overwrite
  used : cb'.used = min (cb.used + bs.length) size'
  unread : cb'.unread = (cb.unread ++ bs).rtake size'.toNat

/-- The bound of the overwrite behavior is no bound for bytes that fit. -/
theorem bound_of_fits (hfree : cb.overwrite = .CBUF_NO_DROP → len ≤ cb.size - cb.used)
    (hle : len ≤ cb.size) : cb.bound len = len := by
  unfold bound
  cases hmode : cb.overwrite with
  | CBUF_NO_DROP => exact min_eq_left (hfree hmode)
  | CBUF_WRAP_ONCE => exact min_eq_left hle
  | CBUF_WRAP_MANY => rfl

/-- `cbuf_writer`, from memory, where all bytes fit. -/
theorem writer_puts (h : Inv cb r) (mem : Int → Char) (start : Int) (hlen : 0 < len)
    (hle : len ≤ cb.size) (hfree : cb.overwrite = .CBUF_NO_DROP → len ≤ cb.size - cb.used)
    (reallocs : Bool) :
    PutIn cb (block mem start len.toNat) (cb.sizeFor len reallocs)
        (cb.writer len (getMem mem) start reallocs).dst ∧
      (cb.writer len (getMem mem) start reallocs).ndropped =
        some (max 0 (cb.used + len - cb.sizeFor len reallocs)) := by
  have hfit := h.fitsInt hle
  obtain ⟨cb₁, hmade, hdoes⟩ := writer_spec h hlen hfit (getMem_spec mem start)
    (getMem_start mem start) reallocs
  have hroom := hmade.roomed h hfit
  have hused := hroom.grown.used
  have hsize_le := hroom.grown.size_le
  have hbound : cb₁.bound len = len := bound_of_fits
    (fun hmode => by have := hfree (hroom.grown.overwrite ▸ hmode); omega) (by omega)
  generalize cb.writer len (getMem mem) start reallocs = w at hdoes ⊢
  cases hdoes with
  | full hmode hfull => omega
  | nothing m src' hP hQ => exact absurd hQ id
  | bytes bs m src' cb₂ r₂ hne hbs hP hall happ =>
      have hlength : (bs.length : Int) = len := hbound ▸ hall.resolve_right id
      have hblock : block mem start len.toNat = bs := by
        rw [← hlength, Int.toNat_natCast]
        exact hP.2.symm
      rw [hblock]
      have hunread := congrArg TwoPart.unread (view_appended hroom.inv happ)
      refine ⟨⟨⟨r₂, happ.inv⟩, happ.size.trans hroom.size,
        happ.maxsize.trans hroom.grown.maxsize, happ.overwrite.trans hroom.grown.overwrite, ?_, ?_⟩,
          ?_⟩
      · rw [happ.used, hused, hroom.size]
      · rw [← hroom.unread_eq h, ← hroom.size]
        exact hunread
      · rw [← hroom.size, ← hused, ← hlength]

/-! ## The line of a string -/

/-- The newline that a string lacks. -/
def addedNewline (s : CStr) : List Char := if s.getLast? = some '\n' then [] else ['\n']

/-- The line that is to be written. -/
def lineOf (s : CStr) : List Char := s ++ addedNewline s

theorem length_addedNewline_le (s : CStr) : (addedNewline s).length ≤ 1 := by
  unfold addedNewline
  split <;> simp

theorem length_addedNewline {s : CStr} (h : s.getLast? ≠ some '\n') : (addedNewline s).length = 1 :=
  congrArg List.length (if_neg h)

theorem length_lineOf (s : CStr) : (lineOf s).length = s.length + (addedNewline s).length :=
  List.length_append

theorem lineOf_ne_nil (s : CStr) : lineOf s ≠ [] := by
  intro hnil
  obtain ⟨rfl, hnone⟩ := List.append_eq_nil_iff.mp hnil
  exact absurd hnone (by decide)

theorem memoryOf_last {s : CStr} (hne : s ≠ []) :
    memoryOf s (s.length - 1) = '\n' ↔ s.getLast? = some '\n' := by
  have hpos := List.length_pos_iff.mpr hne
  rw [memoryOf, show ((s.length : Int) - 1).toNat = s.length - 1 by omega,
    List.getD_eq_getElem?_getD,
    List.getLast?_eq_getElem?]
  cases s[s.length - 1]? with
  | none => simp
  | some c => simp

theorem memoryOf_length (s : CStr) : memoryOf s (s.length + 1 - 1) = '\x00' := by
  rw [memoryOf, Int.add_sub_cancel, Int.toNat_natCast]
  rw [List.getD_eq_getElem?_getD, List.getElem?_eq_none le_rfl, Option.getD_none]

theorem block_memoryOf {s : CStr} {i n : Nat} (h : i + n ≤ s.length) :
    block (memoryOf s) i n = (s.drop i).take n := by
  induction n generalizing i with
  | zero => rfl
  | succ n ih =>
      have hi : i < s.length := by omega
      have hnext := ih (i := i + 1) (by omega)
      push_cast at hnext
      rw [block, hnext, List.drop_eq_getElem_cons hi, List.take_succ_cons, memoryOf,
        Int.toNat_natCast, List.getD_eq_getElem?_getD, List.getElem?_eq_getElem hi,
        Option.getD_some]

/-- The variable `len` of `cbuf_write_line`. -/
def codeLength (s : CStr) : Int :=
  if cint s.length = 0 ∨ memoryOf s (cint s.length - 1) ≠ '\n' then cint (cint s.length + 1)
  else cint s.length

theorem codeLength_eq {s : CStr} (hint : (lineOf s).length ≤ INT_MAX) :
    codeLength s = (lineOf s).length := by
  rw [lineOf, List.length_append] at hint ⊢
  have hlen : cint s.length = s.length := cint_eq (by omega) (by push_cast at hint; omega)
  rw [codeLength, hlen]
  unfold addedNewline at hint ⊢
  by_cases hnil : s = []
  · subst hnil
    decide
  · have hpos := List.length_pos_iff.mpr hnil
    by_cases hlast : s.getLast? = some '\n'
    · have hends := (memoryOf_last hnil).mpr hlast
      rw [if_neg (fun h => h.elim (by omega) (fun hne => hne hends)), if_pos hlast]
      simp
    · rw [if_neg hlast] at hint ⊢
      rw [if_pos (.inr fun h => hlast ((memoryOf_last hnil).mp h))]
      exact cint_eq (by omega) (by simpa using hint)

/-- `cbuf_write_line` refuses a line of `len` bytes, in a buffer of `size` bytes. -/
def Refuses (cb : Cbuf) (size len : Int) : Prop :=
  match cb.overwrite with
  | .CBUF_NO_DROP => size - cb.used < len
  | .CBUF_WRAP_ONCE => size < len
  | .CBUF_WRAP_MANY => False

/-- How many bytes are dropped from the head of a line that is longer than the buffer. -/
def headDropped (cb : Cbuf) (s : CStr) : Nat := (lineOf s).length - cb.size.toNat

/-- The bytes of the string that are written. -/
def keptOf (cb : Cbuf) (s : CStr) : List Char := s.drop (cb.headDropped s)

/-- What the two writes of `cbuf_write_line` leave behind. `m` is the size of the buffer once
it has taken the string, and `n` its size in the end. -/
structure LinePut (cb : Cbuf) (s : CStr) (reallocs : Nat → Bool) (m n : Int) (p : Int × Cbuf) :
    Prop where
  first : m = cb.sizeFor (cb.keptOf s).length (reallocs 1)
  second : if s.getLast? ≠ some '\n' ∧ reallocs 2 = true ∧ m ≤ cb.used + (cb.keptOf s).length ∧
      m < cb.maxsize then m < n ∧ n ≤ cb.maxsize ∧ (m + 1 < n ∨ n = cb.maxsize) else n = m
  size : p.2.size = n
  unread : p.2.unread =
    ((cb.unread ++ cb.keptOf s).rtake m.toNat ++ addedNewline s).rtake n.toNat
  ndropped : p.1 = (cb.unread ++ lineOf s).length - p.2.unread.length

theorem headDropped_le (h : Inv cb r) (s : CStr) : cb.headDropped s ≤ s.length := by
  have hpos := h.size_pos
  have hline := length_lineOf s
  have hshort := length_addedNewline_le s
  unfold headDropped
  omega

theorem length_keptOf (cb : Cbuf) (s : CStr) :
    (cb.keptOf s).length = s.length - cb.headDropped s := List.length_drop

theorem length_keptOf_le (h : Inv cb r) (s : CStr) : ((cb.keptOf s).length : Int) ≤ cb.size := by
  have hpos := h.size_pos
  have hline := length_lineOf s
  rw [length_keptOf]
  unfold headDropped
  omega

theorem free_of_fits {s : CStr} (hfits : ¬ cb.Refuses cb.size (lineOf s).length)
    (hmode : cb.overwrite = .CBUF_NO_DROP) : (lineOf s).length ≤ cb.size - cb.used := by
  unfold Refuses at hfits
  rw [hmode] at hfits
  simp only at hfits
  omega

/-- The first of the two writes: what is left of the string, if anything is. -/
theorem kept_puts (h : Inv cb r) {s : CStr} (hfits : ¬ cb.Refuses cb.size (lineOf s).length)
    {ncopy ndrop : Int} (hncopy : ncopy = (cb.keptOf s).length) (hndrop : ndrop = cb.headDropped s)
    (reallocs : Bool) {w : Written Int}
    (hw : w = if ncopy > 0 then cb.writer ncopy (getMem (memoryOf s)) ndrop reallocs
      else ⟨.ok 0, none, ndrop, cb⟩) :
    PutIn cb (cb.keptOf s) (cb.sizeFor (cb.keptOf s).length reallocs) w.dst ∧
      w.ndropped.getD 0 =
        max 0 (cb.used + (cb.keptOf s).length - cb.sizeFor (cb.keptOf s).length reallocs) := by
  have hused := h.used_nonneg
  have hroom := h.fits
  have hr := h.rep_nonneg
  have hle := headDropped_le h s
  have hkept := length_keptOf cb s
  have hline := length_lineOf s
  by_cases hsome : ncopy > 0
  · rw [hw, if_pos hsome]
    have hputs := writer_puts h (memoryOf s) ndrop hsome (hncopy ▸ length_keptOf_le h s)
      (fun hmode => by have := free_of_fits hfits hmode; omega) reallocs
    have hblock : block (memoryOf s) ndrop ncopy.toNat = cb.keptOf s := by
      rw [hndrop, hncopy, Int.toNat_natCast, block_memoryOf (by omega)]
      exact List.take_of_length_le le_rfl
    rw [hblock, hncopy] at hputs
    rw [hncopy, hputs.2]
    exact ⟨hputs.1, rfl⟩
  · have hnil : cb.keptOf s = [] := List.length_eq_zero_iff.mp (by omega)
    have hsame : cb.sizeFor 0 reallocs = cb.size :=
      sizeFor_of_not fun hgrows => by have := hgrows.1; omega
    have hunread := h.length_unread
    rw [hw, if_neg hsome, hnil]
    simp only [List.length_nil, Nat.cast_zero]
    rw [hsame]
    refine ⟨⟨⟨r, h⟩, rfl, rfl, rfl, ?_, ?_⟩, ?_⟩
    · simp only [List.length_nil, Nat.cast_zero]
      omega
    · rw [List.append_nil, rtake_of_length_le (by omega)]
    · show (0 : Int) = _
      omega

/-- The second write: the newline, where the string lacks it. -/
theorem newline_puts (h : Inv cb r) (hfree : cb.overwrite = .CBUF_NO_DROP → 1 ≤ cb.size - cb.used)
    (reallocs : Bool) :
    PutIn cb ['\n'] (cb.sizeFor 1 reallocs) (cb.writer 1 (getMem (memoryOf ['\n'])) 0 reallocs).dst ∧
      (cb.writer 1 (getMem (memoryOf ['\n'])) 0 reallocs).ndropped =
        some (max 0 (cb.used + 1 - cb.sizeFor 1 reallocs)) :=
  writer_puts h (memoryOf ['\n']) 0 (show (0 : Int) < 1 by decide)
    (show 1 ≤ cb.size from h.size_pos) hfree reallocs

/-- The bytes two writes drop are those that are missing in the end. -/
theorem dropped_twice (a m n : Int) :
    max 0 (a - m) + max 0 (min a m + 1 - n) = a + 1 - min (min a m + 1) n := by
  omega

theorem putLine_spec (h : Inv cb r) {s : CStr}
    (hfits : ¬ cb.Refuses cb.size (lineOf s).length) (reallocs : Nat → Bool) :
    ∃ m n, LinePut cb s reallocs m n
      (cb.putLine s s.length (lineOf s).length reallocs) := by
  have hline := length_lineOf s
  have hkept := length_keptOf cb s
  have hle := headDropped_le h s
  have hhead : (if ((lineOf s).length : Int) > cb.size then (lineOf s).length - cb.size else 0) =
      cb.headDropped s := by
    have hpos := h.size_pos
    unfold headDropped
    split <;> omega
  unfold putLine
  extract_lets ndrop ncopy w d ndrop' w'
  have hndrop : ndrop = cb.headDropped s := hhead
  have hncopy : ncopy = (cb.keptOf s).length := by
    unfold ncopy
    omega
  obtain ⟨hput, hd⟩ := kept_puts h hfits hncopy hndrop (reallocs 1) (w := w) rfl
  obtain ⟨r₁, hinv⟩ := hput.inv
  have hmore := h.sizeFor_bounds (cb.keptOf s).length (reallocs 1)
  generalize hm : cb.sizeFor (cb.keptOf s).length (reallocs 1) = m at hput hd hmore
  have hndrop' : ndrop' = cb.headDropped s + max 0 (cb.used + (cb.keptOf s).length - m) := by
    rw [← hd, ← hndrop]
    show (if ncopy > 0 then ndrop + d else ndrop) = ndrop + d
    split
    · rfl
    · have hfree := h.fits
      have hr := h.rep_nonneg
      have hzero : d = 0 := by
        rw [show d = _ from hd]
        omega
      omega
  have hunread := h.length_unread
  have hunread₁ := hinv.length_unread
  have hwhole : ((cb.unread ++ lineOf s).length : Int) =
      cb.used + cb.headDropped s + (cb.keptOf s).length + (addedNewline s).length := by
    rw [List.length_append, hline]
    omega
  by_cases hlast : s.getLast? = some '\n'
  · have hnone : addedNewline s = [] := if_pos hlast
    have hne : s ≠ [] := fun hnil => by simp [hnil] at hlast
    have hends : memoryOf s ((lineOf s).length - 1) = '\n' := by
      rw [hline, hnone]
      exact (memoryOf_last hne).mpr hlast
    rw [if_neg (not_not.mpr hends)]
    refine ⟨m, m, hm.symm, ?_, hput.size, ?_, ?_⟩
    · rw [if_neg fun hcond => hcond.1 hlast]
    · rw [hput.unread, hnone, List.append_nil, rtake_rtake, Nat.min_self]
    · rw [hwhole, hunread₁, hput.used, hnone, hndrop', List.length_nil]
      omega
  · have hnl : addedNewline s = ['\n'] := if_neg hlast
    have hone := length_addedNewline hlast
    have hends : memoryOf s ((lineOf s).length - 1) ≠ '\n' := by
      rw [hline, hnl]
      exact (memoryOf_length s).trans_ne (by decide)
    rw [if_pos hends]
    have hfree : w.dst.overwrite = .CBUF_NO_DROP → 1 ≤ w.dst.size - w.dst.used := by
      intro hmode
      have hline_free := free_of_fits hfits (hput.overwrite ▸ hmode)
      rw [hput.size, hput.used]
      omega
    obtain ⟨hput', hdropped⟩ := newline_puts hinv hfree (reallocs 2)
    obtain ⟨r₂, hinv'⟩ := hput'.inv
    refine ⟨m, w.dst.sizeFor 1 (reallocs 2), hm.symm, ?_, hput'.size, ?_, ?_⟩
    · have hgrows := hinv.grows_iff (show 1 ≤ w.dst.size from hinv.size_pos) (reallocs 2)
      rw [hput.size, hput.used, hput.maxsize] at hgrows
      split
      · rename_i hcond
        have hsize := sizeFor_of_grows (hgrows.mpr ⟨by omega, hcond.2.2.2, hcond.2.1⟩)
        rw [hput.size, hput.used, hput.maxsize] at hsize
        omega
      · rename_i hcond
        rw [sizeFor_of_not, hput.size]
        exact fun hg => hcond ⟨hlast, (hgrows.mp hg).2.2, by have := (hgrows.mp hg).1; omega,
          (hgrows.mp hg).2.1⟩
    · rw [hput'.unread, hput.unread, hnl]
    · have htwice := dropped_twice (cb.used + (cb.keptOf s).length) m (w.dst.sizeFor 1 (reallocs 2))
      rw [hdropped, Option.getD_some, hwhole, hinv'.length_unread, hput'.used, hput.used, hndrop',
        hone]
      show _ = _ - min (_ + ((1 : Nat) : Int)) _
      push_cast
      linarith only [htwice]

/-! ## What is written -/

/-- A string is written as a whole line, or not at all. -/
inductive WrittenWhole (cb : Cbuf) (s : CStr) : Except Errno Int × Int × Cbuf → Prop where
  | refused (e : Errno) (cb' : Cbuf) (hunread : cb'.unread = cb.unread)
      (hreplay : cb'.replayable = cb.replayable) (hfull : cb'.Refuses cb'.size (lineOf s).length) :
      WrittenWhole cb s (.error e, 0, cb')
  | written (ndropped : Int) (cb' : Cbuf)
      (hunread : cb'.unread = (cb.unread ++ lineOf s).rtake cb'.size.toNat)
      (hndropped : ndropped = (cb.unread ++ lineOf s).length - cb'.unread.length) :
      WrittenWhole cb s (.ok (lineOf s).length, ndropped, cb')

/-- The sizes at which bytes are dropped are those of the buffer in the end. -/
def Aligned (cb : Cbuf) (s : CStr) (m n : Int) : Prop :=
  (cb.headDropped s = 0 ∨ n ≤ cb.size) ∧
    (cb.used + (cb.keptOf s).length ≤ m ∨ n ≤ m + (addedNewline s).length)

theorem lineOf_split (cb : Cbuf) (s : CStr) :
    lineOf s = s.take (cb.headDropped s) ++ (cb.keptOf s ++ addedNewline s) := by
  rw [← List.append_assoc, keptOf, List.take_append_drop]
  rfl

theorem LinePut.size_bounds (h : Inv cb r) {s : CStr} {reallocs : Nat → Bool} {m n : Int}
    {p : Int × Cbuf} (hput : LinePut cb s reallocs m n p) :
    cb.size ≤ m ∧ m ≤ n ∧ n ≤ cb.maxsize := by
  have hm := h.sizeFor_bounds (cb.keptOf s).length (reallocs 1)
  have hn := hput.second
  rw [← hput.first] at hm
  split at hn <;> omega

/-- The part of the line behind the head that was dropped fills the buffer. -/
theorem length_kept (h : Inv cb r) {s : CStr} (hhead : 0 < cb.headDropped s) :
    ((cb.keptOf s).length : Int) + (addedNewline s).length = cb.size := by
  have hline := congrArg List.length (lineOf_split cb s)
  have hpos := h.size_pos
  have hlen := length_lineOf s
  have hshort := length_addedNewline_le s
  unfold headDropped at *
  simp only [List.length_append, List.length_take] at hline
  omega

theorem LinePut.contents (h : Inv cb r) {s : CStr} {reallocs : Nat → Bool} {m n : Int}
    {p : Int × Cbuf} (hput : LinePut cb s reallocs m n p) (haligned : cb.Aligned s m n) :
    p.2.unread = (cb.unread ++ lineOf s).rtake n.toNat := by
  have hunread := h.length_unread
  have hpos := h.size_pos
  have hsize := hput.size_bounds h
  have hlate : (cb.unread ++ cb.keptOf s).length ≤ m.toNat ∨
      n.toNat ≤ m.toNat + (addedNewline s).length := by
    have htail := haligned.2
    rw [List.length_append]
    omega
  have hrest : p.2.unread = (cb.unread ++ (cb.keptOf s ++ addedNewline s)).rtake n.toNat := by
    rw [hput.unread, rtake_rtake_append hlate, List.append_assoc]
  rw [hrest, lineOf_split cb s]
  by_cases hhead : cb.headDropped s = 0
  · rw [hhead, List.take_zero, List.nil_append]
  · have hfull := length_kept h (Nat.pos_of_ne_zero hhead)
    have hn := haligned.1.resolve_left hhead
    have htail : n.toNat ≤ (cb.keptOf s ++ addedNewline s).length := by
      rw [List.length_append]
      omega
    rw [rtake_append_of_le htail, ← List.append_assoc, rtake_append_of_le htail]

/-- Where the head of the line is told from what was unread, no other sizes will do. -/
theorem LinePut.aligned (h : Inv cb r) {s : CStr} {reallocs : Nat → Bool} {m n : Int}
    {p : Int × Cbuf} (hput : LinePut cb s reallocs m n p)
    (hdiffer : 0 < cb.headDropped s → (s.take (cb.headDropped s)).getLast? ≠ cb.unread.getLast?)
    (hcontents : p.2.unread = (cb.unread ++ lineOf s).rtake n.toNat) : cb.Aligned s m n := by
  have hunread := h.length_unread
  have hpos := h.size_pos
  have hused := h.used_nonneg
  have hsize := hput.size_bounds h
  have hsplit := lineOf_split cb s
  by_cases hhead : cb.headDropped s = 0
  · refine ⟨.inl hhead, ?_⟩
    have hlen := congrArg List.length (hput.unread.symm.trans hcontents)
    rw [hsplit, hhead, List.take_zero, List.nil_append] at hlen
    simp only [length_rtake, List.length_append] at hlen
    omega
  · have hhead_pos := Nat.pos_of_ne_zero hhead
    have hfull := length_kept h hhead_pos
    suffices hn : n ≤ cb.size from ⟨.inr hn, .inr (by omega)⟩
    by_contra hlt
    have hsecond := hput.second
    have hlen := congrArg List.length hsplit
    rw [List.length_append, List.length_append] at hlen
    have hrest : (cb.keptOf s ++ addedNewline s).length = cb.size.toNat := by
      rw [List.length_append]
      omega
    have hroom : (cb.keptOf s).length < m.toNat := by
      by_cases hends : s.getLast? = some '\n'
      · rw [if_neg fun hcond => hcond.1 hends] at hsecond
        omega
      · have hone := length_addedNewline hends
        omega
    have hfirst : (cb.unread ++ cb.keptOf s).rtake m.toNat =
        cb.unread.rtake (m.toNat - (cb.keptOf s).length) ++ cb.keptOf s := by
      rw [rtake_append]
      congr 1
      exact rtake_of_length_le hroom.le
    have hall : (cb.keptOf s ++ addedNewline s).rtake n.toNat = cb.keptOf s ++ addedNewline s :=
      rtake_of_length_le (by omega)
    -- a byte that was unread stands where the line has the last one of its head
    have hgot : p.2.unread = cb.unread.rtake (min (m.toNat - (cb.keptOf s).length)
        (n.toNat - cb.size.toNat)) ++ (cb.keptOf s ++ addedNewline s) := by
      rw [hput.unread, hfirst, List.append_assoc, rtake_append, rtake_rtake, hrest, hall]
    have hwant : (cb.unread ++ lineOf s).rtake n.toNat =
        (cb.unread ++ s.take (cb.headDropped s)).rtake (n.toNat - cb.size.toNat) ++
          (cb.keptOf s ++ addedNewline s) := by
      rw [hsplit, ← List.append_assoc, rtake_append, hrest, hall]
    have hsame := List.append_cancel_right (hgot.symm.trans (hcontents.trans hwant))
    have hlast := congrArg List.getLast? hsame
    have hfront : s.take (cb.headDropped s) ≠ [] := by
      apply List.ne_nil_of_length_pos
      unfold headDropped at *
      omega
    rw [getLast?_rtake (by omega), getLast?_rtake (by omega),
      List.getLast?_append_of_ne_nil _ hfront] at hlast
    exact hdiffer hhead_pos hlast.symm

/-- The buffer grows only after bytes were dropped for the size it had: for what is left of a
line whose head was dropped, or for the newline alone. -/
def GrowsLate (cb : Cbuf) (s : CStr) (reallocs : Nat → Bool) : Prop :=
  if cb.Grows (cb.keptOf s).length (reallocs 1) then 0 < cb.headDropped s
  else s.getLast? ≠ some '\n' ∧ reallocs 2 = true ∧ cb.size < cb.maxsize ∧
    (0 < cb.headDropped s ∧ 0 < cb.used ∨
      cb.headDropped s = 0 ∧ cb.size < cb.used + s.length ∧ cb.size + 1 < cb.maxsize)

theorem LinePut.aligned_iff (h : Inv cb r) {s : CStr} {reallocs : Nat → Bool} {m n : Int}
    {p : Int × Cbuf} (hput : LinePut cb s reallocs m n p) :
    cb.Aligned s m n ↔ ¬ cb.GrowsLate s reallocs := by
  have hpos := h.size_pos
  have hused := h.used_nonneg
  have hfits := h.fits
  have hr := h.rep_nonneg
  have hsize := hput.size_bounds h
  have hfirst := hput.first
  have hsecond := hput.second
  have hkept := length_keptOf cb s
  have hfull := length_kept h (s := s)
  unfold Aligned GrowsLate
  by_cases hends : s.getLast? = some '\n'
  · have hnone : (addedNewline s).length = 0 := congrArg List.length (if_pos hends)
    rw [if_neg fun hcond => hcond.1 hends] at hsecond
    by_cases hgrows : cb.Grows (cb.keptOf s).length (reallocs 1)
    · have hmore := sizeFor_of_grows hgrows
      rw [if_pos hgrows]
      omega
    · have hsame := sizeFor_of_not hgrows
      rw [if_neg hgrows]
      simp only [hends, ne_eq, not_true_eq_false, false_and, not_false_eq_true, iff_true]
      omega
  · have hone := length_addedNewline hends
    by_cases hgrows : cb.Grows (cb.keptOf s).length (reallocs 1)
    · have hmore := sizeFor_of_grows hgrows
      rw [if_pos hgrows]
      rw [if_neg (by omega)] at hsecond
      omega
    · have hsame := sizeFor_of_not hgrows
      rw [if_neg hgrows]
      split at hsecond
      · rename_i hcond
        simp only [hends, hcond.2.1, ne_eq, not_false_eq_true, true_and]
        omega
      · rename_i hcond
        cases hre : reallocs 2 with
        | false =>
            simp only [Bool.false_eq_true, false_and, and_false, not_false_eq_true, iff_true]
            omega
        | true =>
            simp only [hends, hre, ne_eq, not_false_eq_true, true_and] at hcond ⊢
            omega

/-! ## `cbuf_write_line` -/

/-- The buffer `cbuf_write_line` has made room in. -/
def lineRoom (cb : Cbuf) (s : CStr) (reallocs : Nat → Bool) : Cbuf :=
  (cb.attemptGrow (codeLength s) (reallocs 0)).2

theorem cint_le (n : Int) : cint n ≤ INT_MAX :=
  Int.le_of_lt_add_one (Int32.toInt_lt _)

theorem codeLength_le (s : CStr) : codeLength s ≤ INT_MAX := by
  unfold codeLength
  split <;> exact cint_le _

theorem Inv.lineRoom_roomed (h : Inv cb r) (s : CStr) (reallocs : Nat → Bool) :
    Roomed cb r (codeLength s) (reallocs 0) (cb.lineRoom s reallocs) :=
  h.attemptGrow_roomed (codeLength_le s) (reallocs 0)

/-- The buffer that made room refuses the line, or takes it. -/
theorem writeLine_eq (cb : Cbuf) (s : CStr) (reallocs : Nat → Bool) :
    ((cb.lineRoom s reallocs).Refuses (cb.lineRoom s reallocs).size (codeLength s) →
      cb.writeLine (some s) reallocs = (.error .ENOSPC, 0, cb.lineRoom s reallocs)) ∧
    (¬ (cb.lineRoom s reallocs).Refuses (cb.lineRoom s reallocs).size (codeLength s) →
      cb.writeLine (some s) reallocs =
        if codeLength s > 0 then (.ok (codeLength s),
          (cb.lineRoom s reallocs).putLine s (cint s.length) (codeLength s) reallocs)
        else (.ok (codeLength s), 0, cb.lineRoom s reallocs)) := by
  simp -zeta only [writeLine]
  extract_lets ncopy len dst full p
  have hfull : full = true ↔ dst.Refuses dst.size len := by
    unfold full Refuses
    cases dst.overwrite with
    | CBUF_NO_DROP => exact decide_eq_true_iff
    | CBUF_WRAP_ONCE => exact decide_eq_true_iff
    | CBUF_WRAP_MANY => exact iff_of_false Bool.false_ne_true id
  exact ⟨fun hrefuses => if_pos (hfull.mpr hrefuses),
    fun hfits => if_neg fun hf => hfits (hfull.mp hf)⟩

/-- Making room changes neither what is in the buffer nor its behavior. -/
theorem Roomed.refuses_iff (hroom : Roomed cb r len reallocs cb') (size len' : Int) :
    cb'.Refuses size len' ↔ cb.Refuses size len' := by
  unfold Refuses
  rw [hroom.grown.overwrite, hroom.grown.used]

/-- A line that is refused leaves everything as it was. -/
theorem writeLine_refused (h : Inv cb r) {t : CStr} {reallocs : Nat → Bool}
    (hfull : (cb.lineRoom t reallocs).Refuses (cb.lineRoom t reallocs).size (codeLength t))
    (hlong : codeLength t ≤ (lineOf t).length) :
    WrittenWhole cb t (cb.writeLine (some t) reallocs) := by
  have hroom := h.lineRoom_roomed t reallocs
  rw [(writeLine_eq cb t reallocs).1 hfull]
  refine .refused .ENOSPC _ (hroom.unread_eq h) (hroom.replayable_eq h) ?_
  unfold Refuses at *
  split at hfull
  · exact hfull.trans_le hlong
  · exact hfull.trans_le hlong
  · exact hfull

theorem WrittenWhole.of_ok {s : CStr} {q : Except Errno Int × Int × Cbuf} (h : WrittenWhole cb s q)
    {v : Int} (hok : q.1 = .ok v) :
    v = (lineOf s).length ∧ q.2.2.unread = (cb.unread ++ lineOf s).rtake q.2.2.size.toNat := by
  cases h with
  | refused => cases hok
  | written _ _ hunread _ =>
      cases hok
      exact ⟨rfl, hunread⟩

/-- A line that is taken, and no longer than an `int` can say. -/
theorem writeLine_taken (h : Inv cb r) {t : CStr} (hint : (lineOf t).length ≤ INT_MAX)
    {reallocs : Nat → Bool}
    (hfits : ¬ (cb.lineRoom t reallocs).Refuses (cb.lineRoom t reallocs).size (lineOf t).length) :
    ∃ m n p, LinePut (cb.lineRoom t reallocs) t reallocs m n p ∧
      cb.writeLine (some t) reallocs = (.ok (lineOf t).length, p) := by
  have hroom := h.lineRoom_roomed t reallocs
  obtain ⟨m, n, hput⟩ := putLine_spec hroom.inv hfits reallocs
  have hcode := codeLength_eq hint
  have hlen := length_lineOf t
  have hpos := List.length_pos_iff.mpr (lineOf_ne_nil t)
  refine ⟨m, n, _, hput, ?_⟩
  rw [(writeLine_eq cb t reallocs).2 (by rw [hcode]; exact hfits), hcode, if_pos (by omega),
    cint_eq (by omega) (by omega)]

theorem writeLine_in_time (h : Inv cb r) {t : CStr} (hint : (lineOf t).length ≤ INT_MAX)
    {reallocs : Nat → Bool} (hgrows : ¬ (cb.lineRoom t reallocs).GrowsLate t reallocs) :
    WrittenWhole cb t (cb.writeLine (some t) reallocs) := by
  have hroom := h.lineRoom_roomed t reallocs
  have hcode := codeLength_eq hint
  by_cases hfull : (cb.lineRoom t reallocs).Refuses (cb.lineRoom t reallocs).size (lineOf t).length
  · exact writeLine_refused h (by rw [hcode]; exact hfull) hcode.le
  · obtain ⟨m, n, p, hput, heq⟩ := writeLine_taken h hint hfull
    have hcontents := hput.contents hroom.inv ((hput.aligned_iff hroom.inv).mpr hgrows)
    have hndropped := hput.ndropped
    rw [hroom.unread_eq h] at hcontents hndropped
    rw [← hput.size] at hcontents
    rw [heq]
    exact .written p.1 p.2 hcontents hndropped

/-- Room that was made for the line is enough for all of it, or all there can be. -/
theorem not_growsLate_of_grows (h : Inv cb r) {s : CStr} {reallocs : Nat → Bool}
    (hroom : Roomed cb r (lineOf s).length (reallocs 0) cb')
    (hgrows : cb.Grows (lineOf s).length (reallocs 0)) : ¬ cb'.GrowsLate s reallocs := by
  have hsize := sizeFor_of_grows hgrows
  have hused := hroom.grown.used
  have hmax := hroom.grown.maxsize
  have hpos := hroom.inv.size_pos
  have hnonneg := h.used_nonneg
  have hlen := length_lineOf s
  have hkept := length_keptOf cb' s
  rw [← hroom.size, ← hused, ← hmax] at hsize
  have hnot : ¬ cb'.Grows (cb'.keptOf s).length (reallocs 1) := fun hagain => by
    have hneed := hagain.1
    have hless := hagain.2.1
    omega
  unfold GrowsLate
  rw [if_neg hnot]
  rintro ⟨-, -, hless, hlost⟩
  have hhead : cb'.headDropped s = 0 := by
    unfold headDropped
    omega
  omega

/-! ## Strings of one shape -/

/-- Two strings of one length, both or none of which end in a newline. -/
structure SameShape (t s : CStr) : Prop where
  length : t.length = s.length
  ends : t.getLast? = some '\n' ↔ s.getLast? = some '\n'

theorem SameShape.addedNewline {t s : CStr} (h : SameShape t s) : addedNewline t = addedNewline s :=
  if_congr h.ends rfl rfl

theorem SameShape.length_line {t s : CStr} (h : SameShape t s) :
    (lineOf t).length = (lineOf s).length := by
  rw [lineOf, lineOf, List.length_append, List.length_append, h.length, h.addedNewline]

theorem SameShape.headDropped {t s : CStr} (h : SameShape t s) (cb : Cbuf) :
    cb.headDropped t = cb.headDropped s := by
  rw [Cbuf.headDropped, Cbuf.headDropped, h.length_line]

theorem SameShape.growsLate {t s : CStr} (h : SameShape t s) (cb : Cbuf) (reallocs : Nat → Bool) :
    cb.GrowsLate t reallocs ↔ cb.GrowsLate s reallocs := by
  have hkept : (cb.keptOf t).length = (cb.keptOf s).length := by
    rw [keptOf, keptOf, List.length_drop, List.length_drop, h.length, h.headDropped cb]
  unfold GrowsLate
  rw [hkept, h.headDropped cb, h.length, ne_eq, h.ends]

/-- A string of a given shape that repeats one byte; only the last byte may have to differ. -/
theorem exists_sameShape (s : CStr) {c : Char} (hnul : c ≠ '\x00') :
    ∃ t, SameShape t s ∧ '\x00' ∉ t ∧ (∀ i, i + 1 < s.length → t[i]? = some c) ∧
      (c ≠ '\n' → ∀ i, i + 1 < (lineOf s).length → t[i]? = some c) := by
  have hlen := length_lineOf s
  have hget : ∀ d i, i + 1 < s.length →
      (List.replicate (s.length - 1) c ++ [d])[i]? = some c := fun d i hi => by
    rw [List.getElem?_append_left (by rw [List.length_replicate]; omega), List.getElem?_replicate,
      if_pos (by omega)]
  by_cases hends : s.getLast? = some '\n'
  · have hne : s ≠ [] := fun hnil => by simp [hnil] at hends
    have hpos := List.length_pos_iff.mpr hne
    have hnone : (addedNewline s).length = 0 := congrArg List.length (if_pos hends)
    refine ⟨List.replicate (s.length - 1) c ++ ['\n'], ⟨by simp; omega, by simp [hends]⟩, ?_,
      hget '\n', fun _ i hi => hget '\n' i (by omega)⟩
    simp [hnul.symm]
  · have hone := length_addedNewline hends
    by_cases hnil : s = []
    · subst hnil
      exact ⟨[], ⟨rfl, Iff.rfl⟩, List.not_mem_nil, fun i hi => absurd hi (by simp),
        fun _ i hi => absurd hi (by rw [hlen, hone]; simp)⟩
    · have hpos := List.length_pos_iff.mpr hnil
      have hd : ∃ d, d ≠ '\n' ∧ d ≠ '\x00' ∧ (c ≠ '\n' → d = c) := by
        by_cases hc : c = '\n'
        · exact ⟨'a', by decide, by decide, fun hne => absurd hc hne⟩
        · exact ⟨c, hc, hnul, fun _ => rfl⟩
      obtain ⟨d, hd, hd_nul, hsame⟩ := hd
      refine ⟨List.replicate (s.length - 1) c ++ [d], ⟨by simp; omega, by simp [hends, hd]⟩, ?_,
        hget d, fun hc i hi => ?_⟩
      · simp [hnul.symm, hd_nul.symm]
      · rw [hsame hc, ← List.replicate_succ', List.getElem?_replicate, if_pos (by omega)]

/-! ## Which lines are written whole -/

theorem lineRoom_of_not (h : Inv cb r) {t : CStr} (hint : (lineOf t).length ≤ INT_MAX)
    {reallocs : Nat → Bool} (hgrows : ¬ cb.Grows (lineOf t).length (reallocs 0)) :
    cb.lineRoom t reallocs = cb := by
  rw [lineRoom, codeLength_eq hint]
  exact attemptGrow_of_not h hint hgrows

/-- Bytes that differ from the last unread one show where a line lost its head. -/
theorem whole_iff_short (h : Inv cb r) {s : CStr} (hint : (lineOf s).length ≤ INT_MAX)
    (reallocs : Nat → Bool) :
    (∀ t, SameShape t s → '\x00' ∉ t → WrittenWhole cb t (cb.writeLine (some t) reallocs)) ↔
      cb.Grows (lineOf s).length (reallocs 0) ∨ cb.Refuses cb.size (lineOf s).length ∨
        ¬ cb.GrowsLate s reallocs := by
  constructor
  · intro hall
    by_cases hgrows : cb.Grows (lineOf s).length (reallocs 0)
    · exact .inl hgrows
    by_cases hfull : cb.Refuses cb.size (lineOf s).length
    · exact .inr (.inl hfull)
    have hfoil : ∃ c, c ≠ '\x00' ∧ c ≠ '\n' ∧ some c ≠ cb.unread.getLast? := by
      by_cases ha : some 'a' = cb.unread.getLast?
      · exact ⟨'b', by decide, by decide, ha ▸ by decide⟩
      · exact ⟨'a', by decide, by decide, ha⟩
    obtain ⟨c, hnul, hnl, hdiffer⟩ := hfoil
    obtain ⟨t, hshape, hnul_t, -, hget⟩ := exists_sameShape s hnul
    rw [← hshape.length_line] at hint hgrows hfull
    have hroom := lineRoom_of_not h hint hgrows
    obtain ⟨m, n, p, hput, heq⟩ := writeLine_taken h hint (by rw [hroom]; exact hfull)
    have hwhole := hall t hshape hnul_t
    rw [heq] at hwhole
    rw [hroom] at hput
    have hcontents := (hwhole.of_ok rfl).2
    rw [hput.size] at hcontents
    have haligned := hput.aligned h (fun hhead => ?_) hcontents
    · exact .inr (.inr ((hshape.growsLate cb reallocs).not.mp ((hput.aligned_iff h).mp haligned)))
    · have hpos := h.size_pos
      have hlast : t[cb.headDropped t - 1]? = some c := hget hnl _ (by
        rw [← hshape.length_line]
        unfold headDropped at *
        omega)
      rw [List.getLast?_take, if_neg hhead.ne', hlast]
      exact hdiffer
  · intro hcond t hshape _
    rw [← hshape.length_line] at hint hcond
    by_cases hgrows : cb.Grows (lineOf t).length (reallocs 0)
    · have hroom := h.lineRoom_roomed t reallocs
      rw [codeLength_eq hint] at hroom
      exact writeLine_in_time h hint (not_growsLate_of_grows h hroom hgrows)
    · have hroom := lineRoom_of_not h hint hgrows
      rcases hcond.resolve_left hgrows with hfull | hlate
      · exact writeLine_refused h (by rw [hroom, codeLength_eq hint]; exact hfull)
          (codeLength_eq hint).le
      · rw [← hshape.growsLate] at hlate
        exact writeLine_in_time h hint (by rw [hroom]; exact hlate)

/-- How large the buffer may get to take `len` bytes. -/
def reach (cb : Cbuf) (len : Int) (reallocs : Bool) : Int :=
  if cb.Grows len reallocs then cb.maxsize else cb.size

theorem refuses_reach (h : Inv cb r) (len : Int) (reallocs : Bool) :
    cb.Refuses (cb.sizeFor len reallocs) len ↔ cb.Refuses (cb.reach len reallocs) len := by
  unfold reach
  by_cases hgrows : cb.Grows len reallocs
  · have hsize := sizeFor_of_grows hgrows
    have hused := h.used_nonneg
    rw [if_pos hgrows]
    unfold Refuses
    split
    · omega
    · omega
    · exact Iff.rfl
  · rw [if_neg hgrows, sizeFor_of_not hgrows]

theorem not_refuses_of_nonpos (h : Inv cb r) (hlen : len ≤ 0) (reallocs : Bool) :
    ¬ cb.Refuses (cb.reach len reallocs) len := by
  have hfits := h.fits
  have hr := h.rep_nonneg
  have hpos := h.size_pos
  have hmax := h.le_max
  have hreach : cb.size ≤ cb.reach len reallocs := by
    unfold reach
    split <;> omega
  unfold Refuses
  split
  · omega
  · omega
  · exact id

/-- A line longer than any `int` is refused, or not written whole. -/
theorem whole_iff_refused (h : Inv cb r) {t : CStr} (hlong : INT_MAX < (lineOf t).length)
    (reallocs : Nat → Bool) :
    WrittenWhole cb t (cb.writeLine (some t) reallocs) ↔
      cb.Refuses (cb.reach (codeLength t) (reallocs 0)) (codeLength t) := by
  have hroom := h.lineRoom_roomed t reallocs
  have hle := codeLength_le t
  rw [← refuses_reach h, ← hroom.size, ← hroom.refuses_iff]
  constructor
  · intro hwhole
    by_contra hfits
    rw [(writeLine_eq cb t reallocs).2 hfits] at hwhole
    have hlen : codeLength t = (lineOf t).length := by
      split at hwhole
      · exact (hwhole.of_ok rfl).1
      · exact (hwhole.of_ok rfl).1
    omega
  · exact fun hfull => writeLine_refused h hfull (by omega)

/-- The lengths that a string of this length seems to have, with and without a newline where
the `int` points that it has wrapped around to. -/
def seemingLengths (s : CStr) : List Int :=
  if cint s.length = 0 then [cint (cint s.length + 1)]
  else [cint (cint s.length + 1), cint s.length]

theorem codeLength_mem {t s : CStr} (h : SameShape t s) : codeLength t ∈ seemingLengths s := by
  unfold codeLength seemingLengths
  rw [h.length]
  by_cases hzero : cint s.length = 0
  · rw [if_pos hzero, if_pos (.inl hzero)]
    exact List.mem_singleton_self _
  · rw [if_neg hzero]
    split
    · exact List.mem_cons_self
    · exact List.mem_cons_of_mem _ (List.mem_singleton_self _)

/-- Each of these lengths is that of some string, but for one that no buffer refuses. -/
theorem exists_codeLength {s : CStr} (hlong : INT_MAX < (lineOf s).length) {w : Int}
    (hw : w ∈ seemingLengths s) :
    (∃ t, SameShape t s ∧ '\x00' ∉ t ∧ codeLength t = w) ∨
      ∃ t, SameShape t s ∧ '\x00' ∉ t ∧ codeLength t ≤ 0 := by
  have hle := cint_le s.length
  have hmax : INT_MAX = 2147483647 := rfl
  have hmemory : ∀ {t : CStr} {c : Char}, t[(cint s.length - 1).toNat]? = some c →
      memoryOf t (cint s.length - 1) = c := fun hget => by
    rw [memoryOf, List.getD_eq_getElem?_getD, hget, Option.getD_some]
  have hplus : ∃ t, SameShape t s ∧ '\x00' ∉ t ∧ codeLength t = cint (cint s.length + 1) := by
    obtain ⟨t, hshape, hnul, -, hget⟩ := exists_sameShape s (c := 'a') (by decide)
    have hends := hmemory (hget (by decide) (cint s.length - 1).toNat (by omega))
    refine ⟨t, hshape, hnul, ?_⟩
    rw [codeLength, hshape.length, hends]
    exact if_pos (.inr (by decide))
  have hcases : w = cint (cint s.length + 1) ∨ cint s.length ≠ 0 ∧ w = cint s.length := by
    unfold seemingLengths at hw
    split at hw
    · exact .inl (List.mem_singleton.mp hw)
    · rename_i hne
      rcases List.mem_cons.mp hw with heq | hmem
      · exact .inl heq
      · exact .inr ⟨hne, List.mem_singleton.mp hmem⟩
  rcases hcases with rfl | ⟨hne, rfl⟩
  · exact .inl hplus
  · by_cases hlen : INT_MAX < s.length
    · obtain ⟨t, hshape, hnul, hget, -⟩ := exists_sameShape s (c := '\n') (by decide)
      have hends := hmemory (hget (cint s.length - 1).toNat (by omega))
      refine .inl ⟨t, hshape, hnul, ?_⟩
      rw [codeLength, hshape.length, hends]
      exact if_neg fun hor => hor.elim hne fun hcontra => hcontra rfl
    · -- the newline alone makes the line too long
      obtain ⟨t, hshape, hnul, hcode⟩ := hplus
      have hline := length_lineOf s
      have hshort := length_addedNewline_le s
      refine .inr ⟨t, hshape, hnul, ?_⟩
      rw [hcode, cint_eq (n := s.length) (by omega) (by omega), cint_wraps (by omega) (by omega)]
      omega

theorem whole_iff_long (h : Inv cb r) {s : CStr} (hlong : INT_MAX < (lineOf s).length)
    (reallocs : Nat → Bool) :
    (∀ t, SameShape t s → '\x00' ∉ t → WrittenWhole cb t (cb.writeLine (some t) reallocs)) ↔
      ∀ w ∈ seemingLengths s, cb.Refuses (cb.reach w (reallocs 0)) w := by
  constructor
  · intro hall w hw
    have hrefuses : ∀ t, SameShape t s → '\x00' ∉ t →
        cb.Refuses (cb.reach (codeLength t) (reallocs 0)) (codeLength t) := fun t hshape hnul =>
      (whole_iff_refused h (by rw [hshape.length_line]; exact hlong) reallocs).mp
        (hall t hshape hnul)
    rcases exists_codeLength hlong hw with ⟨t, hshape, hnul, rfl⟩ | ⟨t, hshape, hnul, hneg⟩
    · exact hrefuses t hshape hnul
    · exact absurd (hrefuses t hshape hnul) (not_refuses_of_nonpos h hneg _)
  · intro hall t hshape _
    exact (whole_iff_refused h (by rw [hshape.length_line]; exact hlong) reallocs).mpr
      (hall _ (codeLength_mem hshape))

/-- Room for the line is made before anything of it is dropped, or not at all. -/
def RoomInTime (cb : Cbuf) (s : CStr) (reallocs : Nat → Bool) : Prop :=
  if (lineOf s).length ≤ INT_MAX then
    cb.Grows (lineOf s).length (reallocs 0) ∨ cb.Refuses cb.size (lineOf s).length ∨
      ¬ cb.GrowsLate s reallocs
  else ∀ w ∈ seemingLengths s, cb.Refuses (cb.reach w (reallocs 0)) w

/-- The strings of one length, with or without a final newline, are all written whole just
when room for them is made in time. Strings that repeat a byte can come out right by chance. -/
theorem write_line_whole_iff (h : Inv cb r) (s : CStr) (reallocs : Nat → Bool) :
    (∀ t, SameShape t s → '\x00' ∉ t → WrittenWhole cb t (cb.writeLine (some t) reallocs)) ↔
      cb.RoomInTime s reallocs := by
  unfold RoomInTime
  split
  · rename_i hint
    exact whole_iff_short h hint reallocs
  · rename_i hlong
    exact whole_iff_long h (by omega) reallocs

/-- Memory for a first line is there when a new buffer needs it. -/
theorem write_line_whole_first : ∃ cb, create true true (fun _ => 'z') 2 9 = .ok cb ∧
    ∀ t, SameShape t ['c', 'd', 'e', 'f'] → '\x00' ∉ t →
      WrittenWhole cb t (cb.writeLine (some t) fun _ => true) := by
  have hinv : ∀ cb, create true true (fun _ => 'z') 2 9 = .ok cb → Inv cb 0 :=
    fun cb hcreate => (inv_create (by decide) hcreate).1
  refine ⟨_, rfl, (write_line_whole_iff (hinv _ rfl) ['c', 'd', 'e', 'f'] _).mpr ?_⟩
  unfold RoomInTime
  rw [if_pos (by decide)]
  exact .inl (by decide)

/-- A buffer of two bytes is full; memory for the next line is there at the second attempt
only. The middle of that line is missing then, behind older bytes that stay. -/
theorem write_line_middle_lost : ∃ cb full : Cbuf, create true true (fun _ => 'z') 2 9 = .ok cb ∧
    full = (cb.writeLine (some ['a']) fun _ => false).2.2 ∧
    (full.writeLine (some ['c', 'd', 'e', 'f']) fun i => i = 1).2.2.unread =
      ['a', '\n', 'f', '\n'] ∧
    ¬ WrittenWhole full ['c', 'd', 'e', 'f']
      (full.writeLine (some ['c', 'd', 'e', 'f']) fun i => i = 1) := by
  refine ⟨_, _, rfl, rfl, by decide, fun h => ?_⟩
  have hunread := (h.of_ok (v := 5) rfl).2
  exact absurd hunread (by decide)

end Cbuf

end Pdsh
