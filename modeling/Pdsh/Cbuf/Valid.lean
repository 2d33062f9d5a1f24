import Pdsh.Cbuf.Transfer
import Pdsh.Lib.Transition

/-!
# Every buffer is valid

`cbuf_create` makes a valid buffer and every public function keeps the buffers valid, in any
order, as long as no `int` overflows: the sizes of a buffer leave room for their sums, and a
write is not longer than the counters can hold (`InRange`). A write of more bytes to a buffer
that drops old ones makes `used` negative (`write_overflow`).
-/

namespace Pdsh

open Lib.Ring Lib.Transition

namespace Cbuf

variable {cb : Cbuf} {r : Int}

/-! ## Finding lines -/

/-- The bytes of the lines found are among those looked at, of which there are at most `k`. -/
structure LineSearch.Within (s : LineSearch) (k : Int) : Prop where
  m_nonneg : 0 ≤ s.m
  m_le : s.m ≤ s.n
  n_le : s.n ≤ k

theorem LineSearch.Within.count {s : LineSearch} {k : Int} (h : s.Within k) (hlt : s.n < k) :
    s.count.Within k := by
  have hm := h.m_nonneg
  have hle := h.m_le
  exact ⟨hm, by simp only [LineSearch.count]; omega, by simp only [LineSearch.count]; omega⟩

/-- `cbuf_find_unread_line` stays among the unread bytes. -/
theorem Inv.unreadLoop_within (h : Inv cb r) (fuel : Nat) {s : LineSearch} (hs : s.Within cb.used)
    (hi : s.i = (cb.i_out + s.n) % (cb.size + 1)) : (cb.unreadLoop fuel s).Within cb.used := by
  have hin := h.in_nonneg
  have hin_le := h.in_le
  have hpos := h.size_pos
  have hroom := h.twice_size
  unfold CBUF_CHUNK at hroom
  induction fuel generalizing s with
  | zero => exact hs
  | succ fuel ih =>
      rw [unreadLoop]
      split
      · rename_i hne
        have hlt : s.n < cb.used := by
          refine lt_of_le_of_ne hs.n_le fun heq => hne ?_
          rw [hi, heq, h.out_eq, Int.emod_add_emod, Int.sub_add_cancel,
            Int.emod_eq_of_lt hin (by omega)]
        have hcount := hs.count hlt
        have hbounds := Int.emod_nonneg (cb.i_out + s.n) (show cb.size + 1 ≠ 0 by omega)
        have hlt' := Int.emod_lt_of_pos (cb.i_out + s.n) (show 0 < cb.size + 1 by omega)
        have hfound : (s.count.found s.count.n).Within cb.used :=
          ⟨hcount.m_nonneg.trans hcount.m_le, le_rfl, hcount.n_le⟩
        have hnext : (cint (s.i + 1)).tmod (cb.size + 1) = (cb.i_out + (s.n + 1)) % (cb.size + 1) := by
          rw [tmod_cint (by omega) (by omega), hi, Int.emod_add_emod, Int.add_assoc]
        simp only
        split
        · split
          · exact hfound
          · exact ih ⟨hfound.m_nonneg, hfound.m_le, hfound.n_le⟩ hnext
        · split
          · exact hcount
          · exact ih ⟨hcount.m_nonneg, hcount.m_le, hcount.n_le⟩ hnext
      · exact hs

theorem Inv.findUnreadLine_bounds (h : Inv cb r) (chars lines : Int) :
    0 ≤ (cb.findUnreadLine chars lines).1 ∧ (cb.findUnreadLine chars lines).1 ≤ cb.used := by
  have hused := h.used_nonneg
  have hout := h.out_bounds
  have hzero : 0 ≤ ((0, 0) : Int × Int).1 ∧ ((0, 0) : Int × Int).1 ≤ cb.used := ⟨le_rfl, hused⟩
  unfold findUnreadLine
  split
  · exact hzero
  · split
    · exact hzero
    · extract_lets chars' s
      have hwithin : s.Within cb.used := h.unreadLoop_within (cb.size + 1).toNat
        ⟨le_rfl, le_rfl, hused⟩
        (by simp [Int.emod_eq_of_lt hout.1 (show cb.i_out < cb.size + 1 by omega)])
      split
      · exact hzero
      · exact ⟨hwithin.m_nonneg, hwithin.m_le.trans hwithin.n_le⟩

/-- `cbuf_find_replay_line` stays among the bytes that can be replayed. -/
theorem Inv.replayLoop_within (h : Inv cb r) (fuel : Nat) {s : LineSearch} (hs : s.Within r)
    (hi : s.i = (cb.i_out - s.n) % (cb.size + 1)) : (cb.replayLoop fuel s).Within r := by
  have hpos := h.size_pos
  have hroom := h.twice_size
  unfold CBUF_CHUNK at hroom
  induction fuel generalizing s with
  | zero => exact hs
  | succ fuel ih =>
      rw [replayLoop]
      split
      · rename_i hne
        have hlt : s.n < r := by
          refine lt_of_le_of_ne hs.n_le fun heq => hne ?_
          rw [hi, heq, h.out_eq, h.rep_eq, Int.emod_sub_emod]
          congr 1
          omega
        have hbounds := Int.emod_nonneg (cb.i_out - s.n) (show cb.size + 1 ≠ 0 by omega)
        have hlt' := Int.emod_lt_of_pos (cb.i_out - s.n) (show 0 < cb.size + 1 by omega)
        have hnext : (cint (s.i + cb.size)).tmod (cb.size + 1) =
            (cb.i_out - (s.n + 1)) % (cb.size + 1) := by
          rw [tmod_cint (by omega) (by omega), hi, Int.emod_add_emod,
            ← Int.add_emod_right (cb.i_out - (s.n + 1))]
          congr 1
          omega
        have hm := hs.m_nonneg
        have hle := hs.m_le
        simp only
        split
        · have hfound : (LineSearch.found (LineSearch.count
              { s with i := (cint (s.i + cb.size)).tmod (cb.size + 1) }) s.n).Within r :=
            ⟨by simp only [LineSearch.found]; omega,
              by simp only [LineSearch.found, LineSearch.count]; omega,
              by simp only [LineSearch.found, LineSearch.count]; omega⟩
          rw [show (LineSearch.count { s with i := (cint (s.i + cb.size)).tmod (cb.size + 1) }).n - 1 = s.n
            by simp [LineSearch.count]]
          split
          · exact hfound
          · exact ih hfound hnext
        · have hcount : (LineSearch.count
              { s with i := (cint (s.i + cb.size)).tmod (cb.size + 1) }).Within r :=
            LineSearch.Within.count ⟨hs.m_nonneg, hs.m_le, hs.n_le⟩ hlt
          split
          · exact hcount
          · exact ih hcount hnext
      · exact hs

theorem Inv.findReplayLine_bounds (h : Inv cb r) (chars lines : Int) :
    0 ≤ (cb.findReplayLine chars lines).m ∧ (cb.findReplayLine chars lines).m ≤ r := by
  have hr := h.rep_nonneg
  have hout := h.out_bounds
  unfold findReplayLine
  split
  · exact ⟨le_rfl, hr⟩
  · split
    · exact ⟨le_rfl, hr⟩
    · extract_lets first chars' terminated nl chars'' lines' l s s'
      have hwithin : s.Within r := h.replayLoop_within (cb.size + 1).toNat ⟨le_rfl, le_rfl, hr⟩
        (by simp [Int.emod_eq_of_lt hout.1 (show cb.i_out < cb.size + 1 by omega)])
      have hm := hwithin.m_nonneg
      have hle := hwithin.m_le
      have hn := hwithin.n_le
      have hlast : 0 ≤ s'.m ∧ s'.m ≤ r := by
        unfold s'
        split
        · exact ⟨by simp only [LineSearch.found]; omega, by simp only [LineSearch.found]; omega⟩
        · omega
      split
      · exact ⟨le_rfl, hr⟩
      · exact hlast

/-! ## One call -/

/-- A write that is no longer than the buffer never overflows. -/
theorem Inv.fitsInt (h : Inv cb r) {len : Int} (hlen : len ≤ cb.size) : cb.FitsInt len := by
  have hroom := h.room
  have hmax := h.le_max
  have halloc := h.alloc_eq
  have hfits := h.fits
  have hr := h.rep_nonneg
  unfold CBUF_CHUNK at hroom
  unfold FitsInt CBUF_CHUNK
  omega

theorem FitsInt.mono {len len' : Int} (h : cb.FitsInt len) (hle : len' ≤ len) : cb.FitsInt len' :=
  ⟨fun hmode => by have := h.1 hmode; omega, fun hneed hmax => by have := h.2 (by omega) hmax; omega⟩

theorem Inv.writer {σ : Type} {getf : Getf σ} {P : List Char → σ → Prop}
    {Q : List Char → σ → Except Errno Int → Prop} (h : Inv cb r) {len : Int} (hlen : 0 < len)
    (hfit : cb.FitsInt len) (hget : GetfSpec getf P Q) {src : σ} (hP : P [] src) (reallocs : Bool) :
    ∃ r', Inv (cb.writer len getf src reallocs).dst r' := by
  obtain ⟨cb₁, hroom, hdoes⟩ := writer_spec h hlen hfit hget hP reallocs
  generalize cb.writer len getf src reallocs = w at hdoes ⊢
  cases hdoes with
  | full => exact ⟨r, hroom.inv⟩
  | nothing => exact ⟨r, hroom.inv⟩
  | bytes _ _ _ _ r' _ _ _ _ happ => exact ⟨r', happ.inv⟩

theorem Inv.dropFound (h : Inv cb r) {n : Int} (hn : 0 ≤ n ∧ n ≤ cb.used) :
    ∃ r', Inv (cb.dropRead (.ok n)) r' := by
  unfold Cbuf.dropRead
  simp only
  split
  · exact ⟨r + n, (h.dropper hn.1 hn.2).1⟩
  · exact ⟨r, h⟩

theorem Inv.dropRead (h : Inv cb r) {ret : Except Errno Int}
    (hret : ∀ n, ret = .ok n → 0 ≤ n ∧ n ≤ cb.used) : ∃ r', Inv (cb.dropRead ret) r' := by
  cases ret with
  | error e => exact ⟨r, h⟩
  | ok n => exact h.dropFound (hret n rfl)

theorem Inv.writeLine (h : Inv cb r) {s : CStr} (hlen : s.length + 1 ≤ INT_MAX)
    (hfit : cb.FitsInt (s.length + 1)) (reallocs : Nat → Bool) :
    ∃ r', Inv (cb.writeLine (some s) reallocs).2.2 r' := by
  simp -zeta only [Cbuf.writeLine]
  extract_lets ncopy len dst full p
  have hncopy : ncopy = s.length := cint_eq (by omega) (by omega)
  have hbounds : ncopy ≤ len ∧ len ≤ s.length + 1 := by
    unfold len
    split
    · rw [cint_eq (by omega) (by omega)]
      omega
    · omega
  obtain ⟨hinv, hgrown, -, henough, hkept⟩ := h.attemptGrow (hfit.mono hbounds.2) (reallocs 0)
  have hdst : dst.FitsInt len := by
    refine ⟨fun hmode => ?_, fun hneed hmax => ?_⟩
    · rw [hgrown.used]
      have := hfit.1 (hgrown.overwrite ▸ hmode)
      omega
    · rw [hgrown.used] at hneed
      rw [hgrown.maxsize] at hmax
      cases hr : reallocs 0 with
      | true =>
          have hfree : cb.used + len ≤ dst.size ∨ dst.size = cb.maxsize := henough hr
          omega
      | false =>
          have hsame : dst = cb := hkept hr
          rw [hsame] at hneed hmax ⊢
          exact (hfit.mono hbounds.2).2 hneed hmax
  split
  · exact ⟨r, hinv⟩
  · split
    · show ∃ r', Inv (dst.putLine s ncopy len reallocs).2 r'
      unfold Cbuf.putLine
      extract_lets ndrop ncopy' w d ndrop' w'
      have hw : ∃ r', Inv w.dst r' := by
        unfold w
        split
        · rename_i hpos
          exact hinv.writer hpos (hdst.mono (by unfold ncopy' ndrop; split <;> omega))
            (getMem_spec _ ndrop) (getMem_start _ _) _
        · exact ⟨r, hinv⟩
      split
      · obtain ⟨r', hw⟩ := hw
        exact hw.writer one_pos (hw.fitsInt hw.size_pos) (getMem_spec _ 0) (getMem_start _ _) _
      · exact hw
    · exact ⟨r, hinv⟩

/-- No `int` of a call overflows that would end up in the buffer. -/
def Call.InRange (cb : Cbuf) : Call → Prop
  | .write _ len _ => cb.FitsInt len
  | .write_line (some s) _ => s.length + 1 ≤ INT_MAX ∧ cb.FitsInt (s.length + 1)
  | .write_from_fd _ _ len _ => cb.FitsInt len
  | _ => True

/-- Every call keeps a buffer that holds together. -/
theorem Inv.call (h : Inv cb r) (c : Call) (hok : c.InRange cb) : ∃ r', Inv (cb.call c).2 r' := by
  have hused := h.used_nonneg
  have hr := h.rep_nonneg
  cases c with
  | query q => exact ⟨r, h⟩
  | flush => exact ⟨0, h.flush.1⟩
  | opt_set name value =>
      have hsame : ∀ mode, Inv { cb with overwrite := mode } r := fun mode => { h with }
      show ∃ r', Inv (cb.optSet name value).2 r'
      unfold optSet
      split
      · split
        · exact ⟨r, hsame _⟩
        · exact ⟨r, h⟩
      · exact ⟨r, h⟩
  | drop len =>
      show ∃ r', Inv (cb.drop len).2 r'
      unfold Cbuf.drop
      split
      · exact ⟨r, h⟩
      · split
        · exact ⟨r, h⟩
        · rename_i hneg hzero
          extract_lets len'
          have hle : len' ≤ cb.used := by unfold len'; split <;> omega
          simp only
          split
          · exact ⟨_, (h.dropper (by omega) hle).1⟩
          · exact ⟨r, h⟩
  | peek null len => exact ⟨r, h⟩
  | read null len =>
      show ∃ r', Inv (cb.read null len).2.2 r'
      unfold Cbuf.read
      split
      · exact ⟨r, h⟩
      · split
        · exact ⟨r, h⟩
        · exact h.dropRead fun n => reader_bounds putMem_spec h (by omega)
  | replay null len => exact ⟨r, h⟩
  | rewind len =>
      show ∃ r', Inv (cb.rewind len).2 r'
      unfold Cbuf.rewind
      rw [h.reused_eq]
      split
      · exact ⟨r, h⟩
      · split
        · exact ⟨r, h⟩
        · extract_lets reused len'
          have hle : 0 ≤ len' ∧ len' ≤ r := by unfold len' reused; split <;> omega
          exact ⟨_, (h.rewound hle.1 hle.2).1⟩
  | write srcbuf len reallocs =>
      show ∃ r', Inv (cb.write srcbuf len reallocs).2.2 r'
      cases srcbuf with
      | none => exact ⟨r, h⟩
      | some mem =>
          unfold Cbuf.write
          simp only
          split
          · exact ⟨r, h⟩
          · split
            · exact ⟨r, h⟩
            · exact h.writer (by omega) hok (getMem_spec mem 0) (getMem_start mem 0) reallocs
  | drop_line len lines =>
      show ∃ r', Inv (cb.dropLine len lines).2 r'
      unfold dropLine
      split
      · exact ⟨r, h⟩
      · split
        · exact ⟨r, h⟩
        · exact h.dropFound (h.findUnreadLine_bounds _ _)
  | peek_line null len lines => exact ⟨r, h⟩
  | read_line null len lines =>
      show ∃ r', Inv (cb.readLine null len lines).2.2 r'
      unfold readLine
      split
      · exact ⟨r, h⟩
      · split
        · exact ⟨r, h⟩
        · exact h.dropFound (h.findUnreadLine_bounds _ _)
  | replay_line null len lines => exact ⟨r, h⟩
  | rewind_line len lines =>
      show ∃ r', Inv (cb.rewindLine len lines).2 r'
      unfold rewindLine
      split
      · exact ⟨r, h⟩
      · split
        · exact ⟨r, h⟩
        · have hbounds := h.findReplayLine_bounds len lines
          exact ⟨_, (h.rewound hbounds.1 hbounds.2).1⟩
  | write_line srcbuf reallocs =>
      cases srcbuf with
      | none => exact ⟨r, h⟩
      | some s => exact h.writeLine hok.1 hok.2 reallocs
  | peek_to_fd dstfd writes len => exact ⟨r, h⟩
  | read_to_fd dstfd writes len =>
      show ∃ r', Inv (cb.readToFd dstfd writes len).2.2 r'
      unfold readToFd
      split
      · exact ⟨r, h⟩
      · extract_lets len'
        split
        · rename_i hpos
          exact h.dropRead fun n => reader_bounds putFd_spec h hpos.le
        · exact ⟨r, h⟩
  | replay_to_fd dstfd writes len => exact ⟨r, h⟩
  | write_from_fd srcfd reads len reallocs =>
      show ∃ r', Inv (cb.writeFromFd srcfd reads len reallocs).2.2.2 r'
      unfold writeFromFd
      split
      · exact ⟨r, h⟩
      · extract_lets len'
        have hfit : cb.FitsInt len' := by
          unfold len' fdLength
          split
          · refine h.fitsInt ?_
            simp only
            split <;> omega
          · exact hok
        split
        · rename_i hpos
          exact h.writer hpos hfit getFd_spec trivial reallocs
        · exact ⟨r, h⟩

/-! ## Every run -/

/-- One call, without its answer. -/
def next (s : Store) (op : Op) : Option Store := (step s op).map Prod.snd

/-- No `int` of a call overflows that would end up in a buffer: there is room for twice the
largest size of a new buffer, and for what is written. -/
def InRange (s : Store) : Op → Prop
  | .create ndebug _ _ minsize maxsize _ =>
      2 * (max minsize maxsize + 1 + 2 * (CBUF_MAGIC ndebug).length) + CBUF_CHUNK ≤ INT_MAX
  | .on h call => ∀ cb, s h = some cb → call.InRange cb
  | _ => True

/-- Every buffer of the store holds together. -/
def AllInv (s : Store) : Prop := ∀ h cb, s h = some cb → ∃ r, Inv cb r

/-- No buffer. -/
def noBuffer : Store := fun _ => none

theorem AllInv.update {s : Store} (hs : AllInv s) {h : Nat} {cb' : Option Cbuf}
    (hcb : ∀ cb, cb' = some cb → ∃ r, Inv cb r) : AllInv (Function.update s h cb') := by
  intro k cb hk
  by_cases hkh : k = h
  · subst hkh
    rw [Function.update_self] at hk
    exact hcb cb hk
  · rw [Function.update_of_ne hkh] at hk
    exact hs k cb hk

theorem inv_copier {src dst : Cbuf} {r' : Int} (hs : Inv src r') (h : Inv dst r) (len : Int)
    (reallocs : Bool) (hlen : 0 < len) :
    (∃ r'', Inv (copier src dst len reallocs).2.2 r'') ∧
      ∀ n, (copier src dst len reallocs).1 = .ok n → 0 ≤ n ∧ n ≤ src.used := by
  have hused := hs.used_nonneg
  by_cases hzero : min len src.used = 0
  · unfold copier
    simp only [hzero, if_true]
    refine ⟨⟨r, h⟩, fun n hn => ?_⟩
    cases hn
    omega
  · have hpos : 0 < min len src.used := by omega
    obtain ⟨dst₁, hroom, hdoes⟩ := copier_spec hs h hpos reallocs
    have hbound := hroom.inv.bound_bounds hpos
    generalize copier src dst len reallocs = c at hdoes ⊢
    cases hdoes with
    | full => exact ⟨⟨r, hroom.inv⟩, fun n hn => by cases hn⟩
    | bytes dst' r'' hpos happ =>
        refine ⟨⟨r'', happ.inv⟩, fun n hn => ?_⟩
        cases hn
        omega

/-- Copying between two buffers keeps both. -/
theorem Inv.copy {src dst : Cbuf} {r' : Int} (hs : Inv src r') (h : Inv dst r) (same : Bool)
    (len : Int) (reallocs : Bool) : ∃ r'', Inv (Cbuf.copy same src dst len reallocs).2.2 r'' := by
  unfold Cbuf.copy
  split
  · exact ⟨r, h⟩
  · split
    · exact ⟨r, h⟩
    · split
      · exact ⟨r, h⟩
      · extract_lets len' c
        split
        · exact (inv_copier hs h len' reallocs (by assumption)).1
        · exact ⟨r, h⟩

theorem Inv.move {src dst : Cbuf} {r' : Int} (hs : Inv src r') (h : Inv dst r) (same : Bool)
    (len : Int) (reallocs : Bool) :
    (∃ r'', Inv (Cbuf.move same src dst len reallocs).2.2.1 r'') ∧
      ∃ r'', Inv (Cbuf.move same src dst len reallocs).2.2.2 r'' := by
  unfold Cbuf.move
  split
  · exact ⟨⟨r', hs⟩, r, h⟩
  · split
    · exact ⟨⟨r', hs⟩, r, h⟩
    · split
      · exact ⟨⟨r', hs⟩, r, h⟩
      · extract_lets len' c
        split
        · have hboth := inv_copier hs h len' reallocs (by assumption)
          exact ⟨hs.dropRead hboth.2, hboth.1⟩
        · exact ⟨⟨r', hs⟩, r, h⟩

/-- Every call keeps the buffers. -/
theorem AllInv.next {s s' : Store} {op : Op} (hs : AllInv s) (hok : InRange s op)
    (hstep : next s op = some s') : AllInv s' := by
  cases op with
  | create ndebug mallocs heap minsize maxsize h =>
      unfold Cbuf.next step at hstep
      cases hfree : s h with
      | some cb => simp [hfree] at hstep
      | none =>
          cases hcreate : create ndebug mallocs heap minsize maxsize with
          | error e =>
              simp only [hfree, hcreate, Option.map_some, Option.some.injEq] at hstep
              exact hstep ▸ hs
          | ok cb =>
              simp only [hfree, hcreate, Option.map_some, Option.some.injEq] at hstep
              rw [← hstep]
              exact hs.update fun cb' hcb => by cases hcb; exact ⟨0, (inv_create hok hcreate).1⟩
  | destroy h =>
      unfold Cbuf.next step at hstep
      cases hcb : s h with
      | none => simp [hcb] at hstep
      | some cb =>
          simp only [hcb, Option.map_some, Option.some.injEq] at hstep
          rw [← hstep]
          exact hs.update fun cb' hcb => by cases hcb
  | on h call =>
      unfold Cbuf.next step at hstep
      cases hcb : s h with
      | none => simp [hcb] at hstep
      | some cb =>
          simp only [hcb, Option.map_some, Option.some.injEq] at hstep
          obtain ⟨r, hinv⟩ := hs h cb hcb
          rw [← hstep]
          exact hs.update fun cb' hcb' => by cases hcb'; exact hinv.call call (hok cb hcb)
  | copy h k len reallocs =>
      unfold Cbuf.next step at hstep
      cases hsrc : s h with
      | none => simp [hsrc] at hstep
      | some src =>
          cases hdst : s k with
          | none => simp [hsrc, hdst] at hstep
          | some dst =>
              simp only [hsrc, hdst, Option.map_some, Option.some.injEq] at hstep
              obtain ⟨r, hinv⟩ := hs h src hsrc
              obtain ⟨r', hinv'⟩ := hs k dst hdst
              rw [← hstep]
              exact hs.update fun cb hcb => by cases hcb; exact hinv.copy hinv' _ len reallocs
  | move h k len reallocs =>
      unfold Cbuf.next step at hstep
      cases hsrc : s h with
      | none => simp [hsrc] at hstep
      | some src =>
          cases hdst : s k with
          | none => simp [hsrc, hdst] at hstep
          | some dst =>
              simp only [hsrc, hdst, Option.map_some, Option.some.injEq] at hstep
              obtain ⟨r, hinv⟩ := hs h src hsrc
              obtain ⟨r', hinv'⟩ := hs k dst hdst
              have hboth := hinv.move hinv' (decide (h = k)) len reallocs
              rw [← hstep]
              refine (hs.update fun cb hcb => ?_).update fun cb hcb => ?_
              · cases hcb
                exact hboth.1
              · cases hcb
                exact hboth.2

theorem allInv_of_steps {s : Store} (hrun : Steps next InRange noBuffer s) : AllInv s := by
  refine hrun.invariant (I := AllInv) (fun h cb hcb => by cases hcb) ?_
  exact fun s op s' hs hok hstep => hs.next hok hstep

/-- In every run without overflow, every buffer is valid. -/
theorem cbuf_valid {s : Store} (hrun : Steps next InRange noBuffer s) :
    ∀ h cb, s h = some cb → IsValid cb := by
  intro h cb hcb
  obtain ⟨r, hinv⟩ := allInv_of_steps hrun h cb hcb
  exact hinv.isValid

theorem step_create {s : Store} {h : Nat} (hfree : s h = none) {ndebug mallocs : Bool}
    {heap : Int → Char} {minsize maxsize : Int} {cb : Cbuf}
    (hcb : create ndebug mallocs heap minsize maxsize = .ok cb) :
    step s (.create ndebug mallocs heap minsize maxsize h) =
      some (⟨.ok 0, [], 0⟩, Function.update s h (some cb)) := by
  simp [step, hfree, hcb]

theorem step_on {s : Store} {h : Nat} {cb : Cbuf} (hcb : s h = some cb) (c : Call) :
    step s (.on h c) = some ((cb.call c).1, Function.update s h (some (cb.call c).2)) := by
  simp [step, hcb]

theorem next_create {s : Store} {h : Nat} (hfree : s h = none) {ndebug mallocs : Bool}
    {heap : Int → Char} {minsize maxsize : Int} {cb : Cbuf}
    (hcb : create ndebug mallocs heap minsize maxsize = .ok cb) :
    next s (.create ndebug mallocs heap minsize maxsize h) = some (Function.update s h (some cb)) := by
  rw [next, step_create hfree hcb]
  rfl

theorem next_on {s : Store} {h : Nat} {cb : Cbuf} (hcb : s h = some cb) (c : Call) :
    next s (.on h c) = some (Function.update s h (some (cb.call c).2)) := by
  rw [next, step_on hcb]
  rfl

/-- Bytes are written to a new buffer that can grow. -/
theorem cbuf_valid_write : ∃ s, Steps next InRange noBuffer s ∧
    (∃ cb, s 0 = some cb ∧ cb.used = 5) ∧ ∀ h cb, s h = some cb → IsValid cb := by
  have hcreate : Steps next InRange noBuffer _ :=
    .tail .refl (a := .create false true (fun _ => 'z') 3 9 0) (by unfold InRange; decide)
      (next_create rfl rfl)
  have hwrite : Steps next InRange noBuffer _ :=
    .tail hcreate (a := .on 0 (.write (some fun _ => 'a') 5 true))
      (fun cb hcb => by cases hcb; exact ⟨fun _ => by decide, fun _ _ => by decide⟩) (next_on rfl _)
  exact ⟨_, hwrite, ⟨_, Function.update_self .., by decide⟩, cbuf_valid hwrite⟩

/-! ## Overflow -/

theorem cint_overflow {n : Int} (hlo : INT_MAX < n) (hhi : n ≤ 2 * INT_MAX) : cint n < 0 := by
  unfold INT_MAX at hlo hhi
  rw [cint, Int32.toInt_ofInt, Int.bmod_def, show Int32.size = 4294967296 from rfl]
  split <;> omega

/-- A write that the counter of unread bytes cannot hold leaves it negative. -/
theorem write_overflow (h : Inv cb r) (hmode : cb.overwrite = .CBUF_WRAP_MANY)
    (hmax : cb.size = cb.maxsize) {len : Int} (hlen : len ≤ INT_MAX) (hover : INT_MAX < cb.used + len)
    (mem : Int → Char) (reallocs : Bool) : (cb.write (some mem) len reallocs).2.2.used < 0 := by
  have hroom := h.twice_size
  have hfits := h.fits
  have hr := h.rep_nonneg
  have hin := h.in_nonneg
  have hin_le := h.in_le
  have hused := h.used_nonneg
  unfold CBUF_CHUNK at hroom
  have hgrow : cb.attemptGrow len reallocs = (cb.size - cb.used, cb) := by
    unfold attemptGrow
    simp only
    rw [if_neg (by omega)]
  have hbound : cb.bound len = len := by
    unfold bound
    rw [hmode]
  have hstart : Writing.At (⟨cb.data, cb.i_in, len, .ok 0, 0⟩ : Writing Int) cb.data cb.size cb.i_in len
      [] :=
    ⟨rfl, by simp [Int.emod_eq_of_lt hin (show cb.i_in < cb.size + 1 by omega)], by simp,
      by simp; omega⟩
  obtain ⟨bs, hat, -, hall⟩ := writerLoop_spec (getMem_spec mem 0) h.size_pos h.twice_size len.toNat hstart
    (getMem_start mem 0) (by simp only; omega)
  have hlength : (bs.length : Int) = len := hall.resolve_right id
  unfold Cbuf.write Cbuf.writer
  simp only [hgrow, hbound, hmode, reduceCtorEq, false_and, if_false, hat.nleft, hlength, Int.sub_self,
    Int.sub_zero, show ¬ len < 0 by omega, show ¬ len = 0 by omega, show len > 0 by omega, if_true]
  have hneg := cint_overflow hover (by omega)
  unfold updateMetadata
  simp only
  split <;> split <;> simp only <;> omega

theorem call_write (cb : Cbuf) (srcbuf : Option (Int → Char)) (len : Int) (reallocs : Bool) :
    (cb.call (.write srcbuf len reallocs)).2 = (cb.write srcbuf len reallocs).2.2 := rfl

/-- `2147483647` bytes written behind one byte leave the number of unread bytes negative. -/
theorem long_write_invalid :
    ¬ ∀ s, Steps next anyStep noBuffer s → ∀ h cb, s h = some cb → IsValid cb := by
  intro hall
  have hcreate : Steps next InRange noBuffer _ :=
    .tail .refl (a := .create true true (fun _ => 'z') 1 1 0) (by unfold InRange; decide)
      (next_create rfl rfl)
  have hwrite : Steps next InRange noBuffer _ :=
    .tail hcreate (a := .on 0 (.write (some fun _ => 'a') 1 true))
      (fun cb hcb => by cases hcb; exact ⟨fun _ => by decide, fun _ _ => by decide⟩) (next_on rfl _)
  obtain ⟨r, hinv⟩ := allInv_of_steps hwrite 0 _ (Function.update_self ..)
  have hlong := (hwrite.mono fun _ _ _ => trivial : Steps next anyStep noBuffer _).tail
    (a := .on 0 (.write (some fun _ => 'a') INT_MAX true)) trivial
    (next_on (Function.update_self ..) _)
  have hvalid := hall _ hlong 0 _ (Function.update_self ..)
  have hneg := write_overflow hinv (by decide) (by decide) le_rfl (by decide) (fun _ => 'a') true
  have hnonneg := hvalid.used_nonneg
  rw [call_write] at hnonneg
  exact absurd hneg (not_lt.mpr hnonneg)

end Cbuf

end Pdsh
