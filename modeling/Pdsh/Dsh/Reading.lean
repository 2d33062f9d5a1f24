import Mathlib.Algebra.BigOperators.Group.Finset.Basic
import Pdsh.Dsh.Output

/-!
# Reading comes to an end

A call of `_do_output` takes something of what its descriptor still gives, or it is the last one
(`doOutput_volume`). So the work a stream needs, its reads and its flush, goes down with each step
(`outputStep_work`), and with it the work of all streams of the table (`streamsWork_lt`).
-/

namespace Pdsh.Dsh

open Lib.Transition

variable {e : ErrState} {out out' : OutputState} {k : Nat} {w : Which} {reads reads' : List Cbuf.FdRead}

/-! ## One descriptor -/

/-- What a descriptor still gives. -/
def volume : List Cbuf.FdRead → Nat
  | [] => 0
  | .bytes bs :: reads => bs.length + 1 + volume reads
  | .fails _ :: reads => 1 + volume reads

theorem getFd_ok {len : Int} {bs : List Char} (h : Cbuf.getFd reads len = (.ok bs, reads')) :
    volume reads' + bs.length ≤ volume reads := by
  induction reads with
  | nil =>
      cases h
      exact Nat.le_refl _
  | cons event reads ih =>
      cases event with
      | fails errno =>
          unfold Cbuf.getFd at h
          split at h
          · have hrest := ih h
            simp only [volume]
            omega
          · cases h
      | bytes got =>
          unfold Cbuf.getFd at h
          cases h
          split
          · simp only [volume, List.length_take]
            omega
          · simp only [volume, List.length_take, List.length_drop]
            omega

theorem getFd_error {len : Int} {errno : Errno} (h : Cbuf.getFd reads len = (.error errno, reads')) :
    volume reads' < volume reads := by
  induction reads with
  | nil => cases h
  | cons event reads ih =>
      cases event with
      | fails errno' =>
          unfold Cbuf.getFd at h
          split at h
          · have hrest := ih h
            simp only [volume]
            omega
          · cases h
            simp only [volume]
            omega
      | bytes got => cases h

/-- What the loop of `cbuf_writer` does with a descriptor. -/
inductive Wrote (w w' : Cbuf.Writing (List Cbuf.FdRead)) : Prop where
  | nothing (hleft : w'.nleft = w.nleft) (hvolume : volume w'.src ≤ volume w.src) (hm : w'.m = .ok 0 ∨ w'.m = w.m)
  | failed (hleft : w'.nleft = w.nleft) (hvolume : volume w'.src < volume w.src) (errno : Errno)
      (hm : w'.m = .error errno)
  | bytes (hleft : w'.nleft < w.nleft) (hvolume : volume w'.src < volume w.src)

/-- One call of the loop, and what the rest of it makes of that. -/
theorem wrote_once {w w' : Cbuf.Writing (List Cbuf.FdRead)} {bs : List Char} {src : List Cbuf.FdRead}
    (hleft : w'.nleft = w.nleft - bs.length) (hsrc : w'.src = src) (hm : w'.m = .ok (bs.length : Int))
    (hvolume : volume src + bs.length ≤ volume w.src) : Wrote w w' ∧ ∀ w'', Wrote w' w'' → Wrote w w'' := by
  subst hsrc
  rcases Nat.eq_zero_or_pos bs.length with hzero | hpos
  · rw [hzero] at hleft hm hvolume
    have hleft' : w'.nleft = w.nleft := by omega
    refine ⟨.nothing hleft' hvolume (.inl hm), fun w'' h => ?_⟩
    cases h with
    | nothing hl hv hm' => exact .nothing (hl.trans hleft') (by omega) (.inl (hm'.elim id fun hsame => hsame.trans hm))
    | failed hl hv errno hm' => exact .failed (hl.trans hleft') (by omega) errno hm'
    | bytes hl hv => exact .bytes (by omega) (by omega)
  · have hless : volume w'.src < volume w.src := by omega
    refine ⟨.bytes (by omega) hless, fun w'' h => ?_⟩
    cases h with
    | nothing hl hv _ => exact .bytes (by omega) (by omega)
    | failed hl hv _ _ => exact .bytes (by omega) (by omega)
    | bytes hl hv => exact .bytes (by omega) (by omega)

theorem writerLoop_wrote (size : Int) (fuel : Nat) (w : Cbuf.Writing (List Cbuf.FdRead)) :
    Wrote w (Cbuf.writerLoop size Cbuf.getFd fuel w) := by
  induction fuel generalizing w with
  | zero => exact .nothing rfl (Nat.le_refl _) (.inr rfl)
  | succ fuel ih =>
      unfold Cbuf.writerLoop
      split
      · simp only
        cases hget : Cbuf.getFd w.src (min w.nleft (size + 1 - w.i_dst)) with
        | mk r src =>
            cases r with
            | error errno => exact .failed rfl (getFd_error hget) errno rfl
            | ok bs =>
                have hvolume := getFd_ok hget
                -- a short read is the last one
                have hrest : ∀ {p : Prop} [Decidable p] {w' : Cbuf.Writing (List Cbuf.FdRead)},
                    (Wrote w w' ∧ ∀ w'', Wrote w' w'' → Wrote w w'') →
                      Wrote w (if p then w' else Cbuf.writerLoop size Cbuf.getFd fuel w') := by
                  intro p _ w' hone
                  split
                  · exact hone.1
                  · exact hone.2 _ (ih w')
                apply hrest
                by_cases hpos : (bs.length : Int) > 0
                · rw [if_pos hpos]
                  exact wrote_once rfl rfl rfl hvolume
                · rw [if_neg hpos]
                  exact wrote_once (show w.nleft = w.nleft - bs.length by omega) rfl rfl hvolume
      · exact .nothing rfl (Nat.le_refl _) (.inr rfl)

theorem writer_volume (cb : Cbuf) (len : Int) (reads : List Cbuf.FdRead) (reallocs : Bool) :
    volume (cb.writer len Cbuf.getFd reads reallocs).src < volume reads ∨
      (cb.writer len Cbuf.getFd reads reallocs).ret = .ok 0 ∨
      ∃ errno, errno ≠ .EAGAIN ∧ (cb.writer len Cbuf.getFd reads reallocs).ret = .error errno := by
  unfold Cbuf.writer
  simp only
  split
  · exact .inr (.inr ⟨.ENOSPC, by decide, rfl⟩)
  · have hwrote := writerLoop_wrote (cb.attemptGrow len reallocs).2.size
      ((cb.attemptGrow len reallocs).2.bound len).toNat
      ⟨(cb.attemptGrow len reallocs).2.data, (cb.attemptGrow len reallocs).2.i_in,
        (cb.attemptGrow len reallocs).2.bound len, .ok 0, reads⟩
    -- with nothing written the answer is that of the last call, else it is what was written
    split
    · cases hwrote with
      | nothing hleft hvolume hm => exact .inr (.inl (hm.elim id id))
      | failed hleft hvolume errno hm => exact .inl hvolume
      | bytes hleft hvolume => exact .inl hvolume
    · rename_i hwritten
      cases hwrote with
      | nothing hleft hvolume hm =>
          simp only at hleft
          exact absurd (by omega) hwritten
      | failed hleft hvolume errno hm => exact .inl hvolume
      | bytes hleft hvolume => exact .inl hvolume

/-- A call reads something, or is the last one. -/
theorem writeFromFd_volume {cb cb' : Cbuf} {fd len dropped : Int} {reallocs : Bool} {ret : Except Errno Int}
    (h : cb.writeFromFd fd reads len reallocs = (ret, dropped, reads', cb')) :
    volume reads' < volume reads ∨ ret = .ok 0 ∨ ∃ errno, errno ≠ .EAGAIN ∧ ret = .error errno := by
  unfold Cbuf.writeFromFd at h
  split at h
  · cases h
    exact .inr (.inr ⟨.EINVAL, by decide, rfl⟩)
  · simp only at h
    split at h
    · have hvolume := writer_volume cb (cb.fdLength len) reads reallocs
      cases h
      exact hvolume
    · cases h
      exact .inr (.inl rfl)

theorem doOutput_volume (e : ErrState) (read_rc : Bool) (th : ThdOut) (fd : Int) (cb : Cbuf)
    (reads : List Cbuf.FdRead) :
    (doOutput e read_rc th fd cb reads).ret ≤ 0 ∨
      volume (doOutput e read_rc th fd cb reads).reads < volume reads := by
  unfold doOutput
  split
  · rename_i errno dropped reads' cb' hwrite
    split
    · -- `EAGAIN` is the error of a read, which was taken
      rename_i hagain
      right
      rcases writeFromFd_volume hwrite with hless | hzero | ⟨errno', hne, hfails⟩
      · exact hless
      · cases hzero
      · cases hfails
        exact absurd hagain hne
    · exact .inl (show (-1 : Int) ≤ 0 by decide)
  · rename_i ret dropped reads' cb' hwrite
    rcases writeFromFd_volume hwrite with hless | hzero | ⟨errno, -, hfails⟩
    · exact .inr hless
    · left
      cases hzero
      exact Int.le_refl 0
    · cases hfails

/-! ## One stream -/

/-- The reads and the flush that a stream still needs. -/
def Stream.work (stream : Stream) : Nat :=
  (if stream.closed then 0 else volume stream.reads + 1) + if stream.flushed then 0 else 1

/-- What a flush changes of the streams. -/
theorem outputStep_flush (hstep : outputStep e out (.flush k w) = some out') :
    out'.t = out.t ∧ (out'.streams k w).flushed = true ∧
      (∀ j v, ¬(j = k ∧ v = w) → out'.streams j v = out.streams j v) ∧
      ∀ j v, (out'.streams j v).reads = (out.streams j v).reads ∧
        (out'.streams j v).closed = (out.streams j v).closed := by
  unfold outputStep at hstep
  simp only at hstep
  split at hstep
  · split at hstep
    · cases hstep
    · cases hstep
      refine ⟨rfl, ?_, ?_, ?_⟩
      · show (if k = k ∧ w = w then _ else _ : Stream).flushed = true
        rw [if_pos ⟨rfl, rfl⟩]
      · intro j v hother
        exact if_neg hother
      · intro j v
        show (if j = k ∧ v = w then _ else _ : Stream).reads = _ ∧ (if j = k ∧ v = w then _ else _ : Stream).closed = _
        split
        · rename_i hsame
          rw [hsame.1, hsame.2]
          exact ⟨rfl, rfl⟩
        · exact ⟨rfl, rfl⟩
  · cases hstep

theorem outputStep_output_work (hstep : outputStep e out (.output k w) = some out') :
    (∀ j v, ¬(j = k ∧ v = w) → out'.streams j v = out.streams j v) ∧
      (out'.streams k w).work < (out.streams k w).work := by
  unfold outputStep at hstep
  simp only at hstep
  split at hstep
  · cases hstep
  · rename_i th hth
    split at hstep
    · cases hstep
    · rename_i hopen
      cases hstep
      refine ⟨fun j v hother => if_neg hother, ?_⟩
      show (if k = k ∧ w = w then _ else _ : Stream).work < _
      rw [if_pos ⟨rfl, rfl⟩]
      -- the last call closes the stream, any other leaves less to read
      have hclosed : (out.streams k w).closed = false := by simpa using fun hc => hopen (.inl hc)
      have hread := doOutput_volume e (w = .stdout) th (out.streams k w).fd (out.streams k w).cb
        (out.streams k w).reads
      simp only [Stream.work, hclosed, decide_eq_true_eq, Bool.false_eq_true, if_false]
      split
      · omega
      · rcases hread with hend | hless
        · contradiction
        · omega

theorem outputStep_flush_work (hstep : outputStep e out (.flush k w) = some out') :
    (out'.streams k w).work < (out.streams k w).work := by
  obtain ⟨-, hflushed, -, hkept⟩ := outputStep_flush hstep
  have hunflushed : (out.streams k w).flushed = false := by
    unfold outputStep at hstep
    simp only at hstep
    split at hstep
    · split at hstep
      · cases hstep
      · rename_i hnot
        simpa using hnot
    · cases hstep
  simp only [Stream.work, (hkept k w).1, (hkept k w).2, hflushed, hunflushed, Bool.false_eq_true, if_true, if_false]
  omega

/-- A step is about one stream of the table, which has less to do behind it. -/
theorem outputStep_work {event : OutputEvent} (hstep : outputStep e out event = some out') :
    out'.t.length = out.t.length ∧ ∃ k w, k < out.t.length ∧
      (∀ j v, ¬(j = k ∧ v = w) → out'.streams j v = out.streams j v) ∧
      (out'.streams k w).work < (out.streams k w).work := by
  cases event with
  | output k w =>
      have hwork := outputStep_output_work hstep
      unfold outputStep at hstep
      simp only at hstep
      split at hstep
      · cases hstep
      · rename_i th hth
        split at hstep
        · cases hstep
        · cases hstep
          exact ⟨List.length_set .., k, w, (List.getElem?_eq_some_iff.mp hth).1, hwork⟩
  | flush k w =>
      obtain ⟨ht, -, hothers, -⟩ := outputStep_flush hstep
      have hless := outputStep_flush_work hstep
      unfold outputStep at hstep
      simp only at hstep
      split at hstep
      · rename_i th first hth hfirst
        exact ⟨congrArg List.length ht, k, w, (List.getElem?_eq_some_iff.mp hth).1, hothers, hless⟩
      · cases hstep

/-! ## All streams -/

/-- The work of the streams of a host. -/
def OutputState.work (out : OutputState) (k : Nat) : Nat :=
  (out.streams k .stdout).work + (out.streams k .stderr).work

/-- The work of all streams of the table. -/
def streamsWork (out : OutputState) : Nat := ∑ k ∈ Finset.range out.t.length, out.work k

/-- Every step goes down. -/
theorem streamsWork_lt {event : OutputEvent} (hstep : outputStep e out event = some out') :
    streamsWork out' < streamsWork out := by
  obtain ⟨hlength, k, w, hk, hothers, hless⟩ := outputStep_work hstep
  unfold streamsWork
  rw [hlength]
  apply Finset.sum_lt_sum
  · -- the other stream of the host is the same, as are both of all other hosts
    intro j hj
    by_cases hjk : j = k
    · subst hjk
      cases w with
      | stdout =>
          rw [OutputState.work, hothers j .stderr fun hsame => by cases hsame.2]
          exact Nat.add_le_add_right (Nat.le_of_lt hless) _
      | stderr =>
          rw [OutputState.work, hothers j .stdout fun hsame => by cases hsame.2]
          exact Nat.add_le_add_left (Nat.le_of_lt hless) _
    · have hsame : ∀ v, out'.streams j v = out.streams j v := fun v => hothers j v fun h => hjk h.1
      rw [OutputState.work, hsame, hsame]
      exact Nat.le_refl _
  · refine ⟨k, Finset.mem_range.mpr hk, ?_⟩
    cases w with
    | stdout =>
        rw [OutputState.work, hothers k .stderr fun hsame => by cases hsame.2]
        exact Nat.add_lt_add_right hless _
    | stderr =>
        rw [OutputState.work, hothers k .stdout fun hsame => by cases hsame.2]
        exact Nat.add_lt_add_left hless _

/-- A stream of the table that is open can be read, and one that was not flushed can be flushed. -/
theorem outputStep_output_enabled (e : ErrState) (hk : k < out.t.length)
    (hclosed : (out.streams k w).closed = false) (hflushed : (out.streams k w).flushed = false) :
    ∃ out', outputStep e out (.output k w) = some out' := by
  unfold outputStep
  simp only [List.getElem?_eq_getElem hk, hclosed, hflushed]
  exact ⟨_, rfl⟩

theorem outputStep_flush_enabled (e : ErrState) (hk : k < out.t.length)
    (hflushed : (out.streams k w).flushed = false) :
    ∃ out', outputStep e out (.flush k w) = some out' := by
  unfold outputStep
  simp only [List.getElem?_eq_getElem hk, List.getElem?_eq_getElem (Nat.lt_of_le_of_lt (Nat.zero_le k) hk),
    hflushed]
  exact ⟨_, rfl⟩

end Pdsh.Dsh
