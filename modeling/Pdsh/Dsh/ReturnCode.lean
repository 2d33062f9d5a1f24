import Pdsh.Dsh.Reassembly

/-!
# The return code in the output

The remote shell appends `XXRETCODE:` and the return code to the output of the command. Where the
command ended without a newline the marker stands behind its last text, and `_extract_rc` moves its
pointer on by one to leave a newline there; the pointer is then one too far for the digits as well
(`extractRc_behind`).

Every line of standard output goes through `_extract_rc`, and what it gives is the return code of
the host from then on: the last complete line decides (`Recorded`).
-/

namespace Pdsh.Dsh

open Lib Lib.Decimal Lib.Lines Lib.Ring Lib.Transition

variable {s text line t : CStr} {k r : Nat}

/-! ## Where the marker is -/

/-- A pattern is found where it begins for the first time. -/
theorem strstr_eq_some {pat : CStr} (hpat : pat ≠ []) (h : pat <+: s.drop k)
    (hfirst : ∀ j < k, ¬ pat <+: s.drop j) : strstr pat s = some k := by
  induction s generalizing k with
  | nil =>
      rw [List.drop_nil] at h
      exact absurd (List.prefix_nil.mp h) hpat
  | cons c s ih =>
      cases k with
      | zero =>
          have hhead : pat.isPrefixOf (c :: s) := List.isPrefixOf_iff_prefix.mpr h
          rw [strstr, if_pos hhead]
      | succ k =>
          have hhead : ¬ pat.isPrefixOf (c :: s) := fun hp =>
            hfirst 0 (Nat.succ_pos k) (List.isPrefixOf_iff_prefix.mp hp)
          rw [strstr, if_neg hhead, ih h fun j hj => hfirst (j + 1) (Nat.succ_lt_succ hj)]
          rfl

/-- The magic string does not begin in the text. -/
def NoOverlap (text : CStr) : Prop := ∀ j < text.length, ¬ RC_MAGIC <+: (text ++ RC_MAGIC).drop j

instance (text : CStr) : Decidable (NoOverlap text) := by
  unfold NoOverlap
  infer_instance

/-- The line that the remote shell makes of the open line of the command. -/
def markerLine (text : CStr) (r : Nat) : CStr := text ++ RC_MAGIC ++ Nat.toDigits 10 r ++ ['\n']

theorem strstr_marker (h : NoOverlap text) (t : CStr) :
    strstr RC_MAGIC (text ++ RC_MAGIC ++ t) = some text.length := by
  refine strstr_eq_some (by decide) ?_ fun j hj hp => ?_
  · rw [List.append_assoc, List.drop_left]
    exact List.prefix_append _ _
  · refine h j hj ?_
    have hlong : RC_MAGIC.length ≤ ((text ++ RC_MAGIC).drop j).length := by
      rw [List.length_drop, List.length_append]
      omega
    rw [List.drop_append_of_le_length (by rw [List.length_append]; omega)] at hp
    exact List.prefix_of_prefix_length_le hp (List.prefix_append _ t) hlong

/-! ## What is read -/

/-- `atoi` on the digits in front of the newline. -/
theorem atoi_digits (ht : ∀ c ∈ t, c.isDigit) (hv : value t < 2 ^ 31) : atoi (t ++ ['\n']) = value t := by
  have hread : ∀ s, strtoulSign ((t ++ ['\n']).dropWhile isspace) = (false, s) →
      s.takeWhile Char.isDigit = t → atoi (t ++ ['\n']) = value t := by
    intro s hsign hdigits
    have hsize : (Int32.size : Int) = 2 ^ 32 := rfl
    unfold atoi
    simp only [hsign, hdigits, Bool.false_eq_true, if_false]
    rw [min_eq_left (by omega), Int32.toInt_ofInt, Int.bmod_eq_of_le (by omega) (by omega)]
  cases t with
  | nil => exact hread [] rfl rfl
  | cons c t =>
      have hc := ht c (by simp)
      refine hread (c :: t ++ ['\n']) ?_ ?_
      · rw [List.cons_append, List.dropWhile_cons_of_neg (by simp [isspace_of_isDigit hc])]
        exact strtoulSign_of_isDigit hc _
      · rw [List.takeWhile_append_of_pos ht]
        exact List.append_nil _

theorem value_toDigits (r : Nat) : value (Nat.toDigits 10 r) = r := by
  have hpad := value_pad 0 r
  rwa [pad, padding, Nat.zero_sub, List.replicate_zero, List.nil_append] at hpad

theorem atoi_toDigits (hr : r < 2 ^ 31) : atoi (Nat.toDigits 10 r ++ ['\n']) = r := by
  have hv : value (Nat.toDigits 10 r) < 2 ^ 31 := by rwa [value_toDigits]
  rw [atoi_digits (fun c hc => isDigit_toDigits hc) hv, value_toDigits]

/-- Alone on its line the marker gives the return code. -/
theorem extractRc_alone (hr : r < 2 ^ 31) : extractRc (markerLine [] r) = ((r : Int), []) := by
  have hfound := @strstr_marker [] (by decide) (Nat.toDigits 10 r ++ ['\n'])
  have hline : markerLine [] r = [] ++ RC_MAGIC ++ (Nat.toDigits 10 r ++ ['\n']) := by
    rw [markerLine, List.append_assoc]
  rw [hline, extractRc, hfound]
  simp only [List.length_nil, ne_eq, not_true_eq_false, and_false, if_false, Nat.zero_add,
    List.nil_append, List.drop_left, List.take_zero, atoi_toDigits hr]

/-- Behind a text the first digit is skipped. -/
theorem extractRc_behind (h : NoOverlap text) (hne : text ≠ []) (r : Nat) :
    extractRc (markerLine text r) = (atoi ((Nat.toDigits 10 r).tail ++ ['\n']), text ++ ['\n']) := by
  have hfound := strstr_marker h (Nat.toDigits 10 r ++ ['\n'])
  have hline : markerLine text r = text ++ RC_MAGIC ++ (Nat.toDigits 10 r ++ ['\n']) := by
    rw [markerLine, List.append_assoc]
  have hlast : (markerLine text r).getLast? = some '\n' := List.getLast?_concat
  have hlen : text.length ≠ 0 := fun h0 => hne (List.length_eq_zero_iff.mp h0)
  obtain ⟨c, t, hct⟩ : ∃ c t, Nat.toDigits 10 r = c :: t :=
    List.exists_cons_of_ne_nil Nat.toDigits_ne_nil
  have hdrop : (markerLine text r).drop (text.length + 1 + RC_MAGIC.length) = t ++ ['\n'] := by
    have hcut : text.length + 1 + RC_MAGIC.length = (text ++ RC_MAGIC ++ [c]).length := by
      rw [List.length_append, List.length_append, List.length_singleton]
      omega
    have hsplit : markerLine text r = text ++ RC_MAGIC ++ [c] ++ (t ++ ['\n']) := by
      rw [hline, hct]
      simp
    rw [hcut, hsplit, List.drop_left]
  have htake : (markerLine text r).take text.length = text := by
    rw [hline, List.append_assoc, List.take_left]
  have hstr : strstr RC_MAGIC (markerLine text r) = some text.length := hline ▸ hfound
  rw [extractRc, hstr]
  simp only [hlast, ne_eq, hlen, not_false_eq_true, and_self, if_true, hdrop, htake]
  rw [hct, List.tail_cons]

/-! ## Whether it is the return code -/

/-- Without its first digit a number is smaller, unless it is 0. -/
theorem value_tail_lt (hr : 0 < r) : value (Nat.toDigits 10 r).tail < r := by
  obtain ⟨c, t, hct⟩ : ∃ c t, Nat.toDigits 10 r = c :: t :=
    List.exists_cons_of_ne_nil Nat.toDigits_ne_nil
  have hd : ∀ x ∈ t, x.isDigit := by
    intro x hx
    refine isDigit_toDigits (n := r) ?_
    rw [hct]
    exact List.mem_cons_of_mem c hx
  rw [hct, List.tail_cons]
  by_cases ht : t = []
  · rw [ht]
    exact hr
  · have hlt := value_lt t hd
    have hdigits : numDigits r = t.length + 1 := by
      rw [numDigits, hct, List.length_cons]
    have hiff := @numDigits_le_iff r t.length (List.length_pos_iff.mpr ht)
    omega

/-- The return code comes back exactly when the command left no text on the line, or returned 0;
the line to print is right in any case. A line without the magic string stays as it is. -/
theorem extract_rc_iff (h : NoOverlap text) (hr : r < 2 ^ 31) :
    (extractRc (markerLine text r) = ((r : Int), if text = [] then [] else text ++ ['\n']) ↔
      text = [] ∨ r = 0) ∧
    ∀ line, ¬ RC_MAGIC <:+: line → (extractRc line).2 = line := by
  refine ⟨?_, fun line hline => by rw [extractRc, strstr_eq_none hline]⟩
  by_cases hne : text = []
  · rw [hne, extractRc_alone hr]
    simp
  · rw [extractRc_behind h hne, if_neg hne, Prod.mk.injEq]
    have hd : ∀ c ∈ (Nat.toDigits 10 r).tail, c.isDigit :=
      fun c hc => isDigit_toDigits (List.mem_of_mem_tail hc)
    constructor
    · rintro ⟨hcode, -⟩
      right
      by_contra hpos
      have hlt := value_tail_lt (Nat.pos_of_ne_zero hpos)
      rw [atoi_digits hd (by omega)] at hcode
      omega
    · rintro (hnil | rfl)
      · exact absurd hnil hne
      · exact ⟨rfl, rfl⟩

/-- A command that leaves its line open and returns 0. -/
theorem extract_rc_open_zero :
    extractRc "fooXXRETCODE:0\n".toList = (0, "foo\n".toList) :=
  (@extract_rc_iff "foo".toList 0 (by decide) (by decide)).1.mpr (.inr rfl)

/-- The first digit of 17 is lost. -/
theorem return_code_cut : NoOverlap "foo".toList ∧
    extractRc (markerLine "foo".toList 17) = (7, "foo\n".toList) := by
  decide

/-! ## The last line decides -/

/-- The return code behind the lines `done`: that of the last one. Of a line that is longer than
the buffer only a part is seen, up to its end. -/
inductive Recorded (rc₀ : Int) (done : List Char) (rc : Int) : Prop where
  | none (hdone : done = []) (hrc : rc = rc₀)
  | line (pre body cut : List Char) (hdone : done = pre ++ body ++ ['\n']) (hpre : Ended '\n' pre)
      (hbody : '\n' ∉ body) (hcut : cut <:+ body) (hlong : cut = body ∨ 100 ≤ cut.length)
      (hrc : rc = (extractRc (stringIn (cut ++ ['\n']))).1)

variable {rc₀ rc rc' : Int} {done done' p u whole : List Char} {cb : Cbuf}

theorem Recorded.trans (hended : Ended '\n' done) (h : Recorded rc₀ done rc)
    (h' : Recorded rc done' rc') : Recorded rc₀ (done ++ done') rc' := by
  cases h' with
  | none hdone hrc =>
      rw [hdone, List.append_nil, hrc]
      exact h
  | line pre body cut hdone hpre hbody hcut hlong hrc =>
      refine .line (done ++ pre) body cut ?_ (ended_append hended hpre) hbody hcut hlong hrc
      rw [hdone]
      simp

/-- `_flush_lines` on standard output. -/
theorem flushLines_recorded (e : ErrState) (th : ThdOut) (fuel : Nat) (rc : Int) (h : Holds cb u)
    (hfuel : u.length < fuel) :
    ∃ done p, u = done ++ p ∧ Ended '\n' done ∧ '\n' ∉ p ∧
      Holds (flushLines e true th fuel cb rc).cb p ∧
      (done = [] ∧ (flushLines e true th fuel cb rc).rc = rc ∨
        ∃ pre body, done = pre ++ body ++ ['\n'] ∧ Ended '\n' pre ∧ '\n' ∉ body ∧
          (flushLines e true th fuel cb rc).rc = (extractRc (stringIn (body ++ ['\n']))).1) := by
  induction fuel generalizing cb u rc with
  | zero => omega
  | succ fuel ih =>
      by_cases hmem : '\n' ∈ u
      · obtain ⟨hline, hcut⟩ := cut_line hmem
        obtain ⟨cb', hrest, heq⟩ := flushLines_line e true th fuel rc h hmem
        have hpos : 0 < Cbuf.firstLine u := by
          rw [Cbuf.firstLine, if_pos hmem]
          omega
        have hlen := List.length_pos_of_mem hmem
        obtain ⟨done, p, hu, hdone, hp, hholds, hrc⟩ := ih
          (lineResult true rc (u.take (Cbuf.firstLine u))).1 hrest (by rw [List.length_drop]; omega)
        rw [heq]
        have hsplit : u = u.take (Cbuf.firstLine u) ++ done ++ p := by
          rw [List.append_assoc, ← hu, List.take_append_drop]
        refine ⟨u.take (Cbuf.firstLine u) ++ done, p, hsplit, ended_append (hcut ▸ ended_line _) hdone,
          hp, hholds, .inr ?_⟩
        rcases hrc with ⟨rfl, hrc⟩ | ⟨pre, body, rfl, hpre, hbody, hrc⟩
        · refine ⟨[], u.take (u.idxOf '\n'), by rw [hcut]; simp, .inl rfl, hline, ?_⟩
          rw [hrc, hcut]
          rfl
        · refine ⟨u.take (Cbuf.firstLine u) ++ pre, body, by simp, ?_, hbody, hrc⟩
          exact ended_append (hcut ▸ ended_line _) hpre
      · rw [flushLines_open e true th fuel rc h hmem]
        exact ⟨[], u, rfl, .inl rfl, hmem, h, .inl ⟨rfl, rfl⟩⟩

/-- Standard error does not count. -/
theorem flushLines_stderr (e : ErrState) (th : ThdOut) (fuel : Nat) (cb : Cbuf) (rc : Int) :
    (flushLines e false th fuel cb rc).rc = rc := by
  induction fuel generalizing cb with
  | zero => rfl
  | succ fuel ih =>
      unfold flushLines
      split
      · rfl
      · split
        · rfl
        · split
          · rfl
          · split
            · exact ih _
            · exact ih _

theorem doOutput_stderr (e : ErrState) (th : ThdOut) (fd : Int) (cb : Cbuf) (reads : List Cbuf.FdRead) :
    (doOutput e false th fd cb reads).rc = th.rc := by
  unfold doOutput
  split
  · split <;> rfl
  · exact flushLines_stderr e th _ _ _

/-- `_do_output` on standard output, with the end of an open line `p` in the buffer. -/
theorem doOutput_recorded (e : ErrState) (th : ThdOut) (h : Holds cb (p.rtake 131072))
    (hopen : '\n' ∉ p) {fd : Int} (hfd : 0 ≤ fd) {reads : List Cbuf.FdRead} (hreads : ReadsOk reads) :
    ∃ done p', p ++ streamOf reads = done ++ p' ++ streamOf (doOutput e true th fd cb reads).reads ∧
      Ended '\n' done ∧ '\n' ∉ p' ∧ ReadsOk (doOutput e true th fd cb reads).reads ∧
      Holds (doOutput e true th fd cb reads).cb (p'.rtake 131072) ∧
      Recorded th.rc done (doOutput e true th fd cb reads).rc ∧
      ((doOutput e true th fd cb reads).ret ≤ 0 → (doOutput e true th fd cb reads).reads = []) := by
  obtain ⟨bs, ret, reads', cb', dropped, hwrite, hstream, hreads', hholds, hover, hret⟩ :=
    writeFromFd_tail h hfd hreads
  unfold doOutput
  rw [hwrite]
  rcases hret with ⟨rfl, rfl⟩ | ⟨k, rfl, hk⟩
  · simp only [if_true]
    refine ⟨[], p, by simpa using hstream, .inl rfl, hopen, hreads', ?_, .none rfl rfl, fun hneg => ?_⟩
    · rwa [List.append_nil, rtake_of_length_le (by rw [List.rtake, List.length_drop]; omega)] at hholds
    · omega
  · rw [rtake_append_right] at hholds
    obtain ⟨done, q, hu, hdone, hq, hholds', hrc⟩ := flushLines_recorded e th (cb'.used.toNat + 1) th.rc
      hholds (by rw [hholds.used]; omega)
    have hsplit : p ++ streamOf reads = p ++ bs ++ streamOf reads' := by
      rw [hstream, List.append_assoc]
    -- what the buffer has dropped is a part of the open line
    obtain ⟨x, hx⟩ : ∃ x, x ++ (p ++ bs).rtake 131072 = p ++ bs := List.drop_suffix _ _
    have hdropped : x = [] ∨ x.length ≤ p.length ∧ x.length + 130072 ≤ p.length := by
      by_cases hnil : x = []
      · exact .inl hnil
      · right
        have hpos := List.length_pos_iff.mpr hnil
        have hlen := congrArg List.length hx
        rw [List.length_append, List.length_append, length_rtake, List.length_append] at hlen
        rw [List.length_append, length_rtake] at hover
        have hcount : ∀ a b c : Nat, 0 < a → a + min 131072 (b + c) = b + c →
            (131072 < min 131072 b + c → min 131072 b = 131072 ∧ c ≤ 1000) →
            a ≤ b ∧ a + 130072 ≤ b := by
          intro a b c ha hsum hchunk
          omega
        exact hcount _ _ _ hpos hlen hover
    have hxp : x <+: p := by
      rcases hdropped with rfl | ⟨hle, -⟩
      · exact List.nil_prefix
      · exact List.prefix_of_prefix_length_le ⟨_, hx⟩ (List.prefix_append _ _) hle
    have hxopen : '\n' ∉ x := fun hc => hopen (hxp.subset hc)
    rw [hu] at hx
    have hret : ((k : Int) ≤ 0 → reads' = []) := fun hneg => hk (by omega)
    rcases hrc with ⟨rfl, hrc⟩ | ⟨pre, body, rfl, hpre, hbody, hrc⟩
    · rw [List.nil_append] at hx hu
      refine ⟨[], p ++ bs, hsplit, .inl rfl, ?_, hreads', ?_, .none rfl hrc, hret⟩
      · rw [← hx, List.mem_append]
        exact not_or.mpr ⟨hxopen, hq⟩
      · rw [hu]
        exact hholds'
    · have hq' : q.rtake 131072 = q := by
        refine rtake_of_length_le ?_
        have hlen := congrArg List.length hu
        simp only [length_rtake, List.length_append] at hlen
        omega
      refine ⟨x ++ (pre ++ body ++ ['\n']), q, ?_, ?_, hq, hreads', hq'.symm ▸ hholds', ?_, hret⟩
      · rw [hsplit, ← hx]
        simp only [List.append_assoc]
      · right
        rw [← List.append_assoc, List.getLast?_concat]
      · by_cases hfirst : pre = []
        · -- the first line goes on behind the dropped bytes
          subst hfirst
          refine .line [] (x ++ body) body (by simp) (.inl rfl) ?_ (List.suffix_append _ _) ?_ hrc
          · rw [List.mem_append]
            exact not_or.mpr ⟨hxopen, hbody⟩
          · rcases hdropped with rfl | ⟨-, hlong⟩
            · exact .inl rfl
            · right
              have hline : x ++ body ++ ['\n'] <+: p ++ bs := ⟨q, by rw [← hx]; simp⟩
              have hpline : p <+: x ++ body := by
                rcases List.prefix_or_prefix_of_prefix (List.prefix_append p bs) hline with hp | hp
                · rcases List.prefix_concat_iff.mp hp with rfl | hp
                  · exact absurd (by simp) hopen
                  · exact hp
                · exact absurd (hp.subset (by simp)) hopen
              have hlen := hpline.length_le
              rw [List.length_append] at hlen
              omega
        · refine .line (x ++ pre) body body (by simp) ?_ hbody List.suffix_rfl (.inl rfl) hrc
          right
          rw [List.getLast?_append, hpre.resolve_left hfirst]
          rfl

/-! ## Runs -/

/-- How far standard output of a host has come: the lines `done` have gone through `_flush_lines`,
and of the open line `p` the buffer holds as much as it can. -/
structure RcProgress (rc₀ : Int) (whole : List Char) (stream : Stream) (rc : Int) : Prop where
  seen : ∃ done p, whole = done ++ p ++ streamOf stream.reads ∧ Ended '\n' done ∧ '\n' ∉ p ∧
    Recorded rc₀ done rc ∧ (stream.flushed = false → Holds stream.cb (p.rtake 131072))
  fd : 0 ≤ stream.fd
  reads : ReadsOk stream.reads
  closed : stream.closed → stream.reads = []

/-- A read goes on where the last one stopped. -/
theorem RcProgress.output {e : ErrState} {th : ThdOut} {stream : Stream}
    (h : RcProgress rc₀ whole stream th.rc) (hunflushed : stream.flushed = false) :
    let o := doOutput e true th stream.fd stream.cb stream.reads
    RcProgress rc₀ whole { stream with cb := o.cb, reads := o.reads, closed := o.ret ≤ 0 } o.rc := by
  intro o
  obtain ⟨done, p, hwhole, hdone, hopen, hrecorded, hholds⟩ := h.seen
  obtain ⟨done', p', hsplit, hdone', hopen', hreads', hholds', hrecorded', hret⟩ :=
    doOutput_recorded e th (hholds hunflushed) hopen h.fd h.reads
  refine ⟨⟨done ++ done', p', ?_, ended_append hdone hdone', hopen', hrecorded.trans hdone hrecorded',
    fun _ => hholds'⟩, h.fd, hreads', fun hc => hret (of_decide_eq_true hc)⟩
  rw [hwhole, List.append_assoc, hsplit]
  simp only [List.append_assoc]
  rfl

/-- A step of any host and of either stream. -/
theorem RcProgress.step {e : ErrState} {s s' : OutputState} {event : OutputEvent} {i : Nat} {th : ThdOut}
    (hi : s.t[i]? = some th) (h : RcProgress rc₀ whole (s.streams i .stdout) th.rc)
    (hstep : outputStep e s event = some s') :
    ∃ th', s'.t[i]? = some th' ∧ RcProgress rc₀ whole (s'.streams i .stdout) th'.rc := by
  cases event with
  | output j w =>
      unfold outputStep at hstep
      simp only at hstep
      split at hstep
      · cases hstep
      · rename_i thj hj
        split at hstep
        · cases hstep
        · rename_i hopen
          cases hstep
          by_cases hij : i = j
          · subst hij
            obtain rfl : thj = th := Option.some.inj (hj.symm.trans hi)
            refine ⟨_, List.getElem?_set_self (List.getElem?_eq_some_iff.mp hi).1, ?_⟩
            cases w with
            | stdout =>
                show RcProgress _ _ (if i = i ∧ Which.stdout = Which.stdout then _ else _) _
                rw [if_pos ⟨rfl, rfl⟩]
                exact h.output (by simpa using fun hf => hopen (.inr hf))
            | stderr =>
                -- the other stream is not looked through for a return code
                show RcProgress _ _ (if i = i ∧ Which.stdout = Which.stderr then _ else _) _
                rw [if_neg (by simp)]
                show RcProgress _ _ _ (doOutput e false thj _ _ _).rc
                rw [doOutput_stderr]
                exact h
          · refine ⟨th, (List.getElem?_set_ne (Ne.symm hij)).trans hi, ?_⟩
            show RcProgress _ _ (if i = j ∧ Which.stdout = w then _ else _) _
            rw [if_neg fun hc => hij hc.1]
            exact h
  | flush j w =>
      unfold outputStep at hstep
      simp only at hstep
      split at hstep
      · split at hstep
        · cases hstep
        · cases hstep
          refine ⟨th, hi, ?_⟩
          show RcProgress _ _ (if i = j ∧ Which.stdout = w then _ else _) _
          split
          · rename_i hsame
            obtain ⟨rfl, rfl⟩ := hsame
            obtain ⟨done, p, hwhole, hdone, hopen, hrecorded, -⟩ := h.seen
            exact ⟨⟨done, p, hwhole, hdone, hopen, hrecorded, nofun⟩, h.fd, h.reads, h.closed⟩
          · exact h
      · cases hstep

/-- Nothing has been read yet. -/
theorem RcProgress.start {s : OutputState} (h : s.Start) {i : Nat} (hi : i < s.t.length) :
    RcProgress rc₀ (streamOf (s.streams i .stdout).reads) (s.streams i .stdout) rc₀ := by
  obtain ⟨ndebug, mallocs, heap, hcreate⟩ := h.created i .stdout hi
  exact ⟨⟨[], [], rfl, .inl rfl, by simp, .none rfl rfl, fun _ => Holds.create hcreate⟩,
    h.fd i .stdout hi, h.reads i .stdout hi, by simp [h.closed i .stdout hi]⟩

/-- Behind every run. -/
theorem run_recorded {e : ErrState} {s s' : OutputState} (hstart : s.Start)
    (run : Steps (outputStep e) anyStep s s') {i : Nat} {th : ThdOut} (hi : s.t[i]? = some th) :
    ∃ th', s'.t[i]? = some th' ∧
      RcProgress th.rc (streamOf (s.streams i .stdout).reads) (s'.streams i .stdout) th'.rc := by
  refine run.invariant (I := fun s' => ∃ th', s'.t[i]? = some th' ∧
    RcProgress th.rc (streamOf (s.streams i .stdout).reads) (s'.streams i .stdout) th'.rc) ?_ ?_
  · exact ⟨th, hi, RcProgress.start hstart (List.getElem?_eq_some_iff.mp hi).1⟩
  · rintro _ _ _ ⟨th', hth', hprogress⟩ - hstep
    exact hprogress.step hth' hstep

/-! ## What is recorded at the end -/

/-- A line that begins inside the text. -/
theorem NoOverlap.suffix (h : NoOverlap text) {text' : CStr} (hsuffix : text' <:+ text) :
    NoOverlap text' := by
  obtain ⟨x, rfl⟩ := hsuffix
  intro j hj hp
  refine h (x.length + j) (by rw [List.length_append]; omega) ?_
  rwa [← List.drop_drop, List.append_assoc, List.drop_left]

theorem value_eq_zero_iff (ht : ∀ c ∈ t, c.isDigit) : value t = 0 ↔ ∀ c ∈ t, c = '0' := by
  have hzeros : value (List.replicate t.length '0') = 0 := by
    have hpad := value_pad (t.length + 1) 0
    rw [pad, value_append] at hpad
    have hvalue : 10 ^ (Nat.toDigits 10 0).length * value (List.replicate t.length '0') = 0 :=
      (Nat.add_eq_zero_iff.mp hpad).1
    exact (Nat.mul_eq_zero.mp hvalue).resolve_left (by positivity)
  constructor
  · intro hv c hc
    have hsame : t = List.replicate t.length '0' := by
      refine eq_of_value_eq ht ?_ (by simp) (hv.trans hzeros.symm)
      intro x hx
      rw [List.eq_of_mem_replicate hx]
      rfl
    rw [hsame] at hc
    exact List.eq_of_mem_replicate hc
  · intro h
    rw [List.eq_replicate_iff.mpr ⟨rfl, h⟩]
    exact hzeros

/-- The marker line gives 0 when the return code is 0, and where the first digit is skipped when the
others are zeros. -/
theorem extractRc_marker_zero_iff (h : NoOverlap text) (hr : r < 2 ^ 31) :
    (extractRc (markerLine text r)).1 = 0 ↔
      r = 0 ∨ text ≠ [] ∧ ∀ c ∈ (Nat.toDigits 10 r).tail, c = '0' := by
  by_cases hne : text = []
  · rw [hne, extractRc_alone hr]
    simp
  · have hd : ∀ c ∈ (Nat.toDigits 10 r).tail, c.isDigit :=
      fun c hc => isDigit_toDigits (List.mem_of_mem_tail hc)
    have hv : value (Nat.toDigits 10 r).tail < 2 ^ 31 := by
      rcases Nat.eq_zero_or_pos r with rfl | hpos
      · decide
      · exact (value_tail_lt hpos).trans hr
    rw [extractRc_behind h hne, atoi_digits hd hv, Int.natCast_eq_zero, value_eq_zero_iff hd]
    constructor
    · intro hzeros
      exact .inr ⟨hne, hzeros⟩
    · rintro (rfl | ⟨-, hzeros⟩)
      · simp
      · exact hzeros

/-- Of the marker line, however long the text in front of the marker is. -/
theorem extractRc_marker_cut (h : NoOverlap text) (hnul : '\x00' ∉ text) {cut : List Char}
    (hcut : cut <:+ text ++ RC_MAGIC ++ Nat.toDigits 10 r)
    (hlong : cut = text ++ RC_MAGIC ++ Nat.toDigits 10 r ∨ 100 ≤ cut.length) (hr : r < 2 ^ 31) :
    (extractRc (stringIn (cut ++ ['\n']))).1 = (extractRc (markerLine text r)).1 := by
  have hdigits : (Nat.toDigits 10 r).length ≤ 10 := (numDigits_le_iff (by decide)).mpr (by omega)
  have hmagic : RC_MAGIC.length = 10 := rfl
  obtain ⟨text', htext', rfl, hnil⟩ : ∃ text', text' <:+ text ∧ cut = text' ++ RC_MAGIC ++ Nat.toDigits 10 r ∧
      (text' = [] ↔ text = []) := by
    rcases hlong with rfl | hlong
    · exact ⟨text, List.suffix_rfl, rfl, Iff.rfl⟩
    · rw [List.append_assoc] at hcut
      obtain ⟨text', rfl⟩ : RC_MAGIC ++ Nat.toDigits 10 r <:+ cut :=
        List.suffix_of_suffix_length_le (List.suffix_append _ _) hcut
          (by rw [List.length_append]; omega)
      have hsuffix : text' <:+ text := by
        obtain ⟨x, hx⟩ := hcut
        rw [← List.append_assoc] at hx
        exact ⟨x, List.append_cancel_right hx⟩
      have hne : text' ≠ [] := by
        rintro rfl
        rw [List.nil_append, List.length_append] at hlong
        omega
      refine ⟨text', hsuffix, (List.append_assoc ..).symm, fun hc => absurd hc hne, ?_⟩
      rintro rfl
      exact absurd (List.suffix_nil.mp hsuffix) hne
  have hstring : stringIn (text' ++ RC_MAGIC ++ Nat.toDigits 10 r ++ ['\n']) = markerLine text' r := by
    refine stringIn_eq ?_
    simp only [List.mem_append, not_or]
    refine ⟨⟨⟨fun hc => hnul (htext'.subset hc), by decide⟩, fun hc => ?_⟩, by decide⟩
    exact absurd (isDigit_toDigits hc) (by decide)
  rw [hstring]
  by_cases hne : text = []
  · rw [hne, hnil.mpr hne]
  · rw [extractRc_behind h hne, extractRc_behind (h.suffix htext') fun hc => hne (hnil.mp hc)]

/-- Where the marker line is the last one, it decides. -/
theorem Recorded.marker {before : CStr} (h : Recorded rc₀ (before ++ markerLine text r) rc)
    (hbefore : Ended '\n' before) (hoverlap : NoOverlap text) (hline : '\n' ∉ text) (hnul : '\x00' ∉ text)
    (hr : r < 2 ^ 31) : rc = (extractRc (markerLine text r)).1 := by
  have hopen : '\n' ∉ text ++ RC_MAGIC ++ Nat.toDigits 10 r := by
    simp only [List.mem_append, not_or]
    exact ⟨⟨hline, by decide⟩, fun hc => absurd (isDigit_toDigits hc) (by decide)⟩
  cases h with
  | none hnil _ => simp [markerLine] at hnil
  | line pre body cut hbodies hpre hbody hcut hlong hrc =>
      rw [markerLine, ← List.append_assoc] at hbodies
      have hsame := List.append_cancel_right hbodies
      obtain ⟨-, rfl⟩ := ended_unique hbefore hpre hopen hbody hsame
      rw [hrc]
      exact extractRc_marker_cut hoverlap hnul hcut hlong hr

/-- However the output is cut into reads, once it was read to its end the host has the return code of
the marker line exactly when no line was completed behind it, or that code is 0. -/
theorem recorded_rc_iff (e : ErrState) {s s' : OutputState} (hstart : s.Start)
    (run : Steps (outputStep e) anyStep s s') {i : Nat} {th : ThdOut} (hi : s'.t[i]? = some th)
    (hin : i < s.t.length) (hclosed : (s'.streams i .stdout).closed) {before after : CStr}
    (hwhole : streamOf (s.streams i .stdout).reads = before ++ markerLine text r ++ after)
    (hbefore : Ended '\n' before) (hafter : ¬ RC_MAGIC <:+: after) (hoverlap : NoOverlap text)
    (hline : '\n' ∉ text) (hnul : '\x00' ∉ text) (hr : r < 2 ^ 31) :
    th.rc = (extractRc (markerLine text r)).1 ↔
      '\n' ∉ after ∨ r = 0 ∨ text ≠ [] ∧ ∀ c ∈ (Nat.toDigits 10 r).tail, c = '0' := by
  obtain ⟨th', hth', hprogress⟩ := run_recorded hstart run (List.getElem?_eq_getElem hin)
  obtain rfl : th' = th := Option.some.inj (hth'.symm.trans hi)
  obtain ⟨done, p, hsplit, hdone, hp, hrecorded, -⟩ := hprogress.seen
  rw [hprogress.closed hclosed, streamOf, List.append_nil] at hsplit
  have hmark : Ended '\n' (before ++ markerLine text r) := ended_append hbefore (ended_line _)
  obtain ⟨after₁, after₂, rfl, hended, hopen⟩ := exists_ended '\n' after
  obtain ⟨hlast, -⟩ := ended_unique hdone (ended_append hmark hended) hp hopen
    (by rw [← hsplit, hwhole, List.append_assoc _ after₁])
  by_cases hnone : after₁ = []
  · subst hnone
    rw [hlast, List.append_nil] at hrecorded
    simp only [List.nil_append, hopen, not_false_eq_true, true_or, iff_true]
    exact hrecorded.marker hbefore hoverlap hline hnul hr
  · -- a line of what follows is the last one
    cases hrecorded with
    | none hnil _ =>
        rw [hlast] at hnil
        simp [markerLine] at hnil
    | line pre body cut hbodies hpre hbodyopen hcut hlong hrc =>
        rw [hlast] at hbodies
        have hmem : '\n' ∈ after₁ ++ after₂ :=
          List.mem_append_left _ (List.mem_of_getLast? (hended.resolve_left hnone))
        obtain ⟨mid, hmid⟩ : ∃ mid, after₁ = mid ++ ['\n'] :=
          ⟨_, (List.dropLast_append_getLast? _ (hended.resolve_left hnone)).symm⟩
        obtain ⟨lines, last, rfl, hlines, hlastopen⟩ := exists_ended '\n' mid
        -- it has no marker, so it records 0
        have hsame : before ++ markerLine text r ++ lines ++ last = pre ++ body := by
          have hline : before ++ markerLine text r ++ lines ++ last ++ ['\n'] = pre ++ body ++ ['\n'] := by
            rw [← hbodies, hmid]
            simp only [List.append_assoc]
          exact List.append_cancel_right hline
        obtain ⟨-, rfl⟩ := ended_unique (ended_append hmark hlines) hpre hlastopen hbodyopen hsame
        have hinfix : stringIn (cut ++ ['\n']) <:+: after₁ ++ after₂ := by
          obtain ⟨x, rfl⟩ := hcut
          refine (List.takeWhile_prefix _).isInfix.trans ⟨lines ++ x, after₂, ?_⟩
          rw [hmid]
          simp only [List.append_assoc]
        have hzero : th'.rc = 0 := by
          rw [hrc, extractRc_eq fun hc => hafter (hc.trans hinfix)]
        rw [hzero, eq_comm, extractRc_marker_zero_iff hoverlap hr]
        simp [hmem]

/-- One host whose standard output comes in the reads given. -/
def oneHost (cb : Cbuf) (reads : List Cbuf.FdRead) : OutputState where
  t := [⟨"a".toList, true, 0⟩]
  streams := fun _ _ => ⟨cb, 3, reads, false, false⟩
  log := []

theorem oneHost_start {cb : Cbuf} (h : Cbuf.create true true (fun _ => '\x00') 64 131072 = .ok cb)
    {reads : List Cbuf.FdRead} (hreads : ReadsOk reads) : (oneHost cb reads).Start :=
  ⟨fun _ _ _ => ⟨_, _, _, h⟩, fun _ _ _ => show (0 : Int) ≤ 3 by decide, fun _ _ _ => hreads,
    fun _ _ _ => rfl, fun _ _ _ => rfl, rfl⟩

theorem readsOk_bytes {pieces : List (List Char)} (h : [] ∉ pieces) :
    ReadsOk (pieces.map Cbuf.FdRead.bytes) := by
  intro event hevent
  obtain ⟨bs, hbs, rfl⟩ := List.mem_map.mp hevent
  exact .inr (.inr ⟨bs, fun hnil => h (hnil ▸ hbs), rfl⟩)

/-- A marker in two reads, with an open line behind it. -/
theorem recorded_rc_last : ∃ (e : ErrState) (s s' : OutputState) (th : ThdOut), s.Start ∧
    (s.streams 0 .stdout).reads = [.bytes "XXRET".toList, .bytes "CODE:5\nx".toList] ∧
    Steps (outputStep e) anyStep s s' ∧ (s'.streams 0 .stdout).closed = true ∧
    s'.t[0]? = some th ∧ th.rc = 5 := by
  let e : ErrState := ⟨[], [], false, []⟩
  obtain ⟨cb, hcreate⟩ : ∃ cb, Cbuf.create true true (fun _ => '\x00') 64 131072 = .ok cb := ⟨_, rfl⟩
  let s := oneHost cb (["XXRET".toList, "CODE:5\nx".toList].map .bytes)
  have hruns : ((replay (outputStep e) s [.output 0 .stdout, .output 0 .stdout, .output 0 .stdout]).map
      fun s' => ((s'.streams 0 .stdout).closed, s'.t.length)) = some (true, 1) := by
    cases hcreate
    decide +kernel
  obtain ⟨s', hreplay, hends⟩ := Option.map_eq_some_iff.mp hruns
  obtain ⟨hclosed, hlength⟩ := Prod.mk.injEq .. |>.mp hends
  obtain ⟨th, hth⟩ : ∃ th, s'.t[0]? = some th := ⟨_, List.getElem?_eq_getElem (hlength ▸ Nat.one_pos)⟩
  have hstart : s.Start := oneHost_start hcreate (readsOk_bytes (by decide))
  have run : Steps (outputStep e) anyStep s s' := Steps.of_replay (fun _ _ _ h => ⟨trivial, h⟩) hreplay
  refine ⟨e, s, s', th, hstart, rfl, run, hclosed, hth, ?_⟩
  have hall := @recorded_rc_iff [] 5 e s s' hstart run 0 th hth Nat.one_pos hclosed [] ['x'] rfl (.inl rfl)
    (by decide) (by decide) (by decide) (by decide) (by decide)
  exact hall.mpr (.inl (by decide))

/-- A line behind the marker. -/
theorem return_code_reset : ∃ (e : ErrState) (s s' : OutputState) (th : ThdOut), s.Start ∧
    Steps (outputStep e) anyStep s s' ∧ (s'.streams 0 .stdout).closed = true ∧
    streamOf (s.streams 0 .stdout).reads = markerLine [] 5 ++ "x\n".toList ∧
    s'.t[0]? = some th ∧ (extractRc (markerLine [] 5)).1 = 5 ∧ th.rc = 0 := by
  let e : ErrState := ⟨[], [], false, []⟩
  obtain ⟨cb, hcreate⟩ : ∃ cb, Cbuf.create true true (fun _ => '\x00') 64 131072 = .ok cb := ⟨_, rfl⟩
  let s := oneHost cb (["XXRETCODE:5\n".toList, "x\n".toList].map .bytes)
  have hruns : ((replay (outputStep e) s [.output 0 .stdout, .output 0 .stdout, .output 0 .stdout]).map
      fun s' => ((s'.streams 0 .stdout).closed, s'.t[0]?.map ThdOut.rc)) = some (true, some 0) := by
    cases hcreate
    decide +kernel
  obtain ⟨s', hreplay, hends⟩ := Option.map_eq_some_iff.mp hruns
  obtain ⟨hclosed, hrc⟩ := Prod.mk.injEq .. |>.mp hends
  obtain ⟨th, hth, hzero⟩ := Option.map_eq_some_iff.mp hrc
  exact ⟨e, s, s', th, oneHost_start hcreate (readsOk_bytes (by decide)),
    Steps.of_replay (fun _ _ _ h => ⟨trivial, h⟩) hreplay, hclosed, rfl, hth, by decide, hzero⟩

end Pdsh.Dsh
