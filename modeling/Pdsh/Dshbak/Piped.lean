import Pdsh.Dsh.Complete
import Pdsh.Dshbak.Lossless
import Pdsh.Dshbak.ProcessLines

/-!
# `pdsh` piped into `dshbak`

What the workers print on standard output is mixed in any order, but never within a line: where
every output ends in a newline, each print is a line with the label of its host (`LineOk`).
`dshbak` takes the labels off again, so the lines it keeps for a host are the lines of the output of
that host, in their order (`piped_output_regrouped`).
-/

namespace Pdsh.Dsh

open Lib Lib.Lines Lib.Transition Dshbak

variable {fanout : Int32} {e : ErrState} {sopt : Bool} {rv : Nat → Int} {s₀ s s' : Job}
  {out₀ out out' : OutputState} {k : Nat} {w : Which} {th : Thd} {o : ThdOut} {cb : Cbuf} {u : List Char}

/-! ## Prints are lines -/

/-- What is in front of the colon of a label. -/
def tagOf (e : ErrState) (o : ThdOut) : CStr := hostText e.keep_host_domain o.host

/-- A host whose label is a tag for `dshbak`. -/
structure Tagged (e : ErrState) (o : ThdOut) : Prop where
  labels : o.labels = true
  ne_nil : tagOf e o ≠ []
  plain : ∀ c ∈ tagOf e o, isspace c = false ∧ c ≠ ':'

theorem Tagged.of_letter {o : ThdOut} {c : Char} (htag : tagOf e o = [c]) (hlabels : o.labels = true)
    (hc : isspace c = false ∧ c ≠ ':') : Tagged e o := by
  refine ⟨hlabels, ?_, ?_⟩
  · rw [htag]
    exact List.cons_ne_nil _ _
  · intro x hx
    rw [htag, List.mem_singleton] at hx
    rw [hx]
    exact hc

/-- The tagged line of a host. -/
def Tagged.line (h : Tagged e o) (text : CStr) (htext : '\n' ∉ text) : TaggedLine where
  tag := tagOf e o
  text := text
  tag_ne_nil := h.ne_nil
  tag_plain := h.plain
  text_plain := htext

theorem Tagged.label (h : Tagged e o) : o.label e = tagOf e o ++ ": ".toList := if_pos h.labels

/-- A print on standard output of the host with the tag: nothing, or one line. -/
def LinePrint (tag : CStr) (p : Print) : Prop :=
  ∃ text, p = .outf text ∧ (text = [] ∨ ∃ l : TaggedLine, l.tag = tag ∧ text = l.line ++ ['\n'])

/-- `_flush_lines` prints line by line. -/
theorem flushLines_prints (h : Tagged e o) (read_rc : Bool) (fuel : Nat) (rc : Int) (hholds : Holds cb u)
    (hnul : '\x00' ∉ u) (hmagic : read_rc → ¬ RC_MAGIC <:+: u) (hfuel : u.length < fuel) :
    ∀ p ∈ (flushLines e read_rc o fuel cb rc).prints, LinePrint (tagOf e o) p := by
  induction fuel generalizing cb u rc with
  | zero => omega
  | succ fuel ih =>
      by_cases hmem : '\n' ∈ u
      · obtain ⟨hline, hcut⟩ := cut_line hmem
        obtain ⟨cb', hrest, heq⟩ := flushLines_line e read_rc o fuel rc hholds hmem
        have hpos : 0 < Cbuf.firstLine u := by
          rw [Cbuf.firstLine, if_pos hmem]
          omega
        have hbuf : (lineResult read_rc rc (u.take (Cbuf.firstLine u))).2 = u.take (Cbuf.firstLine u) := by
          unfold lineResult
          rw [stringIn_eq fun hc => hnul (List.mem_of_mem_take hc)]
          split
          · rename_i hrc
            rw [extractRc_eq fun hin => hmagic hrc (hin.trans (List.take_prefix ..).isInfix)]
          · rfl
        rw [heq]
        intro p hp
        rcases List.mem_append.mp hp with hfirst | hlater
        · rw [hbuf, hcut, if_pos (by simp), if_pos h.labels, List.mem_singleton] at hfirst
          refine ⟨_, hfirst, .inr ⟨h.line _ hline, rfl, ?_⟩⟩
          simp [verr, verrConversion, Tagged.line, TaggedLine.line, tagOf]
        · have hlen := List.length_pos_of_mem hmem
          exact ih _ hrest (fun hc => hnul (List.mem_of_mem_drop hc))
            (fun hrc hin => hmagic hrc (hin.trans (List.drop_suffix ..).isInfix))
            (by rw [List.length_drop]; omega) p hlater
      · rw [flushLines_open e read_rc o fuel rc hholds hmem]
        intro p hp
        cases hp

theorem doOutput_prints (h : Tagged e o) (read_rc : Bool) (hholds : Holds cb u) {fd : Int} (hfd : 0 ≤ fd)
    {reads : List Cbuf.FdRead} (hreads : ReadsOk reads) (hfull : u.length = 131072 → streamOf reads = [])
    (hnul : '\x00' ∉ u ++ streamOf reads) (hmagic : read_rc → ¬ RC_MAGIC <:+: u ++ streamOf reads) :
    ∀ p ∈ (doOutput e read_rc o fd cb reads).prints, LinePrint (tagOf e o) p := by
  obtain ⟨bs, ret, reads', cb', dropped, hwrite, hstream, -, hholds', hret⟩ :=
    writeFromFd_spec hholds hfd hreads hfull
  unfold doOutput
  rw [hwrite]
  rcases hret with ⟨rfl, rfl⟩ | ⟨k, rfl, hk⟩
  · intro p hp
    cases hp
  · have hpre : u ++ bs <+: u ++ streamOf reads := ⟨streamOf reads', by rw [hstream, List.append_assoc]⟩
    exact flushLines_prints h read_rc _ o.rc hholds' (fun hc => hnul (hpre.subset hc))
      (fun hrc hin => hmagic hrc (hin.trans hpre.isInfix)) (by rw [hholds'.used]; omega)

/-- With nothing in the buffer a flush prints nothing. -/
theorem flushOutput_nil (e : ErrState) (first o : ThdOut) (h : Holds cb []) : (flushOutput e first o cb).1 = [] := by
  have hused := h.used
  have hlines : flushLines e false first (cb.used.toNat + 1) cb first.rc = ⟨[], cb, first.rc⟩ :=
    flushLines_open e false first _ first.rc h (by simp)
  unfold flushOutput
  rw [hlines]
  obtain ⟨cb', hread, -⟩ := h.read (n := 8191) (by decide)
  simp only [List.nil_append, flushRest]
  rw [hread]
  rfl

/-- A read of standard output prints lines. -/
theorem StreamProgress.prints {label whole printed : CStr} {stream : Stream} (hplain : Plain .stdout whole)
    (h : StreamProgress label whole stream printed) (hunflushed : stream.flushed = false) (htag : Tagged e o) :
    ∀ p ∈ (doOutput e true o stream.fd stream.cb stream.reads).prints, LinePrint (tagOf e o) p := by
  cases h with
  | reading done p hwhole hdone hopen hholds hfd hreads hprinted hclosed hflushed =>
      have hpart : p ++ streamOf stream.reads <:+ whole := ⟨done, by rw [hwhole, List.append_assoc]⟩
      exact doOutput_prints htag true hholds hfd hreads
        (fun hfull => by rw [hplain.lines.full hwhole hopen hfull])
        (fun hc => hplain.nul (hpart.subset hc)) (fun _ hin => hplain.magic rfl (hin.trans hpart.isInfix))
  | flushed shown hwhole hprinted hclosed hflushed =>
      rw [hunflushed] at hflushed
      cases hflushed

/-- Behind the end of an output that ends in a newline a flush prints nothing. -/
theorem StreamProgress.flush_nil {label whole printed : CStr} {stream : Stream} (hended : Ended '\n' whole)
    (h : StreamProgress label whole stream printed) (hunflushed : stream.flushed = false)
    (hclosed : stream.closed = true) (first : ThdOut) : (flushOutput e first o stream.cb).1 = [] := by
  cases h with
  | reading done p hwhole hdone hopen hholds hfd hreads hprinted hempty hflushed =>
      rw [hempty hclosed, streamOf, List.append_nil] at hwhole
      obtain ⟨-, rfl⟩ := ended_unique hdone hended hopen (List.not_mem_nil (a := '\n'))
        (by rw [List.append_nil, hwhole])
      exact flushOutput_nil e first o hholds
  | flushed shown hwhole hprinted hempty hflushed =>
      rw [hunflushed] at hflushed
      cases hflushed

theorem outputStep_output_log (hstep : outputStep e out (.output k w) = some out') :
    ∃ o, out.t[k]? = some o ∧ (out.streams k w).flushed = false ∧
      out'.t = out.t.set k { o with rc := (doOutput e (w = .stdout) o (out.streams k w).fd (out.streams k w).cb
        (out.streams k w).reads).rc } ∧
      out'.log = out.log ++ (doOutput e (w = .stdout) o (out.streams k w).fd (out.streams k w).cb
        (out.streams k w).reads).prints.map ((k, w), ·) := by
  unfold outputStep at hstep
  simp only at hstep
  split at hstep
  · cases hstep
  · rename_i o ho
    split at hstep
    · cases hstep
    · rename_i hopen
      cases hstep
      exact ⟨o, ho, by simpa using fun hf => hopen (.inr hf), rfl, rfl⟩

theorem outputStep_flush_log (hstep : outputStep e out (.flush k w) = some out') :
    ∃ o first, out.t[k]? = some o ∧ (out.streams k w).flushed = false ∧
      out'.log = out.log ++ (flushOutput e first o (out.streams k w).cb).1.map ((k, w), ·) := by
  unfold outputStep at hstep
  simp only at hstep
  split at hstep
  · rename_i o first ho hfirst
    split at hstep
    · cases hstep
    · rename_i hunflushed
      cases hstep
      exact ⟨o, first, ho, by simpa using hunflushed, rfl⟩
  · cases hstep

/-! ## Runs without failures -/

/-- The step does not fail and does not cancel. -/
def Smooth (_ : Job) : JobAction → Prop
  | .threads .cancelLock => False
  | .threads (.worker _ (.connect false)) => False
  | .threads (.worker _ (.work false)) => False
  | _ => True

theorem Smooth.cancelsIf {b : JobAction} (h : Smooth s b) : CancelsIf false s b := by
  intro hb
  subst hb
  exact h.elim

/-- The worker comes to its end as `DSH_DONE`. -/
structure EndsDone (th : Thd) : Prop where
  result : ∀ r, th.pc = .result r → r = .done
  ended : th.pc = .finishing ∨ th.pc = .exited → th.state = .done

theorem EndsDone.of_early {th' : Thd} (hresult : ∀ r, th'.pc ≠ .result r) (hfinishing : th'.pc ≠ .finishing)
    (hexited : th'.pc ≠ .exited) : EndsDone th' where
  result := fun r hr => absurd hr (hresult r)
  ended := fun hpc => (hpc.elim hfinishing hexited).elim

theorem EndsDone.entry (h : EndsDone th) {a : Action} (hok : Smooth s (.threads a))
    (hcancel : s.threads.cancel = none) {th' : Thd} (hentry : EntryStep s.threads a k th th') : EndsDone th' := by
  cases hentry with
  | same => exact h
  | start hpc => exact .of_early (by simp) (by simp) (by simp)
  | finish ha hpc => exact ⟨fun r hr => (by cases hr), fun _ => h.ended (.inl hpc)⟩
  | mark hmarking => exact absurd hcancel hmarking
  | worker c ha hw =>
      subst ha
      cases c with
      | status =>
          simp only [workerStep] at hw
          split at hw
          · rename_i r hpc
            cases hw
            exact ⟨fun r hr => (by cases hr), fun _ => h.result r hpc⟩
          · cases hw
      | decide =>
          obtain ⟨hpc, hw⟩ := Option.ite_none_right_eq_some.mp hw
          cases hw
          by_cases hcanceled : th.state = .canceled
          · simp only [if_pos hcanceled]
            refine ⟨fun r hr => ?_, fun hend => (by simp at hend)⟩
            cases hr
            rfl
          · simp only [if_neg hcanceled]
            exact .of_early (by simp) (by simp) (by simp)
      | connect fd =>
          obtain ⟨hpc, hw⟩ := Option.ite_none_right_eq_some.mp hw
          cases fd with
          | false => exact hok.elim
          | true =>
              cases hw
              exact .of_early (by simp) (by simp) (by simp)
      | work result =>
          obtain ⟨hpc, hw⟩ := Option.ite_none_right_eq_some.mp hw
          cases result with
          | false => exact hok.elim
          | true =>
              cases hw
              refine ⟨fun r hr => ?_, fun hend => (by simp at hend)⟩
              cases hr
              rfl
      | rcmd | update =>
          obtain ⟨hpc, hw⟩ := Option.ite_none_right_eq_some.mp hw
          cases hw
          exact .of_early (by simp) (by simp) (by simp)

/-- An entry of the log belongs to a host, and on standard output it is a line of that host. -/
def LineOk (e : ErrState) (out₀ : OutputState) (q : (Nat × Which) × Print) : Prop :=
  ∃ o : ThdOut, out₀.t[q.1.1]? = some o ∧ (q.1.2 = .stdout → LinePrint (tagOf e o) q.2)

/-- What holds in every run that does not fail. -/
structure PipedInv (e : ErrState) (sopt : Bool) (out₀ : OutputState) (s : Job) : Prop where
  job : JobInv sopt false out₀ s
  progress : AllProgress e out₀ s.out
  hosts : ∀ (k : Nat) (o : ThdOut), out₀.t[k]? = some o → ∃ rc, s.out.t[k]? = some { o with rc := rc }
  done : ∀ (k : Nat) (th : Thd), s.threads.t[k]? = some th → EndsDone th
  log : ∀ q ∈ s.out.log, LineOk e out₀ q

/-- The part of the log that a step adds. -/
theorem lineOk_append (hlog : ∀ q ∈ out.log, LineOk e out₀ q) (ho : out₀.t[k]? = some o) {prints : List Print}
    (hprints : w = .stdout → ∀ p ∈ prints, LinePrint (tagOf e o) p) :
    ∀ q ∈ out.log ++ prints.map ((k, w), ·), LineOk e out₀ q := by
  intro q hq
  rcases List.mem_append.mp hq with hold | hnew
  · exact hlog q hold
  · obtain ⟨p, hp, rfl⟩ := List.mem_map.mp hnew
    exact ⟨o, ho, fun hw => hprints hw p hp⟩

/-- The host behind an entry of the table. -/
theorem PipedInv.entry (h : PipedInv e sopt out₀ s) (hlength : s.out.t.length = out₀.t.length)
    (ho : s.out.t[k]? = some o) : ∃ o₀ rc, out₀.t[k]? = some o₀ ∧ o = { o₀ with rc := rc } ∧ k < out₀.t.length ∧
      ∀ w, StreamProgress (o.label e) (streamOf (out₀.streams k w).reads) (s.out.streams k w) (s.out.printed k w) := by
  have hlt : k < out₀.t.length := hlength ▸ (List.getElem?_eq_some_iff.mp ho).1
  have ho₀ := List.getElem?_eq_getElem hlt
  obtain ⟨rc, hrc⟩ := h.hosts k _ ho₀
  obtain ⟨o', ho', -, hprogress⟩ := h.progress k _ ho₀
  obtain rfl : o' = o := Option.some.inj (ho'.symm.trans ho)
  exact ⟨_, rc, ho₀, Option.some.inj (ho.symm.trans hrc), hlt, hprogress⟩

/-- A worker that ends has read its host to the end, since nothing failed. -/
theorem PipedInv.closed (h : PipedInv e sopt out₀ s) (hth : s.threads.t[k]? = some th)
    (hpc : th.pc = .finishing ∨ th.pc = .exited) : (s.out.streams k .stdout).closed = true := by
  rcases ((h.job.host k th hth).done ((h.done k th hth).ended hpc)).2 with hread | ⟨hc, -⟩
  · exact (Bool.and_eq_true_iff.mp hread).1
  · cases hc

theorem PipedInv.step (hplain : ∀ i w, i < out₀.t.length → Plain w (streamOf (out₀.streams i w).reads))
    (hended : ∀ i < out₀.t.length, Ended '\n' (streamOf (out₀.streams i .stdout).reads))
    (htagged : ∀ o ∈ out₀.t, Tagged e o) (h : PipedInv e sopt out₀ s) (hlength : s.out.t.length = out₀.t.length)
    {b : JobAction} (hok : Smooth s b) (hstep : jobStep fanout e sopt rv s b = some s') :
    PipedInv e sopt out₀ s' := by
  have hjob := h.job.step hok.cancelsIf hstep
  cases jobStepped_of_step hstep with
  | threads a t' hmay hstepped =>
      refine ⟨hjob, h.progress, h.hosts, ?_, h.log⟩
      intro k th' hth'
      obtain ⟨th, hth, hentry⟩ := h.job.accounted.entry hstepped hth'
      exact (h.done k th hth).entry hok (h.job.uncanceled rfl) hentry
  | output k w th out' hth hpc hout =>
      obtain ⟨o, ho, hunflushed, ht, hlog⟩ := outputStep_output_log hout
      obtain ⟨o₀, rc, ho₀, hrc, hlt, hprogress⟩ := h.entry hlength ho
      refine ⟨hjob, (h.progress.step hplain hlength hout).1, ?_, h.done, ?_⟩
      · intro j oj hoj
        obtain ⟨rcj, hj⟩ := h.hosts j oj hoj
        show ∃ rc, out'.t[j]? = _
        rw [ht]
        by_cases hjk : k = j
        · subst hjk
          rw [List.getElem?_set_self (List.getElem?_eq_some_iff.mp ho).1]
          obtain rfl : o = { oj with rc := rcj } := Option.some.inj (ho.symm.trans hj)
          exact ⟨_, rfl⟩
        · rw [List.getElem?_set_ne hjk]
          exact ⟨rcj, hj⟩
      · show ∀ q ∈ out'.log, _
        rw [hlog]
        apply lineOk_append h.log ho₀
        intro hw
        subst hw
        have htag : Tagged e o := by
          have htag₀ := htagged o₀ (List.mem_of_getElem? ho₀)
          rw [hrc]
          exact ⟨htag₀.labels, htag₀.ne_nil, htag₀.plain⟩
        have hprints := (hprogress .stdout).prints (hplain k .stdout hlt) hunflushed htag
        rw [hrc] at hprints ⊢
        exact hprints
  | flush k w th out' hth hpc horder hout =>
      -- the output ends in a newline, so a flush has nothing to print
      obtain ⟨o, first, ho, hunflushed, hlog⟩ := outputStep_flush_log hout
      obtain ⟨o₀, rc, ho₀, hrc, hlt, hprogress⟩ := h.entry hlength ho
      refine ⟨hjob, (h.progress.step hplain hlength hout).1, ?_, h.done, ?_⟩
      · show ∀ j oj, _ → ∃ rc, out'.t[j]? = _
        rw [(outputStep_flush hout).1]
        exact h.hosts
      · show ∀ q ∈ out'.log, _
        rw [hlog]
        apply lineOk_append h.log ho₀
        intro hw
        subst hw
        rw [(hprogress .stdout).flush_nil (hended k hlt) hunflushed (h.closed hth (.inl hpc)) first]
        intro p hp
        cases hp
  | destroy k =>
      refine ⟨hjob, h.progress.setRc k (rv k), ?_, h.done, h.log⟩
      intro j oj hoj
      obtain ⟨rcj, hj⟩ := h.hosts j oj hoj
      show ∃ rc, (s.out.t.modify k _)[j]? = _
      rw [List.getElem?_modify, hj]
      split
      · exact ⟨_, rfl⟩
      · exact ⟨rcj, rfl⟩

/-! ## Standard output as tagged lines -/

/-- What an entry of the log puts on standard output. -/
def onStdout : (Nat × Which) × Print → Option CStr
  | ((_, .stdout), .outf text) => some text
  | _ => none

/-- What `dsh` has written to its standard output. -/
def stdoutText (out : OutputState) : CStr := (out.log.filterMap onStdout).flatten

/-- The tagged lines on standard output; those of a host are what was printed for it. -/
theorem exists_taggedLines {log : List ((Nat × Which) × Print)} (hlog : ∀ q ∈ log, LineOk e out₀ q)
    (hdistinct : ∀ (i j : Nat) (oi oj : ThdOut), out₀.t[i]? = some oi → out₀.t[j]? = some oj →
      tagOf e oi = tagOf e oj → i = j) :
    ∃ ls : List TaggedLine, (log.filterMap onStdout).flatten = stream ls true ∧
      ∀ k o, out₀.t[k]? = some o → (log.filter (·.1 = (k, .stdout))).flatMap (·.2.text) =
        (ls.filter (·.tag = tagOf e o)).flatMap fun l => l.line ++ ['\n'] := by
  induction log with
  | nil => exact ⟨[], rfl, fun _ _ _ => rfl⟩
  | cons q log ih =>
      obtain ⟨ls, hstream, hhosts⟩ := ih fun q hq => hlog q (List.mem_cons_of_mem _ hq)
      obtain ⟨⟨j, w⟩, p⟩ := q
      obtain ⟨oj, hoj, hline⟩ := hlog _ List.mem_cons_self
      cases w with
      | stderr =>
          refine ⟨ls, hstream, fun k o ho => ?_⟩
          rw [List.filter_cons_of_neg (by simp)]
          exact hhosts k o ho
      | stdout =>
          obtain ⟨text, rfl, htext⟩ := hline rfl
          -- nothing was printed, or a line with the tag of its host
          rcases htext with rfl | ⟨l, hl, rfl⟩
          · refine ⟨ls, hstream, fun k o ho => ?_⟩
            rw [List.filter_cons]
            split
            · exact hhosts k o ho
            · exact hhosts k o ho
          · refine ⟨l :: ls, ?_, fun k o ho => ?_⟩
            · show (l.line ++ ['\n']) ++ (log.filterMap onStdout).flatten = _
              rw [hstream]
              rfl
            · by_cases hjk : j = k
              · subst hjk
                obtain rfl : oj = o := Option.some.inj (hoj.symm.trans ho)
                rw [List.filter_cons_of_pos (by simp), List.filter_cons_of_pos (by simpa using hl),
                  List.flatMap_cons, List.flatMap_cons, hhosts j oj ho]
                rfl
              · have hother : ¬ l.tag = tagOf e o := fun hsame => hjk (hdistinct j k oj o hoj ho (hl.symm.trans hsame))
                rw [List.filter_cons_of_neg (by simpa using hjk), List.filter_cons_of_neg (by simpa using hother)]
                exact hhosts k o ho

theorem run_piped (hstart : s.Start) (hout : s.out.Start) (hnew : ∀ th ∈ s.threads.t, th.state ≠ .canceled)
    (hplain : ∀ i w, i < s.out.t.length → Plain w (streamOf (s.out.streams i w).reads))
    (hended : ∀ i < s.out.t.length, Ended '\n' (streamOf (s.out.streams i .stdout).reads))
    (htagged : ∀ o ∈ s.out.t, Tagged e o) (run : Steps (jobStep fanout e sopt rv) Smooth s s') :
    PipedInv e sopt s.out s' := by
  refine (run.invariant (I := fun s' => PipedInv e sopt s.out s' ∧ s'.out.t.length = s.out.t.length) ?_ ?_).1
  · refine ⟨⟨hstart.inv (fun j w hj => hout.flushed j w hj) fun _ => hnew, ?_, ?_, ?_, ?_⟩, rfl⟩
    · exact fun i o ho => ⟨o, ho, rfl, fun w => StreamProgress.start hout (List.getElem?_eq_some_iff.mp ho).1 w _⟩
    · exact fun k o ho => ⟨o.rc, ho⟩
    · intro k th hth
      obtain ⟨-, hpc, -⟩ := hstart.threads.fresh th (List.mem_of_getElem? hth)
      exact .of_early (by simp [hpc]) (by simp [hpc]) (by simp [hpc])
    · rw [hout.log]
      intro q hq
      cases hq
  · rintro t b t' ⟨hinv, hlength⟩ hok hstep
    exact ⟨hinv.step hplain hended htagged hlength hok hstep, (jobStep_length hstep).trans hlength⟩

/-- At the end every worker has read and flushed the whole output of its host. -/
theorem PipedInv.printed (h : PipedInv e sopt out₀ s) (hmain : s.threads.main = .finished)
    (ho : out₀.t[k]? = some o) :
    s.out.printed k .stdout = mark '\n' (o.label e) true (streamOf (out₀.streams k .stdout).reads) := by
  obtain ⟨o', ho', hlabel, hprogress⟩ := h.progress k o ho
  have hlt : k < s.threads.t.length := by
    rw [← h.job.length]
    exact (List.getElem?_eq_some_iff.mp ho').1
  have hth := List.getElem?_eq_getElem hlt
  have hhost := h.job.host k _ hth
  have hexited : (s.threads.t[k]).pc = .exited := by
    rcases h.job.accounted.all_ended hmain hth with hexited | ⟨-, hcanceled⟩
    · exact hexited
    · exact absurd hcanceled (hhost.uncanceled rfl)
  rw [← hlabel]
  exact ((hprogress .stdout).shown (hhost.destroyed (hhost.exited hexited) .stdout)).2
    (h.closed hth (.inr hexited))

/-- `pdsh | dshbak`: where nothing fails or is canceled, every output ends in a newline and the
labels are tags that tell the hosts apart, `dshbak` keeps for each host the lines of its output, in
their order, whatever the order of the threads was. -/
theorem piped_output_regrouped (P : Perl) (hstart : s.Start) (hout : s.out.Start)
    (hnew : ∀ th ∈ s.threads.t, th.state ≠ .canceled)
    (hplain : ∀ i w, i < s.out.t.length → Plain w (streamOf (s.out.streams i w).reads))
    (hended : ∀ i < s.out.t.length, Ended '\n' (streamOf (s.out.streams i .stdout).reads))
    (htagged : ∀ o ∈ s.out.t, Tagged e o)
    (hdistinct : ∀ (i j : Nat) (oi oj : ThdOut), s.out.t[i]? = some oi → s.out.t[j]? = some oj →
      tagOf e oi = tagOf e oj → i = j)
    (run : Steps (jobStep fanout e sopt rv) Smooth s s') (hmain : s'.threads.main = .finished)
    (ho : s.out.t[k]? = some o) :
    ((processLines (stdoutText s'.out)).get (tagOf e o)).getD [] =
        lines '\n' (streamOf (s.out.streams k .stdout).reads) ∧
      ∀ g, g ∈ normal P (processLines (stdoutText s'.out)) ∨ g ∈ coalesced P (processLines (stdoutText s'.out)) →
        tagOf e o ∈ g.tags → g.data = lines '\n' (streamOf (s.out.streams k .stdout).reads) := by
  have hinv := run_piped hstart hout hnew hplain hended htagged run
  have hlt := (List.getElem?_eq_some_iff.mp ho).1
  have htag := htagged o (List.mem_of_getElem? ho)
  obtain ⟨ls, hstream, hhosts⟩ := exists_taggedLines hinv.log hdistinct
  have hprinted := hinv.printed hmain ho
  -- the lines of the host are the tagged lines with its tag, without it
  have hlines : lines '\n' (streamOf (s.out.streams k .stdout).reads) =
      ((ls.filter (·.tag = tagOf e o)).map TaggedLine.text).map (· ++ ['\n']) := by
    apply lines_of_mark (o.label e)
    · rw [htag.label]
      intro hc
      rcases List.mem_append.mp hc with hin | hin
      · exact absurd (htag.plain _ hin).1 (by decide)
      · exact absurd hin (by decide)
    · intro b hb
      obtain ⟨l, -, rfl⟩ := List.mem_map.mp hb
      exact l.text_plain
    · exact hended k hlt
    · rw [← hprinted, OutputState.printed, hhosts k o ho, List.flatMap_map]
      apply List.flatMap_congr
      intro l hl
      have hsame : l.tag = tagOf e o := by simpa using (List.mem_filter.mp hl).2
      rw [htag.label, TaggedLine.line, hsame]
      simp
  have hget : ((processLines (stdoutText s'.out)).get (tagOf e o)).getD [] =
      lines '\n' (streamOf (s.out.streams k .stdout).reads) := by
    rw [processLines_get, stdoutText, hstream, read_ended, hlines, List.filter_map, List.map_map, List.map_map]
    rfl
  refine ⟨hget, fun g hg hin => ?_⟩
  rw [printed_get hg hin, hget]

instance (s : Job) : (b : JobAction) → Decidable (Smooth s b)
  | .threads .cancelLock => .isFalse id
  | .threads (.worker _ (.connect false)) => .isFalse id
  | .threads (.worker _ (.work false)) => .isFalse id
  | .threads .mainLock | .threads .spurious | .threads (.finish _) | .threads .cancelStep => .isTrue trivial
  | .threads (.worker _ .rcmd) | .threads (.worker _ (.connect true)) => .isTrue trivial
  | .threads (.worker _ .update) | .threads (.worker _ .decide) => .isTrue trivial
  | .threads (.worker _ (.work true)) | .threads (.worker _ .status) => .isTrue trivial
  | .output _ _ | .flush _ _ | .destroy _ => .isTrue trivial

/-- Two hosts, whose standard output comes in the reads given. -/
def twoHostJob (cb : Cbuf) (reads : Nat → List Cbuf.FdRead) : Job where
  threads := startHosts 2
  out := {
    t := [⟨"a".toList, true, 0⟩, ⟨"b".toList, true, 0⟩]
    streams := fun k _ => ⟨cb, 3, reads k, false, false⟩
    log := [] }
  destroyed := fun _ => false

/-- A worker up to its first read, and behind its last. -/
def workerStart (k : Nat) : List JobAction :=
  [.threads (.worker k .rcmd), .threads (.worker k (.connect true)), .threads (.worker k .update),
    .threads (.worker k .decide)]

def workerEnd (k : Nat) : List JobAction :=
  [.threads (.worker k (.work true)), .threads (.worker k .status), .flush k .stdout, .flush k .stderr,
    .destroy k, .threads (.finish k)]

/-- Both workers read in turn. -/
def twoHostRun : List JobAction :=
  [.threads .mainLock, .threads .mainLock] ++ workerStart 0 ++ workerStart 1 ++
  [.output 0 .stdout, .output 1 .stdout, .output 0 .stdout, .output 1 .stdout, .output 0 .stdout] ++
  workerEnd 1 ++ workerEnd 0 ++ [.threads .mainLock, .threads .mainLock]

/-- What the two hosts write. -/
def twoHostReads (k : Nat) : List Cbuf.FdRead :=
  (if k = 0 then ["x\n".toList, "y\n".toList] else ["z\n".toList]).map .bytes

theorem twoHostReads_ok (k : Nat) : ReadsOk (twoHostReads k) ∧ Ended '\n' (streamOf (twoHostReads k)) ∧
    ∀ w, Plain w (streamOf (twoHostReads k)) := by
  have hshort : ∀ {whole part : List Char}, whole.length ≤ 4 → part <:+: whole → part.length ≤ 4 :=
    fun h hpart => hpart.length_le.trans h
  have hplain : ∀ whole : List Char, whole.length ≤ 4 → '\x00' ∉ whole → ∀ w, Plain w whole := by
    intro whole hlen hnul w
    refine ⟨hnul, fun _ h => absurd (hshort hlen h) (by decide), fun before line after h _ => ?_⟩
    exact (hshort hlen ⟨before, after, h.symm⟩).trans (by decide)
  by_cases hk : k = 0
  · subst hk
    exact ⟨readsOk_bytes (by decide), .inr rfl, hplain _ (by decide) (by decide)⟩
  · have hz : twoHostReads k = ["z\n".toList].map .bytes := by
      show List.map _ (if k = 0 then _ else _) = _
      rw [if_neg hk]
    rw [hz]
    exact ⟨readsOk_bytes (by decide), .inr rfl, hplain _ (by decide) (by decide)⟩

theorem twoHostJob_out (hcreate : Cbuf.create true true (fun _ => '\x00') 64 131072 = .ok cb) :
    (twoHostJob cb twoHostReads).out.Start where
  created := fun _ _ _ => ⟨_, _, _, hcreate⟩
  fd := fun _ _ _ => show (0 : Int) ≤ 3 by decide
  reads := fun k _ _ => (twoHostReads_ok k).1
  closed := fun _ _ _ => rfl
  flushed := fun _ _ _ => rfl
  log := rfl

theorem exists_twoHostRun (hcreate : Cbuf.create true true (fun _ => '\x00') 64 131072 = .ok cb) :
    ∃ s', Steps (jobStep 2 ⟨[], [], false, []⟩ false fun _ => 0) Smooth (twoHostJob cb twoHostReads) s' ∧
      s'.threads.main = .finished ∧ stdoutText s'.out = "a: x\nb: z\na: y\n".toList := by
  have hruns : ((replay (checked (jobStep 2 ⟨[], [], false, []⟩ false fun _ => 0) Smooth)
      (twoHostJob cb twoHostReads) twoHostRun).map fun s' => (s'.threads.main, stdoutText s'.out)) =
        some (.finished, "a: x\nb: z\na: y\n".toList) := by
    cases hcreate
    decide +kernel
  obtain ⟨s', hreplay, hends⟩ := Option.map_eq_some_iff.mp hruns
  obtain ⟨hmain, htext⟩ := Prod.mk.injEq .. |>.mp hends
  exact ⟨s', Steps.of_checked hreplay, hmain, htext⟩

/-- The lines of two hosts, one of them in between those of the other. -/
theorem piped_output_regrouped_two : ∃ (e : ErrState) (s s' : Job), s.Start ∧ s.out.Start ∧
    s.out.t = [⟨"a".toList, true, 0⟩, ⟨"b".toList, true, 0⟩] ∧
    Steps (jobStep 2 e false fun _ => 0) Smooth s s' ∧ s'.threads.main = .finished ∧
    stdoutText s'.out = "a: x\nb: z\na: y\n".toList ∧
    ((processLines (stdoutText s'.out)).get "a".toList).getD [] = ["x\n".toList, "y\n".toList] := by
  let e : ErrState := ⟨[], [], false, []⟩
  obtain ⟨cb, hcreate⟩ : ∃ cb, Cbuf.create true true (fun _ => '\x00') 64 131072 = .ok cb := ⟨_, rfl⟩
  let s := twoHostJob cb twoHostReads
  obtain ⟨s', run, hmain, htext⟩ := exists_twoHostRun hcreate
  have hstart : s.Start := ⟨startHosts_started 2, rfl, fun _ => rfl⟩
  refine ⟨e, s, s', hstart, twoHostJob_out hcreate, rfl, run, hmain, htext, ?_⟩
  have hfresh : ∀ th ∈ s.threads.t, th.state ≠ .canceled := by
    show ∀ th ∈ (startHosts 2).t, th.state ≠ .canceled
    decide
  have htagged : ∀ o ∈ s.out.t, Tagged e o := by
    intro o ho
    rcases List.mem_cons.mp ho with rfl | ho
    · exact .of_letter (c := 'a') rfl rfl (by decide)
    · obtain rfl := List.mem_singleton.mp ho
      exact .of_letter (c := 'b') rfl rfl (by decide)
  have hdistinct : ∀ (i j : Nat) (oi oj : ThdOut), s.out.t[i]? = some oi → s.out.t[j]? = some oj →
      tagOf e oi = tagOf e oj → i = j := by
    have hhosts : ∀ (i : Nat) (o : ThdOut), s.out.t[i]? = some o →
        i = 0 ∧ tagOf e o = "a".toList ∨ i = 1 ∧ tagOf e o = "b".toList := by
      intro i o h
      cases i with
      | zero =>
          cases h
          exact .inl ⟨rfl, rfl⟩
      | succ i =>
          cases i with
          | zero =>
              cases h
              exact .inr ⟨rfl, rfl⟩
          | succ i => cases h
    intro i j oi oj hi hj hsame
    rcases hhosts i oi hi with ⟨rfl, hti⟩ | ⟨rfl, hti⟩
    · rcases hhosts j oj hj with ⟨rfl, -⟩ | ⟨rfl, htj⟩
      · rfl
      · rw [hti, htj] at hsame
        exact absurd hsame (by decide)
    · rcases hhosts j oj hj with ⟨rfl, htj⟩ | ⟨rfl, -⟩
      · rw [hti, htj] at hsame
        exact absurd hsame (by decide)
      · rfl
  obtain ⟨hget, -⟩ := @piped_output_regrouped 2 e false (fun _ => 0) s s' 0 ⟨"a".toList, true, 0⟩ stable
    hstart (twoHostJob_out hcreate) hfresh
    (fun k w _ => (twoHostReads_ok k).2.2 w) (fun k _ => (twoHostReads_ok k).2.1) htagged hdistinct run hmain rfl
  exact hget

end Pdsh.Dsh
