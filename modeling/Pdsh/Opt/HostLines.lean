import Pdsh.Opt.ReadWcoll
import Pdsh.Lib.Lines

/-!
# The lines of a file of hosts

`wcoll_ctx_read_stream` hands what one `fgets` reads to `wcoll_ctx_read_line`, up to 2047 bytes, so
a longer line is read as several lines: behind a cut its comment becomes hosts, and a host becomes
two. And `include_file` asks for no blank behind `#include`. Here is what the lines of a file say,
and which lines are read so (`read_stream_lines_iff`).
-/

namespace Pdsh

open Lib Lib.Run Lib.Lines

variable {content : List Char} {s : CStr} {ctx : WcollCtx}

/-! ## What a line says -/

/-- A line as a C string. -/
def cstr (line : List Char) : CStr := line.takeWhile (· ≠ NUL)

/-- The word of a text that has one word. -/
def onlyWord (s : CStr) : Option CStr :=
  let p := s.dropWhile includeSep
  let rest := (p.dropWhile fun c => !includeSep c).dropWhile includeSep
  if p = [] ∨ rest ≠ [] then none else some (p.takeWhile fun c => !includeSep c)

/-- The file a line includes: behind `#include` there are a blank and one word. -/
def includeDirective (line : List Char) : Option CStr :=
  if "#include ".toList <+: line ∨ "#include\t".toList <+: line then onlyWord (line.drop 8)
    else none

/-- What is done for a line. -/
inductive LineItem where
  | nothing
  | included (f : CStr)
  | hosts (text : CStr)
deriving DecidableEq, Repr

/-- An include stands for the line; otherwise its text does, when there is one. -/
def LineItem.of (included : Option CStr) (text : CStr) : LineItem :=
  match included with
  | some f => .included f
  | none => if text = [] then .nothing else .hosts text

/-- What a line says; a NUL is a byte of its text. -/
def lineItem (line : List Char) : LineItem := .of (includeDirective line) (lineHosts line)

/-- What `wcoll_ctx_read_line` does for what is in its buffer. -/
def bufferItem (buf : CStr) : LineItem := .of (lineInclude buf) (lineHosts buf)

/-- Do it: `push` takes the text of hosts, `rf` reads a file. -/
def LineItem.run (push rf : WcollCtx → CStr → Read WcollCtx) (ctx : WcollCtx) :
    LineItem → Read WcollCtx
  | nothing => pure ctx
  | included f => rf ctx f
  | hosts text => push ctx text

/-- One line after the other. -/
def runItems (push rf : WcollCtx → CStr → Read WcollCtx) : List LineItem → WcollCtx → Read WcollCtx
  | [], ctx => pure ctx
  | i :: is, ctx => i.run push rf ctx >>= runItems push rf is

/-- The hosts of a file, line by line. -/
def readLines (slack : CStr) (rf : WcollCtx → CStr → Read WcollCtx) (content : List Char)
    (ctx : WcollCtx) :
    Read WcollCtx :=
  runItems (pushLine slack) rf ((lines '\n' content).map lineItem) ctx

/-! ## Buffer-fulls -/

/-- What `fgets` reads of a line, one buffer-full after the other. -/
def buffers (line : List Char) : List (List Char) := cut 2047 line

theorem takeWhile_free {p : List Char} (hp : '\n' ∉ p) : p.takeWhile (· ≠ '\n') = p := by
  refine List.takeWhile_eq_self_iff.mpr fun c hc => ?_
  rw [decide_eq_true_eq]
  rintro rfl
  exact hp hc

/-- A buffer-full without a newline. -/
theorem fgetsLines_cut {fuel : Nat} (hne : content ≠ []) (hfree : '\n' ∉ content.take 2047) :
    fgetsLines (fuel + 1) content = cstr (content.take 2047) :: fgetsLines fuel
      (content.drop 2047) := by
  obtain ⟨c, s, rfl⟩ := List.exists_cons_of_ne_nil hne
  simp only [fgetsLines, takeWhile_free hfree, lt_irrefl, if_false]
  rw [List.length_take]
  rcases Nat.le_total 2047 (c :: s).length with hlen | hlen
  · rw [Nat.min_eq_left hlen]
    rfl
  · rw [Nat.min_eq_right hlen, List.take_length, List.drop_length, List.take_of_length_le hlen,
      List.drop_of_length_le hlen]
    rfl

/-- A line that fits. -/
theorem fgetsLines_line {fuel : Nat} {p t : List Char} (hp : '\n' ∉ p) (hlen : p.length < 2047) :
    fgetsLines (fuel + 1) (p ++ '\n' :: t) = cstr (p ++ ['\n']) :: fgetsLines fuel t := by
  have htake : (p ++ '\n' :: t).take 2047 = p ++ '\n' :: t.take (2046 - p.length) := by
    rw [List.take_append, List.take_of_length_le (by omega)]
    have hsub : 2047 - p.length = (2046 - p.length) + 1 := by omega
    rw [hsub, List.take_succ_cons]
  have hup : ((p ++ '\n' :: t).take 2047).takeWhile (· ≠ '\n') = p := by
    rw [htake, List.takeWhile_append_of_pos fun c hc => ?_]
    · simp
    · rw [decide_eq_true_eq]
      rintro rfl
      exact hp hc
  have hlt : p.length < ((p ++ '\n' :: t).take 2047).length := by
    rw [htake, List.length_append, List.length_cons]
    omega
  have hsplit : p ++ '\n' :: t = (p ++ ['\n']) ++ t := by simp
  have hlength : p.length + 1 = (p ++ ['\n']).length := by simp
  rw [fgetsLines]
  · simp only [hup, hlt, if_true]
    rw [hsplit, hlength, List.take_left, List.drop_left]
    rfl
  · simp

/-- The lines are read one after the other, each a buffer-full at a time. -/
theorem fgetsLines_eq {fuel : Nat} (hfuel : content.length ≤ fuel) :
    fgetsLines fuel content = (lines '\n' content).flatMap fun line => (buffers line).map cstr := by
  induction fuel generalizing content with
  | zero =>
      obtain rfl := List.length_eq_zero_iff.mp (Nat.le_zero.mp hfuel)
      rfl
  | succ fuel ih =>
      by_cases hne : content = []
      · subst hne
        rfl
      have hpos := List.length_pos_iff.mpr hne
      have hdrop : (content.drop 2047).length ≤ fuel := by
        rw [List.length_drop]
        omega
      by_cases hmem : '\n' ∈ content
      · obtain ⟨p, t, rfl, hp⟩ := List.eq_append_cons_of_mem hmem
        rw [lines_line p t hp, List.flatMap_cons]
        rcases Nat.lt_or_ge p.length 2047 with hlen | hlen
        · rw [fgetsLines_line hp hlen, ih (by simp at hfuel; omega), buffers,
            cut_short (by decide) (by simp) (by simp; omega)]
          rfl
        · -- the newline is not in this buffer-full
          have htake : (p ++ '\n' :: t).take 2047 = p.take 2047 :=
            List.take_append_of_le_length hlen
          have hrest : (p ++ '\n' :: t).drop 2047 = p.drop 2047 ++ '\n' :: t :=
            List.drop_append_of_le_length hlen
          have hfree : '\n' ∉ p.take 2047 := fun h => hp (List.mem_of_mem_take h)
          rw [fgetsLines_cut hne (htake ▸ hfree), ih hdrop, hrest, htake,
            lines_line _ t fun h => hp (List.mem_of_mem_drop h), List.flatMap_cons, buffers,
            buffers,
            cut_ne_nil (by decide) (show p ++ ['\n'] ≠ [] by simp),
            List.take_append_of_le_length hlen,
            List.drop_append_of_le_length hlen]
          rfl
      · have hfree : '\n' ∉ content.take 2047 := fun h => hmem (List.mem_of_mem_take h)
        rw [fgetsLines_cut hne hfree, ih hdrop, lines_open hmem hne, List.flatMap_singleton,
          buffers,
          cut_ne_nil (by decide) hne, List.map_cons]
        refine congrArg _ ?_
        by_cases hend : content.drop 2047 = []
        · rw [hend]
          rfl
        · rw [lines_open (fun h => hmem (List.mem_of_mem_drop h)) hend, List.flatMap_singleton]
          rfl

theorem fileLines_eq (content : List Char) :
    fileLines content = (lines '\n' content).flatMap fun line => (buffers line).map cstr :=
  fgetsLines_eq (Nat.le_refl _)

/-! ## What `read_stream` does -/

theorem lineHosts_of_include {f : CStr} (h : lineInclude s = some f) : lineHosts s = [] := by
  unfold lineInclude at h
  split at h
  · rename_i hhead
    obtain ⟨t, rfl⟩ := List.head?_eq_some_iff.mp hhead
    rfl
  · cases h

theorem readLine_eq (slack : CStr) (rf : WcollCtx → CStr → Read WcollCtx) (ctx : WcollCtx)
    (line : CStr) :
    readLine slack rf ctx line = (bufferItem line).run (pushLine slack) rf ctx := by
  unfold readLine bufferItem
  cases hline : lineInclude line with
  | none =>
      by_cases hhosts : lineHosts line = []
      · simp [LineItem.of, hhosts, LineItem.run]
      · simp [LineItem.of, hhosts, LineItem.run]
  | some f =>
      simp [LineItem.of, lineHosts_of_include hline, LineItem.run]

theorem readStream_eq (slack : CStr) (rf : WcollCtx → CStr → Read WcollCtx) (bufs : List CStr)
    (ctx : WcollCtx) :
    readStream slack rf bufs ctx = runItems (pushLine slack) rf (bufs.map bufferItem) ctx := by
  induction bufs generalizing ctx with
  | nil => rfl
  | cons buf bufs ih =>
      rw [readStream, List.map_cons, runItems, readLine_eq]
      exact congrArg _ (funext ih)

/-! ## Blanks -/

theorem dropWhile_blank {t : List Char} (h : ∀ c ∈ t, lineBlank c = true) (u : List Char) :
    (t ++ u).dropWhile lineBlank = u.dropWhile lineBlank := List.dropWhile_append_of_pos h

/-- Only blanks are taken off. -/
theorem xstrcln_eq_nil_iff {t : CStr} : xstrcln t = [] ↔ ∀ c ∈ t, lineBlank c = true := by
  rw [xstrcln, List.reverse_eq_nil_iff, List.dropWhile_eq_nil_iff]
  constructor
  · intro h
    rw [← List.dropWhile_eq_nil_iff]
    by_contra hne
    have hhead := List.head_dropWhile_not lineBlank hne
    have hmem := h _ (List.mem_reverse.mpr (List.head_mem hne))
    rw [hmem] at hhead
    cases hhead
  · intro h c hc
    exact h c ((List.dropWhile_suffix _).subset (List.mem_reverse.mp hc))

theorem xstrcln_append_left {t : CStr} (h : ∀ c ∈ t, lineBlank c = true) (u : CStr) :
    xstrcln (t ++ u) = xstrcln u := by
  rw [xstrcln, dropWhile_blank h, xstrcln]

theorem xstrcln_append_right {u : CStr} (t : CStr) (h : ∀ c ∈ u, lineBlank c = true) :
    xstrcln (t ++ u) = xstrcln t := by
  by_cases ht : ∀ c ∈ t, lineBlank c = true
  · rw [xstrcln_append_left ht, xstrcln_eq_nil_iff.mpr h, xstrcln_eq_nil_iff.mpr ht]
  · have hne : t.dropWhile lineBlank ≠ [] := by
      rwa [ne_eq, List.dropWhile_eq_nil_iff]
    have hdrop : (t ++ u).dropWhile lineBlank = t.dropWhile lineBlank ++ u := by
      rw [List.dropWhile_append, if_neg]
      simpa using hne
    rw [xstrcln, hdrop, List.reverse_append, dropWhile_blank fun c hc => h c
      (List.mem_reverse.mp hc), xstrcln]

theorem mem_of_mem_xstrcln {t : CStr} {c : Char} (h : c ∈ xstrcln t) : c ∈ t := by
  have hrev := (List.dropWhile_suffix _).subset (List.mem_reverse.mp h)
  exact (List.dropWhile_suffix _).subset (List.mem_reverse.mp hrev)

/-- What is no blank stays. -/
theorem mem_xstrcln {t : CStr} {c : Char} (h : c ∈ t) (hc : lineBlank c = false) :
    c ∈ xstrcln t := by
  have hkeep : ∀ {u : List Char}, c ∈ u → c ∈ u.dropWhile lineBlank := by
    intro u hu
    rw [← List.takeWhile_append_dropWhile (p := lineBlank) (l := u), List.mem_append] at hu
    refine hu.resolve_left fun htake => ?_
    rw [List.mem_takeWhile_imp htake] at hc
    cases hc
  exact List.mem_reverse.mpr (hkeep (List.mem_reverse.mpr (hkeep h)))

/-! ## Includes -/

/-- What is in front of the word and behind it is between words. -/
theorem onlyWord_filter {w : CStr} (h : onlyWord s = some w) :
    s.filter (fun c => !includeSep c) = w := by
  obtain ⟨hcond, hw⟩ := Option.ite_none_left_eq_some.mp h
  obtain ⟨-, hrest⟩ := not_or.mp hcond
  rw [ne_eq, not_not, List.dropWhile_eq_nil_iff] at hrest
  cases hw
  have hfront : (s.takeWhile includeSep).filter (fun c => !includeSep c) = [] := by
    refine List.filter_eq_nil_iff.mpr fun c hc => ?_
    simp [List.mem_takeWhile_imp hc]
  have hback : ((s.dropWhile includeSep).dropWhile fun c => !includeSep c).filter
      (fun c => !includeSep c) = [] := by
    refine List.filter_eq_nil_iff.mpr fun c hc => ?_
    simp [hrest c hc]
  have hword : ((s.dropWhile includeSep).takeWhile fun c => !includeSep c).filter
      (fun c => !includeSep c) =
      (s.dropWhile includeSep).takeWhile fun c => !includeSep c :=
    List.filter_eq_self.mpr fun c hc => List.mem_takeWhile_imp (p := fun c => !includeSep c) hc
  have hsplit : s.filter (fun c => !includeSep c) = (s.dropWhile includeSep).filter fun c =>
      !includeSep c := by
    conv_lhs => rw [← List.takeWhile_append_dropWhile (p := includeSep) (l := s)]
    rw [List.filter_append, hfront, List.nil_append]
  have hsplit' : (s.dropWhile includeSep).filter (fun c => !includeSep c) =
      (s.dropWhile includeSep).takeWhile fun c => !includeSep c := by
    conv_lhs => rw [← List.takeWhile_append_dropWhile (p := fun c => !includeSep c)
      (l := s.dropWhile includeSep)]
    rw [List.filter_append, hback, hword, List.append_nil]
  exact hsplit.trans hsplit'

/-- The buffer is taken for an include. -/
theorem lineInclude_eq_some_iff {f : CStr} :
    lineInclude s = some f ↔ ∃ rest, s = "#include".toList ++ rest ∧ onlyWord rest = some f := by
  constructor
  · intro h
    unfold lineInclude at h
    split at h
    · unfold includeFile at h
      split at h
      · rename_i hpre
        obtain ⟨rest, rfl⟩ := List.isPrefixOf_iff_prefix.mp hpre
        exact ⟨rest, rfl, h⟩
      · cases h
    · cases h
  · rintro ⟨rest, rfl, hword⟩
    exact hword

/-- An include begins with its directive and a blank. -/
theorem includeDirective_eq_some {line f : List Char} (h : includeDirective line = some f) :
    ∃ rest, line = "#include".toList ++ rest ∧ onlyWord rest = some f := by
  unfold includeDirective at h
  split at h
  · rename_i hpre
    rcases hpre with ⟨rest, rfl⟩ | ⟨rest, rfl⟩
    · exact ⟨' ' :: rest, rfl, h⟩
    · exact ⟨'\t' :: rest, rfl, h⟩
  · cases h

/-! ## What is given -/

/-- Nothing is given for nothing. -/
def LineItem.given : LineItem → List LineItem
  | nothing => []
  | i => [i]

theorem given_eq_nil_iff {i : LineItem} : i.given = [] ↔ i = .nothing := by
  cases i with
  | nothing => simp [LineItem.given]
  | included f => simp [LineItem.given]
  | hosts t => simp [LineItem.given]

theorem of_eq_nothing_iff {o : Option CStr} {t : CStr} :
    LineItem.of o t = .nothing ↔ o = none ∧ t = [] := by
  cases o with
  | some f => simp [LineItem.of]
  | none => simp [LineItem.of]

theorem runItems_given (push rf : WcollCtx → CStr → Read WcollCtx) (is : List LineItem)
    (ctx : WcollCtx) :
    runItems push rf (is.flatMap LineItem.given) ctx = runItems push rf is ctx := by
  induction is generalizing ctx with
  | nil => rfl
  | cons i is ih =>
      cases i with
      | nothing => exact ih ctx
      | included f => exact congrArg _ (funext ih)
      | hosts t => exact congrArg _ (funext ih)

theorem runItems_append (push rf : WcollCtx → CStr → Read WcollCtx) (is js : List LineItem)
    (ctx : WcollCtx) :
    runItems push rf (is ++ js) ctx = (runItems push rf is ctx >>= runItems push rf js) := by
  induction is generalizing ctx with
  | nil => rfl
  | cons i is ih =>
      rw [List.cons_append, runItems, runItems, Run.bind_assoc]
      exact congrArg _ (funext ih)

/-- What is done, as a text. -/
def LineItem.mark : LineItem → CStr
  | nothing => []
  | included f => 'f' :: f
  | hosts t => 'h' :: t

theorem mark_injective : Function.Injective LineItem.mark := by
  intro i j h
  cases i <;> cases j <;> simp_all [LineItem.mark]

/-- A reader that only writes down what it is given. -/
def written (m : Char) (ctx : WcollCtx) (text : CStr) : Read WcollCtx :=
  .ret { ctx with opened := ctx.opened ++ [m :: text] }

theorem runItems_written (is : List LineItem) (ctx : WcollCtx) :
    runItems (written 'h') (written 'f') is ctx =
      .ret { ctx with opened := ctx.opened ++ (is.flatMap LineItem.given).map LineItem.mark } := by
  induction is generalizing ctx with
  | nil => simp [runItems]
  | cons i is ih =>
      cases i with
      | nothing => exact ih ctx
      | included f =>
          show runItems _ _ is { ctx with opened := ctx.opened ++ ['f' :: f] } = _
          rw [ih]
          simp [LineItem.given, LineItem.mark]
      | hosts t =>
          show runItems _ _ is { ctx with opened := ctx.opened ++ ['h' :: t] } = _
          rw [ih]
          simp [LineItem.given, LineItem.mark]

/-- Lists of items that are the same for every reader give the same. -/
theorem runItems_eq_iff {is js : List LineItem} :
    (∀ push rf ctx, runItems push rf is ctx = runItems push rf js ctx) ↔
      is.flatMap LineItem.given = js.flatMap LineItem.given := by
  constructor
  · intro h
    have hw := h (written 'h') (written 'f') (wcollCtxCreate [] [])
    rw [runItems_written, runItems_written] at hw
    have hopened := congrArg WcollCtx.opened (Run.ret.inj hw)
    exact List.map_injective_iff.mpr mark_injective (List.append_cancel_left hopened)
  · intro h push rf ctx
    rw [← runItems_given, h, runItems_given]

/-! ## One line -/

/-- A line that is read as it stands: its text has no NUL; the first buffer-full of it that is not
blank is an include if the line is, of the same file; and nothing is said by those behind it. -/
def ReadWhole (line : List Char) : Prop :=
  NUL ∉ line.takeWhile (· ≠ '#') ∧
    match (buffers line).dropWhile fun buf => buf.all lineBlank with
    | [] => True
    | buf :: bufs =>
        lineInclude (cstr buf) = includeDirective line ∧
          ∀ b ∈ bufs, lineInclude (cstr b) = none ∧ lineHosts (cstr b) = []

variable {line buf : List Char} {bufs : List (List Char)}

/-- What is done for the buffer-fulls. -/
def bufferItems (bufs : List (List Char)) : List LineItem :=
  bufs.map fun buf => bufferItem (cstr buf)

theorem mem_given_iff {i : LineItem} (hi : i ≠ .nothing) :
    i ∈ (bufferItems bufs).flatMap LineItem.given ↔ ∃ b ∈ bufs, bufferItem (cstr b) = i := by
  simp only [bufferItems, List.flatMap_map, List.mem_flatMap]
  refine exists_congr fun b => and_congr_right fun _ => ?_
  cases bufferItem (cstr b) with
  | nothing => simp [LineItem.given, Ne.symm hi]
  | included f => simp [LineItem.given, eq_comm]
  | hosts t => simp [LineItem.given, eq_comm]

theorem given_eq_nil_iff_silent :
    (bufferItems bufs).flatMap LineItem.given = [] ↔ ∀ b ∈ bufs, lineInclude (cstr b) = none ∧
      lineHosts (cstr b) = [] := by
  simp only [bufferItems, List.flatMap_map, List.flatMap_eq_nil_iff, given_eq_nil_iff, bufferItem,
    of_eq_nothing_iff]

theorem not_nul_cstr (s : List Char) : NUL ∉ cstr s := by
  intro h
  have hne := List.mem_takeWhile_imp h
  simp at hne

/-- In front of a `#`, with no NUL there, the C string is the line. -/
theorem text_cstr (h : NUL ∉ buf.takeWhile (· ≠ '#')) :
    (cstr buf).takeWhile (· ≠ '#') = buf.takeWhile (· ≠ '#') := by
  have hall : (buf.takeWhile (· ≠ '#')).takeWhile (· ≠ NUL) = buf.takeWhile (· ≠ '#') := by
    refine List.takeWhile_eq_self_iff.mpr fun c hc => ?_
    rw [decide_eq_true_eq]
    rintro rfl
    exact h hc
  rw [cstr, List.takeWhile_takeWhile, ← hall, List.takeWhile_takeWhile]
  simp only [and_comm]

theorem text_append_of_mem (h : '#' ∈ buf) (s : List Char) :
    (buf ++ s).takeWhile (· ≠ '#') = buf.takeWhile (· ≠ '#') := by
  obtain ⟨p, t, rfl, hp⟩ := List.eq_append_cons_of_mem h
  have hfree : ∀ c ∈ p, decide (c ≠ '#') = true := by
    intro c hc
    rw [decide_eq_true_eq]
    rintro rfl
    exact hp hc
  rw [List.append_assoc, List.takeWhile_append_of_pos hfree, List.takeWhile_append_of_pos hfree]
  simp

theorem text_append_of_not_mem (h : '#' ∉ buf) (s : List Char) :
    (buf ++ s).takeWhile (· ≠ '#') = buf ++ s.takeWhile (· ≠ '#') := by
  refine List.takeWhile_append_of_pos fun c hc => ?_
  rw [decide_eq_true_eq]
  rintro rfl
  exact h hc

theorem of_eq_hosts {o : Option CStr} {t u : CStr} (h : LineItem.of o t = .hosts u) : u = t := by
  cases o with
  | some f => cases h
  | none =>
      unfold LineItem.of at h
      dsimp only at h
      split at h
      · cases h
      · exact (LineItem.hosts.inj h).symm

theorem of_eq_included {o : Option CStr} {t f : CStr} (h : LineItem.of o t = .included f) :
    o = some f := by
  cases o with
  | some f' => rw [LineItem.included.inj h]
  | none =>
      unfold LineItem.of at h
      dsimp only at h
      split at h
      · cases h
      · cases h

/-- What is silent has no text in front of the first `#`. -/
theorem text_silent (h : ∀ b ∈ bufs, lineInclude (cstr b) = none ∧ lineHosts (cstr b) = [])
    (hnul : NUL ∉ bufs.flatten.takeWhile (· ≠ '#')) :
    ∀ c ∈ bufs.flatten.takeWhile (· ≠ '#'), lineBlank c = true := by
  induction bufs with
  | nil => nofun
  | cons b bufs ih =>
      have hb : ∀ c ∈ (cstr b).takeWhile (· ≠ '#'), lineBlank c = true :=
        xstrcln_eq_nil_iff.mp (h b List.mem_cons_self).2
      rw [List.flatten_cons] at hnul ⊢
      by_cases hmem : '#' ∈ b
      · rw [text_append_of_mem hmem] at hnul ⊢
        rwa [text_cstr hnul] at hb
      · rw [text_append_of_not_mem hmem] at hnul ⊢
        rw [List.mem_append, not_or] at hnul
        have hfree : b.takeWhile (· ≠ '#') = b := by
          simpa using text_append_of_not_mem hmem []
        rw [text_cstr (hfree.symm ▸ hnul.1), hfree] at hb
        intro c hc
        rcases List.mem_append.mp hc with hc | hc
        · exact hb c hc
        · exact ih (fun b' hb' => h b' (List.mem_cons_of_mem b hb')) hnul.2 c hc

/-- A blank line or a blank beginning of one. -/
theorem lineBlank_ne {c : Char} (h : lineBlank c = true) : c ≠ '#' ∧ c ≠ NUL := by
  constructor
  · rintro rfl
    cases h
  · rintro rfl
    cases h

theorem blank_silent (h : buf.all lineBlank = true) :
    lineInclude (cstr buf) = none ∧ lineHosts (cstr buf) = [] := by
  rw [List.all_eq_true] at h
  constructor
  · cases hi : lineInclude (cstr buf) with
    | none => rfl
    | some f =>
        obtain ⟨rest, hrest, -⟩ := lineInclude_eq_some_iff.mp hi
        have hmem : '#' ∈ cstr buf := by
          rw [hrest]
          exact List.mem_append_left _ (by decide)
        exact absurd rfl (lineBlank_ne (h '#' ((List.takeWhile_prefix _).subset hmem))).1
  · refine xstrcln_eq_nil_iff.mpr fun c hc => ?_
    exact h c ((List.takeWhile_prefix _).subset ((List.takeWhile_prefix _).subset hc))

/-- Where the first buffer-full that is not blank is and no text with a NUL, the text of the line is
in it. -/
theorem lineHosts_whole {b c r : List Char} (hb : ∀ x ∈ b, lineBlank x = true)
    (hnul : NUL ∉ (b ++ (c ++ r)).takeWhile (· ≠ '#'))
    (hr : '#' ∉ c → NUL ∉ r.takeWhile (· ≠ '#') → ∀ x ∈ r.takeWhile (· ≠ '#'), lineBlank x = true) :
    lineHosts (b ++ (c ++ r)) = lineHosts (cstr c) := by
  have hbfree : '#' ∉ b := fun h => (lineBlank_ne (hb _ h)).1 rfl
  rw [text_append_of_not_mem hbfree, List.mem_append, not_or] at hnul
  rw [lineHosts, text_append_of_not_mem hbfree, xstrcln_append_left hb, lineHosts]
  by_cases hmem : '#' ∈ c
  · rw [text_append_of_mem hmem] at hnul ⊢
    rw [text_cstr hnul.2]
  · have hfree : c.takeWhile (· ≠ '#') = c := by
      simpa using text_append_of_not_mem hmem []
    rw [text_append_of_not_mem hmem, List.mem_append, not_or] at hnul
    rw [text_append_of_not_mem hmem, xstrcln_append_right c (hr hmem hnul.2.2),
      text_cstr (hfree.symm ▸ hnul.2.1), hfree]

/-- A buffer-full behind the beginning of a directive is no include of its file. -/
theorem lineInclude_behind {f c r q : List Char} (hdir : includeDirective (c ++ r) = some f)
    (hc : 8 ≤ c.length)
    (hq : q <:+: r) : lineInclude (cstr q) ≠ some f := by
  intro hinc
  obtain ⟨rest, hrest, hword⟩ := includeDirective_eq_some hdir
  obtain ⟨rest', hrest', hword'⟩ := lineInclude_eq_some_iff.mp hinc
  have hfilter := onlyWord_filter hword
  have hfilter' := onlyWord_filter hword'
  have hr : r <:+ rest := by
    have hle : "#include".toList.length ≤ c.length := hc
    obtain ⟨t, rfl⟩ : "#include".toList <+: c :=
      List.prefix_of_prefix_length_le ⟨rest, hrest.symm⟩ (List.prefix_append c r) hle
    rw [List.append_assoc] at hrest
    exact ⟨t, List.append_cancel_left hrest⟩
  have hsub : (cstr q).Sublist rest :=
    (List.takeWhile_prefix _).sublist.trans (hq.sublist.trans hr.sublist)
  have hlen := (hsub.filter fun c => !includeSep c).length_le
  rw [hrest', List.filter_append, hfilter, hfilter', List.length_append] at hlen
  have hinc : ("#include".toList.filter fun c => !includeSep c).length = 8 := rfl
  omega

theorem buffers_flatten (line : List Char) : (buffers line).flatten = line :=
  flatten_cut (by decide) line

theorem blank_line (h : ∀ c ∈ line, lineBlank c = true) :
    lineItem line = .nothing ∧ NUL ∉ line.takeWhile (· ≠ '#') := by
  have htext : ∀ c ∈ line.takeWhile (· ≠ '#'), lineBlank c = true :=
    fun c hc => h c ((List.takeWhile_prefix _).subset hc)
  refine ⟨of_eq_nothing_iff.mpr ⟨?_, xstrcln_eq_nil_iff.mpr htext⟩,
    fun hnul => (lineBlank_ne (htext NUL hnul)).2 rfl⟩
  cases hd : includeDirective line with
  | none => rfl
  | some f =>
      obtain ⟨rest, rfl, -⟩ := includeDirective_eq_some hd
      exact absurd rfl (lineBlank_ne (h '#' (List.mem_append_left _ (by decide)))).1

/-- A line whose first buffer-full that is not blank is `c`. -/
theorem whole_line_iff {bs r : List (List Char)} {c : List Char}
    (hline : line = bs.flatten ++ (c ++ r.flatten))
    (hfront : ∀ x ∈ bs.flatten, lineBlank x = true) (hc : ¬ c.all lineBlank = true)
    (hbuf : buffers line = bs ++ c :: r) :
    (bufferItems (c :: r)).flatMap LineItem.given = (lineItem line).given ↔
      NUL ∉ line.takeWhile (· ≠ '#') ∧
        (lineInclude (cstr c) = includeDirective line ∧ ∀ b ∈ r,
          lineInclude (cstr b) = none ∧ lineHosts (cstr b) = []) := by
  constructor
  · intro h
    have hnul : NUL ∉ line.takeWhile (· ≠ '#') := by
      intro hmem
      have hkept : NUL ∈ lineHosts line := mem_xstrcln hmem rfl
      have hne : lineHosts line ≠ [] := List.ne_nil_of_mem hkept
      cases hd : includeDirective line with
      | some f =>
          obtain ⟨rest, rfl, -⟩ := includeDirective_eq_some hd
          cases hmem
      | none =>
          have hitem : lineItem line = .hosts (lineHosts line) := by
            rw [lineItem, hd, LineItem.of, if_neg hne]
          have hgiven : LineItem.hosts (lineHosts line) ∈ (bufferItems (c :: r)).flatMap
              LineItem.given := by
            rw [h, hitem]
            exact List.mem_singleton_self _
          obtain ⟨b, -, hb⟩ := (mem_given_iff (i := .hosts (lineHosts line)) nofun).mp hgiven
          rw [of_eq_hosts hb] at hkept
          exact not_nul_cstr b ((List.takeWhile_prefix _).subset (mem_of_mem_xstrcln hkept))
    refine ⟨hnul, ?_⟩
    rw [← given_eq_nil_iff_silent]
    change (bufferItem (cstr c)).given ++ (bufferItems r).flatMap LineItem.given = _ at h
    cases hd : includeDirective line with
    | some f =>
        -- the directive is in the first buffer-full, where the word is as well
        obtain ⟨rest, hrest, -⟩ := includeDirective_eq_some hd
        have hitem : (lineItem line).given = [.included f] := by
          rw [lineItem, hd]
          rfl
        rw [hitem] at h
        have hbs : bs.flatten = [] := by
          cases hflat : bs.flatten with
          | nil => rfl
          | cons x xs =>
              rw [hflat, hrest] at hline
              have hx : '#' = x := (List.cons.inj hline).1
              exact absurd hx.symm (lineBlank_ne (hfront x (hflat ▸ List.mem_cons_self))).1
        rw [hbs, List.nil_append] at hline
        cases hi : lineInclude (cstr c) with
        | some f' =>
            have hgiven : (bufferItem (cstr c)).given = [.included f'] := by
              rw [bufferItem, hi]
              rfl
            rw [hgiven] at h
            obtain ⟨heq, hnil⟩ := List.cons.inj h
            cases heq
            exact ⟨rfl, hnil⟩
        | none =>
            have hempty : lineHosts (cstr c) = [] := by
              cases c with
              | nil => rfl
              | cons x c =>
                  rw [hrest] at hline
                  have hx : '#' = x := (List.cons.inj hline).1
                  subst hx
                  rfl
            have hquiet : (bufferItem (cstr c)).given = [] :=
              given_eq_nil_iff.mpr (of_eq_nothing_iff.mpr ⟨hi, hempty⟩)
            rw [hquiet, List.nil_append] at h
            have hmem : LineItem.included f ∈ (bufferItems r).flatMap LineItem.given :=
              h ▸ List.mem_singleton_self _
            obtain ⟨q, hq, hitem'⟩ := (mem_given_iff (i := .included f) nofun).mp hmem
            have hlen := length_of_cut (by decide) hbuf (List.ne_nil_of_mem hq)
            rw [hline] at hd
            exact absurd (of_eq_included hitem')
              (lineInclude_behind hd (by omega) (List.infix_of_mem_flatten hq))
    | none =>
        have hnone : lineInclude (cstr c) = none := by
          cases hi : lineInclude (cstr c) with
          | none => rfl
          | some f =>
              have hgiven : (bufferItem (cstr c)).given = [.included f] := by
                rw [bufferItem, hi]
                rfl
              rw [hgiven] at h
              cases hl : lineItem line with
              | nothing =>
                  rw [hl] at h
                  cases h
              | included g =>
                  have := of_eq_included hl
                  rw [hd] at this
                  cases this
              | hosts t =>
                  rw [hl] at h
                  cases h
        refine ⟨hnone, ?_⟩
        by_cases hempty : lineHosts (cstr c) = []
        · -- what is in front of the comment is blank in the line, too
          have hmem : '#' ∈ c := by
            by_contra hno
            have hfree : c.takeWhile (· ≠ '#') = c := by
              simpa using text_append_of_not_mem hno []
            have hbsfree : '#' ∉ bs.flatten := fun h => (lineBlank_ne (hfront _ h)).1 rfl
            rw [hline, text_append_of_not_mem hbsfree, text_append_of_not_mem hno] at hnul
            have hcnul :
                NUL ∉ c := fun h => hnul (List.mem_append_right _ (List.mem_append_left _ h))
            have hblank : ∀ x ∈ (cstr c).takeWhile (· ≠ '#'), lineBlank x = true :=
              xstrcln_eq_nil_iff.mp hempty
            rw [text_cstr (hfree.symm ▸ hcnul), hfree] at hblank
            exact hc (List.all_eq_true.mpr hblank)
          have htext : lineHosts line = [] := by
            rw [hline] at hnul ⊢
            rw [lineHosts_whole hfront hnul fun hno => absurd hmem hno, hempty]
          have hitem : (lineItem line).given = [] :=
            given_eq_nil_iff.mpr (of_eq_nothing_iff.mpr ⟨hd, htext⟩)
          rw [hitem] at h
          exact (List.append_eq_nil_iff.mp h).2
        · have hgiven : (bufferItem (cstr c)).given = [.hosts (lineHosts (cstr c))] := by
            rw [bufferItem, hnone, LineItem.of, if_neg hempty]
            rfl
          rw [hgiven] at h
          cases hl : lineItem line with
          | nothing =>
              rw [hl] at h
              cases h
          | included g =>
              rw [hl] at h
              exact (List.cons.inj h).2
          | hosts t =>
              rw [hl] at h
              exact (List.cons.inj h).2
  · rintro ⟨hnul, hinc, hsilent⟩
    change (bufferItem (cstr c)).given ++ (bufferItems r).flatMap LineItem.given = _
    have htext : lineHosts line = lineHosts (cstr c) := by
      rw [hline] at hnul ⊢
      exact lineHosts_whole hfront hnul fun _ => text_silent hsilent
    rw [given_eq_nil_iff_silent.mpr hsilent, List.append_nil, bufferItem, lineItem, hinc, htext]

/-- The buffer-fulls of a line give what the line says just when it is read as it stands. -/
theorem buffers_given_iff (line : List Char) :
    (bufferItems (buffers line)).flatMap LineItem.given = (lineItem line).given ↔
      ReadWhole line := by
  have hline := buffers_flatten line
  rw [ReadWhole]
  generalize hbs : (buffers line).takeWhile (fun buf => buf.all lineBlank) = bs
  generalize hrest : (buffers line).dropWhile (fun buf => buf.all lineBlank) = rest
  have hsplit : buffers line = bs ++ rest := by
    rw [← hbs, ← hrest, List.takeWhile_append_dropWhile]
  have hblank : ∀ b ∈ bs, b.all lineBlank = true := by
    intro b hb
    rw [← hbs] at hb
    exact List.mem_takeWhile_imp (p := fun buf : List Char => buf.all lineBlank) hb
  have hfront : ∀ c ∈ bs.flatten, lineBlank c = true := by
    intro c hc
    obtain ⟨b, hb, hcb⟩ := List.mem_flatten.mp hc
    exact List.all_eq_true.mp (hblank b hb) c hcb
  have hnothing : (bufferItems bs).flatMap LineItem.given = [] :=
    given_eq_nil_iff_silent.mpr fun b hb => blank_silent (hblank b hb)
  have hitems : (bufferItems (buffers line)).flatMap LineItem.given =
      (bufferItems rest).flatMap LineItem.given := by
    rw [hsplit, bufferItems, List.map_append, List.flatMap_append]
    exact congrArg (· ++ _) hnothing
  rw [hitems]
  rw [hsplit, List.flatten_append] at hline
  cases rest with
  | nil =>
      rw [List.flatten_nil, List.append_nil] at hline
      obtain ⟨hitem, hnul⟩ := blank_line (hline ▸ hfront)
      rw [hitem]
      exact iff_of_true rfl ⟨hnul, trivial⟩
  | cons c r =>
      have hc : ¬ c.all lineBlank = true := by
        have hhead := List.head_dropWhile_not (fun buf : List Char => buf.all lineBlank)
            (l := buffers line)
          (hrest ▸ List.cons_ne_nil c r)
        simp only [hrest, List.head_cons] at hhead
        simp [hhead]
      rw [List.flatten_cons] at hline
      exact whole_line_iff hline.symm hfront hc hsplit

/-- `include_file` asks for no blank behind `#include`. -/
theorem lineInclude_eq_directive_iff :
    lineInclude s = includeDirective s ↔ ∀ rest, s = "#include".toList ++ rest →
      onlyWord rest ≠ none →
      " ".toList <+: rest ∨ "\t".toList <+: rest := by
  constructor
  · rintro h rest rfl hword
    obtain ⟨w, hw⟩ := Option.ne_none_iff_exists'.mp hword
    rw [lineInclude_eq_some_iff.mpr ⟨rest, rfl, hw⟩] at h
    unfold includeDirective at h
    split at h
    · rename_i hpre
      rcases hpre with hpre | hpre
      · exact .inl ((List.prefix_append_right_inj "#include".toList).mp hpre)
      · exact .inr ((List.prefix_append_right_inj "#include".toList).mp hpre)
    · cases h
  · intro h
    cases hi : lineInclude s with
    | none =>
        cases hd : includeDirective s with
        | none => rfl
        | some f =>
            rw [lineInclude_eq_some_iff.mpr (includeDirective_eq_some hd)] at hi
            cases hi
    | some f =>
        obtain ⟨rest, rfl, hword⟩ := lineInclude_eq_some_iff.mp hi
        unfold includeDirective
        rw [if_pos]
        · exact hword.symm
        rcases h rest rfl (by rw [hword]; nofun) with hpre | hpre
        · exact .inl ((List.prefix_append_right_inj "#include".toList).mpr hpre)
        · exact .inr ((List.prefix_append_right_inj "#include".toList).mpr hpre)

/-- A line that fits the buffer is read as it stands, but for an `#include` whose file follows
without a blank. -/
theorem readWhole_short_iff (hlen : line.length ≤ 2047) (hnul : NUL ∉ line) :
    ReadWhole line ↔ ∀ rest, line = "#include".toList ++ rest → onlyWord rest ≠ none →
      " ".toList <+: rest ∨ "\t".toList <+: rest := by
  have htext : NUL ∉ line.takeWhile (· ≠ '#') := fun h => hnul ((List.takeWhile_prefix _).subset h)
  have hcstr : cstr line = line := by
    refine List.takeWhile_eq_self_iff.mpr fun c hc => ?_
    rw [decide_eq_true_eq]
    rintro rfl
    exact hnul hc
  rw [← lineInclude_eq_directive_iff, ReadWhole, and_iff_right htext]
  by_cases hblank : line.all lineBlank = true
  · have hnone : (buffers line).dropWhile (fun buf => buf.all lineBlank) = [] := by
      rw [List.dropWhile_eq_nil_iff]
      intro b hb
      refine List.all_eq_true.mpr fun c hc => List.all_eq_true.mp hblank c ?_
      rw [← buffers_flatten line]
      exact List.mem_flatten.mpr ⟨b, hb, hc⟩
    obtain ⟨hitem, -⟩ := blank_line (List.all_eq_true.mp hblank)
    have hsilent := blank_silent hblank
    rw [hcstr] at hsilent
    rw [hnone, hsilent.1, (of_eq_nothing_iff.mp hitem).1]
    simp
  · have hne : line ≠ [] := by
      rintro rfl
      exact hblank rfl
    have hfirst : [line].dropWhile (fun buf => buf.all lineBlank) = [line] :=
      List.dropWhile_cons_of_neg hblank
    rw [buffers, cut_short (by decide) hne hlen, hfirst]
    simp [hcstr]

/-! ## A file -/

/-- The buffer-fulls of a line are read as the line, whatever is done with texts and files. -/
def ReadAsLine (line : List Char) : Prop :=
  ∀ push rf ctx, runItems push rf (bufferItems (buffers line)) ctx =
    runItems push rf [lineItem line] ctx

theorem readAsLine_iff (line : List Char) : ReadAsLine line ↔ ReadWhole line := by
  rw [ReadAsLine, runItems_eq_iff, List.flatMap_singleton, buffers_given_iff]

theorem runItems_lines (push rf : WcollCtx → CStr → Read WcollCtx) {ls : List (List Char)}
    (h : ∀ line ∈ ls, ReadAsLine line) (ctx : WcollCtx) :
    runItems push rf (ls.flatMap fun line => bufferItems (buffers line)) ctx =
      runItems push rf (ls.map lineItem) ctx := by
  induction ls generalizing ctx with
  | nil => rfl
  | cons line ls ih =>
      rw [List.flatMap_cons, List.map_cons, ← List.singleton_append, runItems_append,
        runItems_append,
        h line List.mem_cons_self push rf ctx]
      exact congrArg _ (funext (ih fun l hl => h l (List.mem_cons_of_mem line hl)))

theorem readStream_fileLines (slack : CStr) (rf : WcollCtx → CStr → Read WcollCtx)
    (content : List Char) (ctx : WcollCtx) :
    readStream slack rf (fileLines content) ctx =
      runItems (pushLine slack) rf ((lines '\n' content).flatMap fun line => bufferItems
        (buffers line)) ctx := by
  rw [readStream_eq, fileLines_eq, List.map_flatMap]
  simp only [List.map_map]
  rfl

/-- Each line of a file is read as that line, whatever its text and its file give, just when it is
read as it stands; and where all lines are, the hosts of the file are those of its lines. -/
theorem read_stream_lines_iff (content : List Char) :
    ((∀ line ∈ lines '\n' content, ReadAsLine line) ↔ ∀ line ∈ lines '\n' content, ReadWhole line) ∧
      ((∀ line ∈ lines '\n' content, ReadWhole line) → ∀ slack rf ctx,
        readStream slack rf (fileLines content) ctx = readLines slack rf content ctx) := by
  have hlines : (∀ line ∈ lines '\n' content, ReadAsLine line) ↔ ∀ line ∈ lines '\n' content,
      ReadWhole line :=
    forall₂_congr fun line _ => readAsLine_iff line
  refine ⟨hlines, fun h slack rf ctx => ?_⟩
  rw [readStream_fileLines, readLines]
  exact runItems_lines _ _ (hlines.mpr h) ctx

/-- A comment that is no directive includes a file, which is not there; the end of a long comment is
a host. -/
theorem read_stream_comments :
    readStream [] (readFile ⟨[], fun _ => false, fun _ => none⟩ [] 1)
      (fileLines "#included\n".toList)
        (wcollCtxCreate ['.'] []) ≠
      readLines [] (readFile ⟨[], fun _ => false, fun _ => none⟩ [] 1) "#included\n".toList
        (wcollCtxCreate ['.'] []) ∧
    readStream [] (readFile ⟨[], fun _ => false, fun _ => none⟩ [] 1)
        (fileLines ('#' :: List.replicate 2046 'x' ++ "foo1\n".toList)) (wcollCtxCreate ['.'] []) ≠
      readLines [] (readFile ⟨[], fun _ => false, fun _ => none⟩ [] 1)
        ('#' :: List.replicate 2046 'x' ++ "foo1\n".toList) (wcollCtxCreate ['.'] []) := by
  constructor
  · decide +kernel
  · decide +kernel

end Pdsh
