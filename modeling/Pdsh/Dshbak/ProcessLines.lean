import Pdsh.Dshbak.Coalesce
import Pdsh.Lib.Backtrack
import Pdsh.Lib.Lines

/-!
# The lines `dshbak` reads

`process_lines` matches every line of its input with one pattern, which takes the tag off and keeps
what follows under it. The pattern ends in a newline, so a last line without one does not match and
is ignored as if it had no tag (`tagged_output_kept_iff`).
-/

namespace Pdsh.Dshbak

open Lib Lib.Backtrack Lib.Lines

/-- `m/^\s*(\S+?)\s*: ?(.*\n)$/`. -/
def linePattern : List (Item Char) :=
  [.greedy 0 isspace, .lazy 1 fun c => !isspace c, .greedy 0 isspace, .one (· = ':'),
    .optional (· = ' '), .greedy 0 (· ≠ '\n'), .one (· = '\n'), .finish (· = '\n')]

/-- `my ($tag, $data)` of a line; none when `$tag` is not defined or empty. -/
def tagData (line : CStr) : Option (CStr × CStr) :=
  match run linePattern line with
  | some [_, tag, _, _, _, data, newline, _] =>
      if tag ≠ [] then some (tag, data ++ newline) else none
  | _ => none

/-- `process_lines`. -/
def processLines (stdin : CStr) : Table :=
  ⟨collect Prod.fst (fun data x => data ++ [x.2]) [] ((lines '\n' stdin).filterMap tagData),
    collect_nodup _⟩

/-- `do_output_normal`. -/
def doOutputNormal (lines : Table) (tag : CStr) : Group := ⟨[tag], (lines.get tag).getD []⟩

/-- What `dshbak` without an option prints. -/
def normal (P : Perl) (lines : Table) : List Group :=
  (sortn P (lines.rows.map Prod.fst)).map (doOutputNormal lines)

/-! ## Tagged lines -/

/-- A line `tag: text`. -/
structure TaggedLine where
  tag : CStr
  text : CStr
  tag_ne_nil : tag ≠ []
  tag_plain : ∀ c ∈ tag, isspace c = false ∧ c ≠ ':'
  text_plain : '\n' ∉ text

/-- The line without its newline. -/
def TaggedLine.line (l : TaggedLine) : CStr := l.tag ++ ':' :: ' ' :: l.text

/-- The input of these lines; the last one ends with a newline or not. -/
def stream (ls : List TaggedLine) (ended : Bool) : CStr :=
  if ended then ls.flatMap fun l => l.line ++ ['\n']
  else (ls.flatMap fun l => l.line ++ ['\n']).dropLast

/-- The texts of the lines with a tag. -/
def textsOf (ls : List TaggedLine) (tag : CStr) : List CStr :=
  (ls.filter fun l => l.tag = tag).map TaggedLine.text

/-- `chomp`. -/
def chomp (line : CStr) : CStr := if line.getLast? = some '\n' then line.dropLast else line

/-- Every tag has the texts of its lines, in the table and under its header. -/
def KeepsTexts (P : Perl) (ls : List TaggedLine) (ended : Bool) : Prop :=
  ∀ tag, (((processLines (stream ls ended)).get tag).getD []).map chomp = textsOf ls tag ∧
    ∀ g, g ∈ normal P (processLines (stream ls ended)) ∨
        g ∈ coalesced P (processLines (stream ls ended)) →
      tag ∈ g.tags → g.data.map chomp = textsOf ls tag

namespace TaggedLine

variable {l : TaggedLine}

theorem line_plain (l : TaggedLine) : '\n' ∉ l.line := by
  intro h
  rcases List.mem_append.mp h with h | h
  · exact absurd (l.tag_plain _ h).1 (by decide)
  · simp only [List.mem_cons] at h
    rcases h with h | h | h
    · exact absurd h (by decide)
    · exact absurd h (by decide)
    · exact l.text_plain h

theorem head_plain (l : TaggedLine) (s : CStr) : ∀ c ∈ (l.tag ++ s).head?, isspace c = false := by
  obtain ⟨d, tag, htag⟩ := List.exists_cons_of_ne_nil l.tag_ne_nil
  intro c hc
  rw [htag] at hc
  obtain rfl : d = c := by simpa using hc
  exact (l.tag_plain d (by simp [htag])).1

/-- The pattern takes the tag and leaves the text. -/
theorem run_line (l : TaggedLine) : run linePattern (l.line ++ ['\n']) =
    some [[], l.tag, [], [':'], [' '], l.text, ['\n'], []] := by
  have htext : run [.greedy 0 (· ≠ '\n'), .one (· = '\n'), .finish (· = '\n')]
      (l.text ++ ['\n']) = some [l.text, ['\n'], []] := by
    have hfinish : run [.finish (· = '\n')] ([] : List Char) = some [[]] := rfl
    refine run_greedy l.text (fun c hc => ?_) (by simp) (run_one (by simp) hfinish)
    have hne : c ≠ '\n' := by
      rintro rfl
      exact l.text_plain hc
    simpa using hne
  have htail : run [.greedy 0 isspace, .one (· = ':'), .optional (· = ' '), .greedy 0 (· ≠ '\n'),
      .one (· = '\n'), .finish (· = '\n')] (':' :: ' ' :: (l.text ++ ['\n'])) =
      some [[], [':'], [' '], l.text, ['\n'], []] := by
    have hcolon : ∀ c ∈ (':' :: ' ' :: (l.text ++ ['\n'])).head?, isspace c = false := by
      intro c hc
      obtain rfl : ':' = c := by simpa using hc
      rfl
    exact run_greedy [] (by simp) hcolon (run_one (by simp) (run_optional (by simp) htext))
  have htag : run [.lazy 1 fun c => !isspace c, .greedy 0 isspace, .one (· = ':'),
      .optional (· = ' '), .greedy 0 (· ≠ '\n'), .one (· = '\n'), .finish (· = '\n')]
      (l.tag ++ ':' :: ' ' :: (l.text ++ ['\n'])) =
      some [l.tag, [], [':'], [' '], l.text, ['\n'], []] := by
    refine run_lazy (fun c hc => ?_) (List.length_pos_iff.mpr l.tag_ne_nil) (fun m _ hlt => ?_)
      htail
    · rw [(l.tag_plain c hc).1]
      rfl
    -- a shorter tag has a character of the tag behind it, which is no colon
    · refine run_greedy_one_none fun c hc => ?_
      have hmem : c ∈ l.tag := by
        rw [List.head?_drop, List.getElem?_append_left hlt] at hc
        exact List.mem_of_getElem? hc
      exact ⟨(l.tag_plain c hmem).1, by simpa using (l.tag_plain c hmem).2⟩
  have hline : l.line ++ ['\n'] = l.tag ++ ':' :: ' ' :: (l.text ++ ['\n']) := by simp [line]
  rw [hline]
  exact run_greedy [] (by simp) (l.head_plain _) htag

theorem tagData_line (l : TaggedLine) :
    tagData (l.line ++ ['\n']) = some (l.tag, l.text ++ ['\n']) := by
  rw [tagData, l.run_line]
  simp only
  rw [if_pos l.tag_ne_nil]

/-- A line without a newline is ignored. -/
theorem tagData_open (l : TaggedLine) : tagData l.line = none := by
  have hrun : run linePattern l.line = none := by
    rw [Option.eq_none_iff_forall_ne_some]
    intro parts h
    obtain ⟨c, hc, hnewline⟩ := exists_of_one (p := (· = '\n')) (by simp [linePattern]) h
    obtain rfl : c = '\n' := by simpa using hnewline
    exact l.line_plain hc
  rw [tagData, hrun]

theorem line_ne_nil (l : TaggedLine) : l.line ≠ [] := by simp [line]

end TaggedLine

/-! ## The input as lines -/

theorem lines_stream_append (ls : List TaggedLine) (s : CStr) :
    lines '\n' ((ls.flatMap fun l => l.line ++ ['\n']) ++ s) =
      (ls.map fun l => l.line ++ ['\n']) ++ lines '\n' s := by
  induction ls with
  | nil => rfl
  | cons l ls ih =>
      have hsplit : ((l :: ls).flatMap fun l => l.line ++ ['\n']) ++ s =
          l.line ++ '\n' :: ((ls.flatMap fun l => l.line ++ ['\n']) ++ s) := by simp
      rw [hsplit, lines_line _ _ l.line_plain, ih]
      rfl

/-- What is read of lines that all end with a newline. -/
theorem read_ended (ls : List TaggedLine) : (lines '\n' (stream ls true)).filterMap tagData =
    ls.map fun l => (l.tag, l.text ++ ['\n']) := by
  have hlines := lines_stream_append ls []
  rw [List.append_nil, lines, List.append_nil] at hlines
  rw [stream, if_pos rfl, hlines, List.filterMap_map]
  refine (List.filterMap_congr fun l _ => l.tagData_line).trans ?_
  rw [List.filterMap_eq_map']

/-- Without a newline at the end the last line is not read. -/
theorem read_open (ls : List TaggedLine) (l : TaggedLine) :
    (lines '\n' (stream (ls ++ [l]) false)).filterMap tagData =
      ls.map fun l => (l.tag, l.text ++ ['\n']) := by
  have hstream : stream (ls ++ [l]) false = (ls.flatMap fun l => l.line ++ ['\n']) ++ l.line := by
    rw [stream, if_neg Bool.false_ne_true, List.flatMap_append, List.flatMap_singleton,
      ← List.append_assoc, List.dropLast_concat]
  have hread := read_ended ls
  have hlines := lines_stream_append ls []
  rw [List.append_nil, lines, List.append_nil] at hlines
  rw [stream, if_pos rfl, hlines] at hread
  rw [hstream, lines_stream_append, lines_open l.line_plain l.line_ne_nil, List.filterMap_append,
    hread, List.filterMap_cons_none l.tagData_open, List.filterMap_nil, List.append_nil]

/-! ## The table -/

theorem foldl_push (xs : List (CStr × CStr)) (data : List CStr) :
    xs.foldl (fun data x => data ++ [x.2]) data = data ++ xs.map Prod.snd := by
  induction xs generalizing data with
  | nil => simp
  | cons x xs ih => rw [List.foldl_cons, ih, List.append_assoc]; rfl

/-- The list of a tag has the data of its lines, in their order. -/
theorem processLines_get (stdin tag : CStr) : ((processLines stdin).get tag).getD [] =
    (((lines '\n' stdin).filterMap tagData).filter fun x => x.1 = tag).map Prod.snd := by
  cases hget : (processLines stdin).get tag with
  | some data =>
      have hrow : (tag, data) ∈ collect Prod.fst (fun data x => data ++ [x.2]) []
        ((lines '\n' stdin).filterMap tagData) := Table.get_eq_some_iff.mp hget
      obtain ⟨-, hdata⟩ := mem_collect_iff.mp hrow
      rw [foldl_push, List.nil_append] at hdata
      exact hdata
  | none =>
      have hnone : (((lines '\n' stdin).filterMap tagData).filter fun x => x.1 = tag) = [] := by
        rw [List.filter_eq_nil_iff]
        intro x hx heq
        have hkey : tag ∈ (collect Prod.fst (fun data x => data ++ [x.2]) []
            ((lines '\n' stdin).filterMap tagData)).map Prod.fst :=
          mem_keys_collect_iff.mpr ⟨x, hx, by simpa using heq⟩
        exact Table.get_eq_none_iff.mp hget hkey
      rw [hnone]
      rfl

theorem chomp_text (l : TaggedLine) : chomp (l.text ++ ['\n']) = l.text := by simp [chomp]

theorem map_chomp (ls : List TaggedLine) (tag : CStr) :
    (((ls.map fun l => (l.tag, l.text ++ ['\n'])).filter fun x => x.1 = tag).map Prod.snd).map
      chomp =
      textsOf ls tag := by
  rw [List.filter_map, List.map_map, List.map_map, textsOf]
  exact List.map_congr_left fun l _ => chomp_text l

/-- What is printed under the header of a tag is what the table has for it. -/
theorem printed_get {P : Perl} {table : Table} {g : Group} {tag : CStr}
    (hg : g ∈ normal P table ∨ g ∈ coalesced P table) (htag : tag ∈ g.tags) :
    g.data = (table.get tag).getD [] := by
  rcases hg with hg | hg
  · obtain ⟨tag', -, rfl⟩ := List.mem_map.mp hg
    obtain rfl : tag = tag' := List.mem_singleton.mp htag
    rfl
  · have hrow := ((coalesced_grouped P table).mem_tags g hg tag).mp htag
    rw [Table.get_eq_some_iff.mpr hrow]
    rfl

/-- Every tag has the texts of its lines exactly when the last line ends with a newline. -/
theorem tagged_output_kept_iff (P : Perl) (ls : List TaggedLine) (ended : Bool) :
    KeepsTexts P ls ended ↔ ended ∨ ls = [] := by
  constructor
  · intro hkeeps
    by_contra hno
    obtain ⟨hopen, hne⟩ := not_or.mp hno
    obtain rfl : ended = false := by simpa using hopen
    obtain ⟨init, l, rfl⟩ := List.eq_nil_or_concat' ls |>.resolve_left hne
    have hlost := (hkeeps l.tag).1
    rw [processLines_get, read_open, map_chomp, textsOf, textsOf, List.filter_append,
      List.map_append] at hlost
    have hlength := congrArg List.length hlost
    simp at hlength
  · intro hended
    have hread : (lines '\n' (stream ls ended)).filterMap tagData =
        ls.map fun l => (l.tag, l.text ++ ['\n']) := by
      rcases hended with rfl | rfl
      · exact read_ended ls
      · cases ended <;> rfl
    intro tag
    have hget : (((processLines (stream ls ended)).get tag).getD []).map chomp =
        textsOf ls tag := by
      rw [processLines_get, hread, map_chomp]
    refine ⟨hget, fun g hg htag => ?_⟩
    rw [printed_get hg htag, hget]

/-- `host1: out`. -/
def oneLine : TaggedLine where
  tag := "host1".toList
  text := "out".toList
  tag_ne_nil := by decide
  tag_plain := by
    intro c hc
    have hall : "host1".toList.all (fun c => !isspace c && c != ':') = true := by decide
    simpa using List.all_eq_true.mp hall c hc
  text_plain := by decide

/-- Without the newline there is nothing under `host1`. -/
theorem last_line_lost : stream [oneLine] false = "host1: out".toList ∧
    (processLines "host1: out".toList).get "host1".toList = none ∧
    (((processLines (stream [oneLine] false)).get "host1".toList).getD []).map chomp ≠
      textsOf [oneLine] "host1".toList :=
  ⟨rfl, rfl, by decide⟩

end Pdsh.Dshbak
