import Pdsh.Err
import Pdsh.Xstring
import Pdsh.Lib.Escape

/-!
# The arguments of a command

`pipecmd` runs a command for one host. Its arguments go through
`pipecmd_format_arg`, which puts the target, the user and the rank where the
argument has `%h`, `%u` and `%n`; `execvp` then takes them up to the first null
pointer.

A pointer to a string is what can be read from there: the characters, the NUL
and the memory behind it. What is read further on is not there: such a call
gives nothing (`none`).
-/

namespace Pdsh.Exec

open Lib.Decimal Lib.Escape

/-- `struct pipe_info_struct`, as far as the arguments are made of it. -/
structure PipeInfo where
  path : CStr
  cmd : CStr
  target : CStr
  username : CStr
  rank : Int32
deriving DecidableEq, Repr

/-- `pipe_info_create`. -/
def pipe_info_create (path target user : CStr) (rank : Int32) : PipeInfo where
  path := path
  cmd := xbasename path
  target := target
  username := user
  rank := rank

/-- The `switch` on the character behind a `%`. -/
def formatEscape (e : PipeInfo) (str : Option CStr) (c : Char) : Option CStr :=
  match c with
  | 'h' => xstrcat str e.target
  | 'u' => xstrcat str e.username
  | 'n' => xstrcat str (snprintf 63 (intText 1 e.rank.toInt))
  | '%' => xstrcatchar str '%'
  | c => xstrcatchar (xstrcatchar str '%') c

/-- The loop of `pipecmd_format_arg`: what it makes of `str`, by what it does with the character
behind a `%` and with any other one, and where its pointer stands at the end. -/
def formatLoop {σ : Type} (escape plain : σ → Char → σ) (str : σ) : List Char → Option (σ × List Char)
  | [] => none
  | c :: s =>
      if c = NUL then some (str, c :: s)
      else if c = '%' then
        match s with
        | [] => none
        | x :: s => formatLoop escape plain (escape str x) s
      else formatLoop escape plain (plain str c) s

/-- `pipecmd_format_arg`. -/
def pipecmd_format_arg (e : PipeInfo) (arg : List Char) : Option (Option CStr × List Char) :=
  formatLoop (formatEscape e) xstrcatchar none arg

/-- Whether `pipecmd_format_arg` comes to the escape `%c`. -/
def consumes (c : Char) (arg : List Char) : Option Bool :=
  (formatLoop (fun cs x => cs ++ [x]) (fun cs _ => cs) [] arg).map fun r => r.1.contains c

/-- A string where it is stored. -/
structure Stored where
  str : CStr
  behind : List Char
deriving DecidableEq, Repr

/-- What its pointer reads. -/
def Stored.bytes (a : Stored) : List Char := a.str ++ NUL :: a.behind

/-- `cmd_args_create`, with the null pointer at the end. -/
def cmd_args_create (e : PipeInfo) (argv : List Stored) : Option (List (Option CStr)) :=
  (argv.mapM fun a => (pipecmd_format_arg e a.bytes).map Prod.fst).map fun args =>
    some e.cmd :: args ++ [none]

/-- The arguments `execvp` takes. -/
def execvp : List (Option CStr) → List CStr
  | some arg :: args => arg :: execvp args
  | _ => []

/-- `pipecmd`: the argument vector of the command. -/
def pipecmd (path : CStr) (args : List Stored) (target user : CStr) (rank : Int32) :
    Option (List CStr) :=
  (cmd_args_create (pipe_info_create path target user rank) args).map execvp

/-- `execcmd`: without a remote command in the arguments the line goes to a shell. -/
def execcmd (remote_argv : List Stored) (cmd : Stored) (behind : List Char) (ahost ruser : CStr)
    (rank : Int32) : Option (List CStr) :=
  match remote_argv with
  | path :: args => pipecmd path.str args ahost ruser rank
  | [] => pipecmd "sh".toList [⟨"-c".toList, behind⟩, cmd] ahost ruser rank

/-! ## What the manual says -/

/-- What one segment of an argument stands for. -/
def segmentText (e : PipeInfo) : Segment Char → CStr
  | .escape 'h' => e.target
  | .escape 'u' => e.username
  | .escape 'n' => intText 1 e.rank.toInt
  | .escape '%' => ['%']
  | .escape c => ['%', c]
  | .plain c => [c]
  | .lone => ['%']

/-- An argument with its parameters replaced. -/
def substitute (e : PipeInfo) (arg : CStr) : CStr := (segments '%' arg).flatMap (segmentText e)

variable {e : PipeInfo} {arg : CStr} {behind : List Char}

/-! ## One step of the loop -/

@[simp] theorem substitute_nil : substitute e [] = [] := rfl

theorem substitute_escape (c : Char) (s : CStr) :
    substitute e ('%' :: c :: s) = segmentText e (.escape c) ++ substitute e s := by
  rw [substitute, segments_escape, List.flatMap_cons, substitute]

theorem substitute_plain {c : Char} (hc : c ≠ '%') (s : CStr) :
    substitute e (c :: s) = c :: substitute e s := by
  rw [substitute, segments_plain hc, List.flatMap_cons, substitute]
  rfl

/-- A rank is never cut. -/
theorem snprintf_rank (rank : Int32) : snprintf 63 (intText 1 rank.toInt) = intText 1 rank.toInt := by
  have hlo := rank.le_toInt
  have hhi := rank.toInt_lt
  have hdigits : numDigits rank.toInt.natAbs ≤ 10 := (numDigits_le_iff (by decide)).mpr (by omega)
  refine List.take_of_length_le ?_
  rw [intText, List.length_append, length_pad]
  split <;> simp <;> omega

theorem formatEscape_eq {str : Option CStr} {c : Char} (hc : c ≠ NUL) :
    formatEscape e str c = some (str.getD [] ++ segmentText e (.escape c)) := by
  have hmark : '%' ≠ NUL := by decide
  unfold formatEscape
  split
  · rfl
  · rfl
  · rw [snprintf_rank]
    rfl
  · exact xstrcatchar_eq hmark
  · rw [xstrcatchar_eq hmark, xstrcatchar_eq hc, Option.getD_some, List.append_assoc, segmentText]
    · rfl
    all_goals assumption

/-! ## The loop -/

section Loop

variable {σ : Type} {escape plain : σ → Char → σ} {str : σ}

theorem formatLoop_nul : formatLoop escape plain str (NUL :: behind) = some (str, NUL :: behind) := by
  rw [formatLoop.eq_def]
  exact if_pos rfl

theorem formatLoop_escape (c : Char) (s : List Char) :
    formatLoop escape plain str ('%' :: c :: s) = formatLoop escape plain (escape str c) s := by
  rw [formatLoop.eq_def]
  exact (if_neg (by decide)).trans (if_pos rfl)

theorem formatLoop_plain {c : Char} (hnul : c ≠ NUL) (hc : c ≠ '%') (s : List Char) :
    formatLoop escape plain str (c :: s) = formatLoop escape plain (plain str c) s := by
  rw [formatLoop.eq_def]
  exact (if_neg hnul).trans (if_neg hc)

/-- A whole argument is read up to its NUL, segment by segment. -/
theorem formatLoop_whole (hnul : NUL ∉ arg) (h : Whole '%' arg) :
    formatLoop escape plain str (arg ++ NUL :: behind) =
      some ((segments '%' arg).foldl (Segment.apply escape plain) str, NUL :: behind) := by
  induction arg using segments_induction '%' generalizing str with
  | nil => exact formatLoop_nul
  | lone => exact absurd h not_whole_lone
  | escape c s ih =>
      rw [whole_escape] at h
      simp only [List.mem_cons, not_or] at hnul
      rw [List.cons_append, List.cons_append, formatLoop_escape, ih hnul.2.2 h, segments_escape,
        List.foldl_cons]
      rfl
  | plain c s hc ih =>
      rw [whole_plain hc] at h
      simp only [List.mem_cons, not_or] at hnul
      rw [List.cons_append, formatLoop_plain (Ne.symm hnul.1) hc, ih hnul.2 h, segments_plain hc,
        List.foldl_cons]
      rfl

/-- Behind an open `%` the loop takes the NUL for a character and goes on in what follows it. -/
theorem formatLoop_open (hnul : NUL ∉ arg) (h : ¬ Whole '%' arg) :
    ∃ str', formatLoop escape plain str (arg ++ NUL :: behind) = formatLoop escape plain str' behind := by
  induction arg using segments_induction '%' generalizing str with
  | nil => exact absurd whole_nil h
  | lone => exact ⟨_, formatLoop_escape NUL behind⟩
  | escape c s ih =>
      rw [whole_escape] at h
      simp only [List.mem_cons, not_or] at hnul
      rw [List.cons_append, List.cons_append, formatLoop_escape]
      exact ih hnul.2.2 h
  | plain c s hc ih =>
      rw [whole_plain hc] at h
      simp only [List.mem_cons, not_or] at hnul
      rw [List.cons_append, formatLoop_plain (Ne.symm hnul.1) hc]
      exact ih hnul.2 h

/-- The pointer only moves forward. -/
theorem formatLoop_stop {s : List Char} {r : σ × List Char}
    (h : formatLoop escape plain str s = some r) : r.2 <:+ s := by
  fun_induction formatLoop escape plain str s with
  | case1 => cases h
  | case2 str s =>
      cases h
      exact List.suffix_rfl
  | case3 => cases h
  | case4 str x s _ ih => exact (ih h).trans ((List.suffix_cons x s).trans (List.suffix_cons _ _))
  | case5 str c s hnul hmark ih => exact (ih h).trans (List.suffix_cons c s)

end Loop

/-- The segments of an argument make the string of the manual, if there are any. -/
theorem foldl_format (hnul : NUL ∉ arg) (h : Whole '%' arg) (str : Option CStr) :
    (segments '%' arg).foldl (Segment.apply (formatEscape e) xstrcatchar) str =
      if arg = [] then str else some (str.getD [] ++ substitute e arg) := by
  induction arg using segments_induction '%' generalizing str with
  | nil => rfl
  | lone => exact absurd h not_whole_lone
  | escape c s ih =>
      rw [whole_escape] at h
      simp only [List.mem_cons, not_or] at hnul
      rw [segments_escape, List.foldl_cons, Segment.apply, formatEscape_eq (Ne.symm hnul.2.1),
        ih hnul.2.2 h, if_neg (List.cons_ne_nil _ _), substitute_escape]
      split
      · rename_i hs
        rw [hs, substitute_nil, List.append_nil]
      · rw [Option.getD_some, List.append_assoc]
  | plain c s hc ih =>
      rw [whole_plain hc] at h
      simp only [List.mem_cons, not_or] at hnul
      rw [segments_plain hc, List.foldl_cons, Segment.apply, xstrcatchar_eq (Ne.symm hnul.1),
        ih hnul.2 h, if_neg (List.cons_ne_nil _ _), substitute_plain hc]
      split
      · rename_i hs
        rw [hs, substitute_nil]
      · rw [Option.getD_some, List.append_assoc]
        rfl

theorem pipecmd_format_arg_whole (hnul : NUL ∉ arg) (h : Whole '%' arg) :
    pipecmd_format_arg e (arg ++ NUL :: behind) =
      some (if arg = [] then none else some (substitute e arg), NUL :: behind) := by
  rw [pipecmd_format_arg, formatLoop_whole hnul h, foldl_format hnul h]
  rfl

/-- The string is the one the manual describes and nothing behind its NUL is read exactly when
the argument is not empty and every `%` at its end has a partner. -/
theorem pipecmd_format_arg_iff (e : PipeInfo) (behind : List Char) {arg : CStr} (hnul : NUL ∉ arg) :
    pipecmd_format_arg e (arg ++ NUL :: behind) = some (some (substitute e arg), NUL :: behind) ↔
      arg ≠ [] ∧ Even (trailing '%' arg).length := by
  rw [← whole_iff_even]
  by_cases hwhole : Whole '%' arg
  · rw [pipecmd_format_arg_whole hnul hwhole]
    by_cases hnil : arg = []
    · simp [hnil]
    · simp [hnil, hwhole]
  · obtain ⟨str, hloop⟩ : ∃ str, pipecmd_format_arg e (arg ++ NUL :: behind) =
        formatLoop (formatEscape e) xstrcatchar str behind := formatLoop_open hnul hwhole
    rw [hloop]
    constructor
    · intro hstop
      have hsuffix := (formatLoop_stop hstop).length_le
      rw [List.length_cons] at hsuffix
      omega
    · rintro ⟨-, hw⟩
      exact absurd hw hwhole

/-- Escapes, and another string behind the argument. -/
theorem pipecmd_format_arg_echo :
    pipecmd_format_arg ⟨"echo".toList, "echo".toList, "foo".toList, "me".toList, 3⟩
        ("100%%-%h%%".toList ++ NUL :: "bar".toList) = some (some "100%-foo%".toList, NUL :: "bar".toList) :=
  (@pipecmd_format_arg_iff _ "bar".toList "100%%-%h%%".toList (by decide)).mpr (by decide)

/-- The next argument is taken for a part of `100%`. -/
theorem pipecmd_format_arg_over :
    let e : PipeInfo := ⟨"echo".toList, "echo".toList, "foo".toList, "me".toList, 3⟩
    substitute e "100%".toList = "100%".toList ∧
    pipecmd_format_arg e ("100%".toList ++ NUL :: ("bar".toList ++ [NUL])) =
      some (some "100%bar".toList, [NUL]) := by
  decide

/-! ## The vector -/

variable {l : List Stored} {args : List (Option CStr)}

theorem mapM_format_whole (h : ∀ a ∈ l, NUL ∉ a.str ∧ Whole '%' a.str) :
    (l.mapM fun a => (pipecmd_format_arg e a.bytes).map Prod.fst) =
      some (l.map fun a => if a.str = [] then none else some (substitute e a.str)) := by
  induction l with
  | nil => rfl
  | cons a l ih =>
      obtain ⟨hnul, hwhole⟩ := h a (by simp)
      have hfirst : (pipecmd_format_arg e a.bytes).map Prod.fst =
          some (if a.str = [] then none else some (substitute e a.str)) := by
        rw [Stored.bytes, pipecmd_format_arg_whole hnul hwhole]
        rfl
      rw [List.mapM_cons, hfirst, ih fun b hb => h b (List.mem_cons_of_mem a hb)]
      rfl

/-- One string that is read past the end of the memory is enough. -/
theorem mapM_format_open {a : CStr} (ha : ⟨a, []⟩ ∈ l) (hnul : NUL ∉ a) (hopen : ¬ Whole '%' a) :
    (l.mapM fun a => (pipecmd_format_arg e a.bytes).map Prod.fst) = none := by
  have hnone : (pipecmd_format_arg e (Stored.bytes ⟨a, []⟩)).map Prod.fst = none := by
    obtain ⟨str, hloop⟩ : ∃ str, pipecmd_format_arg e (a ++ [NUL]) =
        formatLoop (formatEscape e) xstrcatchar str [] := formatLoop_open hnul hopen
    rw [Stored.bytes, hloop]
    rfl
  induction l with
  | nil => simp at ha
  | cons b l ih =>
      rw [List.mapM_cons]
      rcases List.mem_cons.mp ha with rfl | hmem
      · rw [hnone]
        rfl
      · rw [ih hmem]
        cases (pipecmd_format_arg e b.bytes).map Prod.fst <;> rfl

@[simp] theorem execvp_some (l : List CStr) : execvp (l.map some ++ [none]) = l := by
  induction l with
  | nil => rfl
  | cons a l ih =>
      rw [List.map_cons, List.cons_append, execvp, ih]

/-- A null pointer ends the vector. -/
theorem execvp_length_lt (h : none ∈ args) (rest : List (Option CStr)) :
    (execvp (args ++ rest)).length < args.length := by
  induction args with
  | nil => simp at h
  | cons a args ih =>
      cases a with
      | none => simp [execvp]
      | some s =>
          have hlt := ih (by simpa using h)
          simp only [List.cons_append, execvp, List.length_cons]
          omega

/-- Of whole arguments that are not empty each is formatted in its place. -/
theorem pipecmd_whole (path target user : CStr) (rank : Int32)
    (h : ∀ a ∈ l, NUL ∉ a.str ∧ Whole '%' a.str ∧ a.str ≠ []) :
    pipecmd path l target user rank = some (xbasename path ::
      (l.map Stored.str).map (substitute (pipe_info_create path target user rank))) := by
  have hargs : (l.map fun a => if a.str = [] then none
        else some (substitute (pipe_info_create path target user rank) a.str)) =
      ((l.map Stored.str).map (substitute (pipe_info_create path target user rank))).map some := by
    rw [List.map_map, List.map_map]
    refine List.map_congr_left fun a ha => ?_
    exact if_neg (h a ha).2.2
  rw [pipecmd, cmd_args_create, mapM_format_whole fun a ha => ⟨(h a ha).1, (h a ha).2.1⟩, hargs,
    Option.map_some, Option.map_some, ← List.map_cons, execvp_some]
  rfl

/-- A line typed in arrives at the shell in one piece. -/
theorem execcmd_shell {cmd : Stored} (hnul : NUL ∉ cmd.str) (hne : cmd.str ≠ []) (h : Whole '%' cmd.str)
    (behind : List Char) (ahost ruser : CStr) (rank : Int32) :
    execcmd [] cmd behind ahost ruser rank = some ["sh".toList, "-c".toList,
      substitute (pipe_info_create "sh".toList ahost ruser rank) cmd.str] := by
  rw [execcmd, pipecmd_whole]
  · rfl
  · intro a ha
    simp only [List.mem_cons, List.not_mem_nil, or_false] at ha
    rcases ha with rfl | rfl
    · exact ⟨show NUL ∉ "-c".toList by decide, show Whole '%' "-c".toList by decide,
        show "-c".toList ≠ [] by decide⟩
    · exact ⟨hnul, h, hne⟩

/-- Every argument arrives formatted and in its place, whatever lies behind the strings, exactly
when none is empty and every `%` at the end of one has a partner. -/
theorem pipecmd_args_iff (path target user : CStr) (rank : Int32) {argv : List CStr}
    (hnul : ∀ a ∈ argv, NUL ∉ a) :
    (∀ l : List Stored, l.map Stored.str = argv →
      pipecmd path l target user rank = some (xbasename path ::
        argv.map (substitute (pipe_info_create path target user rank)))) ↔
      ∀ a ∈ argv, a ≠ [] ∧ Even (trailing '%' a).length := by
  constructor
  · intro hall a ha
    -- nothing can be read behind the strings
    let l : List Stored := argv.map fun a => ⟨a, []⟩
    have hstr : l.map Stored.str = argv := by
      rw [List.map_map]
      exact List.map_id _
    have hvector := hall l hstr
    have hwhole : ∀ a ∈ argv, Whole '%' a := by
      intro a ha
      by_contra hopen
      have hmem : ⟨a, []⟩ ∈ l := List.mem_map.mpr ⟨a, ha, rfl⟩
      rw [pipecmd, cmd_args_create, mapM_format_open hmem (hnul a ha) hopen] at hvector
      cases hvector
    refine ⟨?_, whole_iff_even.mp (hwhole a ha)⟩
    rintro rfl
    have hstored : ∀ a ∈ l, NUL ∉ a.str ∧ Whole '%' a.str := by
      intro b hb
      obtain ⟨a, ha, rfl⟩ := List.mem_map.mp hb
      exact ⟨hnul a ha, hwhole a ha⟩
    rw [pipecmd, cmd_args_create, mapM_format_whole hstored, Option.map_some, Option.map_some,
      Option.some.injEq] at hvector
    have hshort := @execvp_length_lt (some (pipe_info_create path target user rank).cmd ::
      l.map fun a => if a.str = [] then none
        else some (substitute (pipe_info_create path target user rank) a.str))
      (List.mem_cons_of_mem _ (List.mem_map.mpr ⟨⟨[], []⟩, List.mem_map.mpr ⟨[], ha, rfl⟩, rfl⟩)) [none]
    rw [hvector] at hshort
    simp [l] at hshort
  · rintro h l rfl
    refine pipecmd_whole path target user rank fun a ha => ?_
    have hmem : a.str ∈ l.map Stored.str := List.mem_map.mpr ⟨a, ha, rfl⟩
    exact ⟨hnul _ hmem, whole_iff_even.mpr (h _ hmem).2, (h _ hmem).1⟩

/-- Two arguments, one with a parameter. -/
theorem pipecmd_args_two :
    pipecmd "/bin/ssh".toList [⟨"-x".toList, "%h".toList⟩, ⟨"%h".toList, []⟩] "foo".toList "me".toList 0 =
      some ["ssh".toList, "-x".toList, "foo".toList] :=
  (@pipecmd_args_iff "/bin/ssh".toList "foo".toList "me".toList 0 ["-x".toList, "%h".toList]
    (by decide)).mpr (by decide) [⟨"-x".toList, "%h".toList⟩, ⟨"%h".toList, []⟩] rfl

/-- An empty argument takes those behind it along. -/
theorem pipecmd_args_cut :
    let l : List Stored := ["a".toList, [], "b".toList].map fun a => ⟨a, [NUL]⟩
    (l.map Stored.str).map (substitute (pipe_info_create "echo".toList "foo".toList "me".toList 0)) =
      ["a".toList, [], "b".toList] ∧
    pipecmd "echo".toList l "foo".toList "me".toList 0 = some ["echo".toList, "a".toList] := by
  decide

end Pdsh.Exec
