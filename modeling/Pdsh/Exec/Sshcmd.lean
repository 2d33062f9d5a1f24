import Pdsh.Exec.Pipecmd
import Pdsh.Hostlist.Token

/-!
# The ssh command

The words of `PDSH_SSH_ARGS` are kept in a list. For each target `fixup_ssh_args`
adds `-l%u` and `%h` where no word has them, the words of the remote command are
appended, and `pipecmd` formats all of them.

Whether a word has a parameter is decided by `arg_has_parameter`, which looks at
the first place where the two characters stand; the formatter goes by where a
`%` is an escape (`fixup_ssh_args_iff`). And the formatter does not know which
words are those of the remote command (`sshcmd_remote_iff`).
-/

namespace Pdsh.Exec

open Lib.Escape

/-! ## The words for ssh -/

/-- `DEFAULT_SSH_ARGS`. -/
def DEFAULT_SSH_ARGS : CStr := "-2 -a -x %h".toList

/-- `sshcmd_args_init`, on `PDSH_SSH_ARGS_APPEND` and `PDSH_SSH_ARGS`. -/
def sshcmd_args_init (append args : Option CStr) : List CStr :=
  let str : CStr := (append.map fun val => val ++ [' ']).getD []
  tokens (fun c => c = ' ') (str ++ args.getD DEFAULT_SSH_ARGS)

/-- `ssh_args_prepend_timeout`, where `configure` found the text of the option. -/
def ssh_args_prepend_timeout (option : Int32 → CStr) (timeout : Int32) (l : List CStr) : List CStr :=
  if timeout ≤ 0 then l else snprintf 64 (option timeout) :: l

/-- `mod_ssh_postop`: the list all targets start from. -/
def mod_ssh_postop (append args : Option CStr) (option : Int32 → CStr) (connect_timeout : Int32)
    (dshpath : Option CStr) : List CStr :=
  ssh_args_prepend_timeout option connect_timeout (sshcmd_args_init append args) ++ dshpath.toList

/-- `arg_has_parameter`. -/
def arg_has_parameter (arg s : CStr) : Bool :=
  match strstr s arg with
  | none => false
  | some k => k = 0 ∨ arg[k - 1]? ≠ some '%'

/-- `list_find`, and `list_insert` where it stopped. -/
def listFindInsert (p : CStr → Bool) (x : CStr) : List CStr → List CStr
  | [] => [x]
  | arg :: l => if p arg then x :: arg :: l else arg :: listFindInsert p x l

/-- `fixup_ssh_args`. -/
def fixup_ssh_args (ssh_args_list : List CStr) (need_user : Bool) : List CStr :=
  let got_user := ssh_args_list.any fun arg => need_user && arg_has_parameter arg ['%', 'u']
  let got_host := ssh_args_list.any fun arg => arg_has_parameter arg ['%', 'h']
  let l :=
    if need_user ∧ ¬ got_user then
      if got_host then
        listFindInsert (fun arg => arg_has_parameter arg ['%', 'h']) "-l%u".toList ssh_args_list
      else ssh_args_list ++ ["-l%u".toList]
    else ssh_args_list
  if got_host then l else l ++ ["%h".toList]

/-- `ssh_argv_create`. -/
def ssh_argv_create (arg_list remote_argv : List CStr) : List CStr := arg_list ++ remote_argv

/-- The strings of a vector, each with the memory behind it. -/
def store (behind : Nat → List Char) (argv : List CStr) : List Stored :=
  argv.mapIdx fun i str => ⟨str, behind i⟩

/-- `sshcmd`: the argument vector of the ssh command. -/
def sshcmd (pcp : Bool) (ssh_args_list remote_argv : List CStr) (ahost luser ruser cmd : CStr)
    (rank : Int32) (behind : Nat → List Char) : Option (List CStr) :=
  let remote_argv := if pcp ∨ remote_argv = [] then [cmd] else remote_argv
  let args_list := fixup_ssh_args ssh_args_list (strcmp luser ruser ≠ 0)
  pipecmd "ssh".toList (store behind (ssh_argv_create args_list remote_argv)) ahost ruser rank

@[simp] theorem store_str (behind : Nat → List Char) (argv : List CStr) :
    (store behind argv).map Stored.str = argv := by
  refine List.ext_getElem (by simp [store]) fun i _ _ => ?_
  simp [store]

/-! ## The words of the list -/

/-- A string that is there and has no NUL in it. -/
def Word (w : CStr) : Prop := w ≠ [] ∧ NUL ∉ w

instance (w : CStr) : Decidable (Word w) := inferInstanceAs (Decidable (_ ∧ _))

theorem word_of_tokens {sep : Char → Bool} {str w : CStr} (hnul : NUL ∉ str) (h : w ∈ tokens sep str) :
    Word w := by
  obtain ⟨before, after, rfl, -, hw⟩ := token_spec h
  refine ⟨hw.ne_nil, fun hc => hnul ?_⟩
  rw [List.append_assoc]
  exact List.mem_append_right _ (List.mem_append_left _ hc)

/-- All words for ssh have something in them. -/
theorem mod_ssh_postop_word {append args : Option CStr} {option : Int32 → CStr} {dshpath : Option CStr}
    (happend : ∀ val ∈ append, NUL ∉ val) (hargs : ∀ val ∈ args, NUL ∉ val)
    (hoption : ∀ timeout, Word (option timeout)) (hdshpath : ∀ val ∈ dshpath, Word val)
    (connect_timeout : Int32) :
    ∀ w ∈ mod_ssh_postop append args option connect_timeout dshpath, Word w := by
  have hinit : ∀ w ∈ sshcmd_args_init append args, Word w := by
    intro w hw
    refine word_of_tokens ?_ hw
    rw [List.mem_append, not_or]
    constructor
    · cases append with
      | none => exact List.not_mem_nil
      | some val =>
          show NUL ∉ val ++ [' ']
          rw [List.mem_append, not_or]
          exact ⟨happend val rfl, by decide⟩
    · cases args with
      | none => decide
      | some val => exact hargs val rfl
  intro w hw
  rcases List.mem_append.mp hw with hmem | hmem
  · unfold ssh_args_prepend_timeout at hmem
    split at hmem
    · exact hinit w hmem
    · rcases List.mem_cons.mp hmem with rfl | hmem
      · obtain ⟨hne, hnul⟩ := hoption connect_timeout
        refine ⟨?_, fun hc => hnul (List.mem_of_mem_take hc)⟩
        simp [snprintf, hne]
      · exact hinit w hmem
  · exact hdshpath w (Option.mem_toList.mp hmem)

theorem listFindInsert_perm (p : CStr → Bool) (x : CStr) (l : List CStr) :
    (listFindInsert p x l).Perm (l ++ [x]) := by
  induction l with
  | nil => exact List.Perm.refl _
  | cons arg l ih =>
      rw [listFindInsert]
      split
      · exact (List.perm_append_singleton x (arg :: l)).symm
      · exact ih.cons arg

/-- What is added, in whatever place. -/
theorem fixup_ssh_args_perm (ws : List CStr) (need_user : Bool) :
    (fixup_ssh_args ws need_user).Perm (ws ++
      (if need_user ∧ ∀ w ∈ ws, arg_has_parameter w ['%', 'u'] = false then ["-l%u".toList] else []) ++
      if ∀ w ∈ ws, arg_has_parameter w ['%', 'h'] = false then ["%h".toList] else []) := by
  have huser : (need_user = true ∧ ¬ (ws.any fun w => need_user && arg_has_parameter w ['%', 'u']) = true) ↔
      (need_user = true ∧ ∀ w ∈ ws, arg_has_parameter w ['%', 'u'] = false) := by
    cases need_user <;> simp
  have hhost : (ws.any fun w => arg_has_parameter w ['%', 'h']) = true ↔
      ¬ ∀ w ∈ ws, arg_has_parameter w ['%', 'h'] = false := by simp
  unfold fixup_ssh_args
  simp only [huser, hhost]
  have hfirst : (if need_user = true ∧ ∀ w ∈ ws, arg_has_parameter w ['%', 'u'] = false then
        if ¬ ∀ w ∈ ws, arg_has_parameter w ['%', 'h'] = false then
          listFindInsert (fun arg => arg_has_parameter arg ['%', 'h']) "-l%u".toList ws
        else ws ++ ["-l%u".toList]
      else ws).Perm (ws ++
        if need_user = true ∧ ∀ w ∈ ws, arg_has_parameter w ['%', 'u'] = false then ["-l%u".toList] else []) := by
    split
    · split
      · exact listFindInsert_perm _ _ _
      · exact List.Perm.refl _
    · rw [List.append_nil]
  by_cases hnone : ∀ w ∈ ws, arg_has_parameter w ['%', 'h'] = false
  · rw [if_neg (not_not.mpr hnone), if_pos hnone]
    exact hfirst.append_right _
  · rw [if_pos hnone, if_neg hnone, List.append_nil]
    exact hfirst

theorem mem_fixup {ws : List CStr} {w : CStr} (h : w ∈ ws) (need_user : Bool) :
    w ∈ fixup_ssh_args ws need_user := by
  rw [(fixup_ssh_args_perm ws need_user).mem_iff, List.append_assoc]
  exact List.mem_append_left _ h

/-- What holds of the words and of the two that may be added. -/
theorem fixup_forall {P : CStr → Prop} {ws : List CStr} (h : ∀ w ∈ ws, P w) (huser : P "-l%u".toList)
    (hhost : P "%h".toList) (need_user : Bool) : ∀ w ∈ fixup_ssh_args ws need_user, P w := by
  intro w hw
  have hmem := (fixup_ssh_args_perm ws need_user).mem_iff.mp hw
  simp only [List.mem_append] at hmem
  rcases hmem with (hmem | hmem) | hmem
  · exact h w hmem
  · split at hmem
    · rwa [List.mem_singleton.mp hmem]
    · simp at hmem
  · split at hmem
    · rwa [List.mem_singleton.mp hmem]
    · simp at hmem

theorem fixup_word {ws : List CStr} (h : ∀ w ∈ ws, Word w) (need_user : Bool) :
    ∀ w ∈ fixup_ssh_args ws need_user, Word w :=
  fixup_forall h (by decide) (by decide) need_user

/-! ## Parameters -/

/-- What the formatter meets in a whole word. -/
theorem consumes_whole {c : Char} {w : CStr} {behind : List Char} (hnul : NUL ∉ w) (h : Whole '%' w) :
    consumes c (w ++ NUL :: behind) = some (decide (Segment.escape c ∈ segments '%' w)) := by
  rw [consumes, formatLoop_whole hnul h, Option.map_some, Option.some.injEq, List.contains_eq_mem,
    decide_eq_decide, mem_foldl_escapes]
  simp

/-- `%c` is an escape somewhere in the word, but where it stands first it has a `%` in front. -/
def Hidden (c : Char) (w : CStr) : Prop :=
  (∃ k, strstr ['%', c] w = some (k + 1) ∧ w[k]? = some '%') ∧
    ∃ a b, w = a ++ '%' :: c :: b ∧ Even (trailing '%' a).length

/-- On a word the two scanners agree unless an escape is hidden. -/
theorem arg_has_parameter_iff (c : Char) (w : CStr) :
    arg_has_parameter w ['%', c] = decide (Segment.escape c ∈ segments '%' w) ↔ ¬ Hidden c w := by
  have hescape : Segment.escape c ∈ segments '%' w ↔
      ∃ a b, w = a ++ '%' :: c :: b ∧ Even (trailing '%' a).length := by
    simp only [escape_mem_iff, whole_iff_even]
  unfold Hidden
  rw [← hescape, arg_has_parameter]
  cases hfound : strstr ['%', c] w with
  | none =>
      have hno : Segment.escape c ∉ segments '%' w := by
        rw [escape_mem_iff]
        rintro ⟨a, b, rfl, -⟩
        exact not_infix_of_strstr hfound ⟨a, b, by simp⟩
      simp [hno]
  | some k =>
      cases k with
      | zero =>
          have hyes : Segment.escape c ∈ segments '%' w := by
            obtain ⟨b, hb⟩ := prefix_of_strstr hfound
            exact escape_mem_iff.mpr ⟨[], b, hb.symm, whole_nil⟩
          simp [hyes]
      | succ k =>
          by_cases hmark : w[k]? = some '%'
          · simp [hmark]
          · -- behind another character the place is an escape
            have hyes : Segment.escape c ∈ segments '%' w := by
              obtain ⟨b, hb⟩ := prefix_of_strstr hfound
              have hlast : (w.take (k + 1)).getLast? ≠ some '%' := by
                rw [List.getLast?_take, if_neg (Nat.succ_ne_zero k), Nat.add_sub_cancel]
                cases hk : w[k]? with
                | none =>
                    have hshort := List.getElem?_eq_none_iff.mp hk
                    rw [List.drop_eq_nil_of_le (by omega)] at hb
                    simp at hb
                | some x =>
                    rw [hk] at hmark
                    exact hmark
              refine escape_mem_iff.mpr ⟨w.take (k + 1), b, ?_, whole_of_not_mark hlast⟩
              conv_lhs => rw [← List.take_append_drop (k + 1) w, ← hb]
              rfl
            simp [hyes, hmark]

/-- The host and the user are added exactly where no word has them formatted into it, and each word
is judged the way it is formatted whatever lies behind it, exactly when every `%` at the end of a
word has a partner and no `%h` and no `%u` is hidden. -/
theorem fixup_ssh_args_iff (need_user : Bool) {ws : List CStr} (hnul : ∀ w ∈ ws, NUL ∉ w) :
    (∀ l : List Stored, l.map Stored.str = ws →
      (∀ a ∈ l, ∀ c, c = 'h' ∨ c = 'u' → consumes c a.bytes = some (arg_has_parameter a.str ['%', c])) ∧
      (fixup_ssh_args ws need_user).Perm (ws ++
        (if need_user ∧ ∀ a ∈ l, consumes 'u' a.bytes = some false then ["-l%u".toList] else []) ++
        if ∀ a ∈ l, consumes 'h' a.bytes = some false then ["%h".toList] else [])) ↔
      ∀ w ∈ ws, Even (trailing '%' w).length ∧ ¬ Hidden 'h' w ∧ ¬ Hidden 'u' w := by
  constructor
  · intro hall w hw
    let l : List Stored := ws.map fun w => ⟨w, []⟩
    have hstr : l.map Stored.str = ws := by
      rw [List.map_map]
      exact List.map_id _
    have hmem : ⟨w, []⟩ ∈ l := List.mem_map.mpr ⟨w, hw, rfl⟩
    have hword := (hall l hstr).1 _ hmem
    have hwhole : Whole '%' w := by
      by_contra hopen
      obtain ⟨cs, hloop⟩ : ∃ cs, formatLoop (fun cs x => cs ++ [x]) (fun cs _ => cs) [] (w ++ [NUL]) =
          formatLoop (fun cs x => cs ++ [x]) (fun cs _ => cs) cs [] := formatLoop_open (hnul w hw) hopen
      have hnone : consumes 'h' (w ++ [NUL]) = none := by
        rw [consumes, hloop]
        rfl
      have hsome := hword 'h' (.inl rfl)
      rw [Stored.bytes, hnone] at hsome
      cases hsome
    have hagree : ∀ c, c = 'h' ∨ c = 'u' → ¬ Hidden c w := by
      intro c hc
      have hsame := hword c hc
      rw [Stored.bytes, consumes_whole (hnul w hw) hwhole, Option.some.injEq] at hsame
      exact (arg_has_parameter_iff c w).mp hsame.symm
    exact ⟨whole_iff_even.mp hwhole, hagree 'h' (.inl rfl), hagree 'u' (.inr rfl)⟩
  · rintro h l rfl
    have hword : ∀ a ∈ l, ∀ c, c = 'h' ∨ c = 'u' →
        consumes c a.bytes = some (arg_has_parameter a.str ['%', c]) := by
      intro a ha c hc
      have hmem : a.str ∈ l.map Stored.str := List.mem_map.mpr ⟨a, ha, rfl⟩
      obtain ⟨heven, hh, hu⟩ := h a.str hmem
      rw [Stored.bytes, consumes_whole (hnul _ hmem) (whole_iff_even.mpr heven), Option.some.injEq, eq_comm,
        arg_has_parameter_iff]
      rcases hc with rfl | rfl
      · exact hh
      · exact hu
    refine ⟨hword, ?_⟩
    have hnone : ∀ c, c = 'h' ∨ c = 'u' → ((∀ a ∈ l, consumes c a.bytes = some false) ↔
        ∀ w ∈ l.map Stored.str, arg_has_parameter w ['%', c] = false) := by
      intro c hc
      rw [List.forall_mem_map]
      refine forall₂_congr fun a ha => ?_
      rw [hword a ha c hc, Option.some.injEq]
    simp only [hnone 'h' (.inl rfl), hnone 'u' (.inr rfl)]
    exact fixup_ssh_args_perm _ _

/-- The words `-x` and `%h`, for another user. -/
theorem fixup_ssh_args_default :
    (fixup_ssh_args ["-x".toList, "%h".toList] true).Perm ["-x".toList, "%h".toList, "-l%u".toList] := by
  have hagree : ∀ w ∈ ["-x".toList, "%h".toList], Even (trailing '%' w).length ∧ ∀ c, c = 'h' ∨ c = 'u' →
      arg_has_parameter w ['%', c] = decide (Segment.escape c ∈ segments '%' w) := by
    intro w hw
    simp only [List.mem_cons, List.not_mem_nil, or_false] at hw
    rcases hw with rfl | rfl
    · exact ⟨by decide, by rintro c (rfl | rfl) <;> decide⟩
    · exact ⟨by decide, by rintro c (rfl | rfl) <;> decide⟩
  have hall := (@fixup_ssh_args_iff true ["-x".toList, "%h".toList] (by decide)).mpr fun w hw =>
    ⟨(hagree w hw).1, (arg_has_parameter_iff 'h' w).mp ((hagree w hw).2 'h' (.inl rfl)),
      (arg_has_parameter_iff 'u' w).mp ((hagree w hw).2 'u' (.inr rfl))⟩
  exact (hall [⟨"-x".toList, []⟩, ⟨"%h".toList, []⟩] rfl).2

/-- In `%%%h` the host is formatted and not found, and in `%%h%h` as well. -/
theorem fixup_ssh_args_twice :
    (∀ behind, consumes 'h' ("%%%h".toList ++ NUL :: behind) = some true) ∧
    (∀ behind, consumes 'h' ("%%h%h".toList ++ NUL :: behind) = some true) ∧
    arg_has_parameter "%%%h".toList "%h".toList = false ∧
    arg_has_parameter "%%h%h".toList "%h".toList = false ∧
    fixup_ssh_args ["%%%h".toList] false = ["%%%h".toList, "%h".toList] := by
  refine ⟨fun behind => ?_, fun behind => ?_, by decide⟩
  · rw [consumes_whole (by decide) (by decide)]
    decide
  · rw [consumes_whole (by decide) (by decide)]
    decide

/-! ## The remote command -/

/-- What the formatter replaces. -/
def Parameter (c : Char) : Prop := c = 'h' ∨ c = 'u' ∨ c = 'n' ∨ c = '%'

instance (c : Char) : Decidable (Parameter c) := inferInstanceAs (Decidable (_ ∨ _))

variable {e : PipeInfo} {w : CStr}

theorem segmentText_other {c : Char} (h : ¬ Parameter c) : segmentText e (.escape c) = ['%', c] := by
  simp only [Parameter, not_or] at h
  obtain ⟨hh, hu, hn, hp⟩ := h
  rw [segmentText]
  all_goals assumption

/-- A word without parameters stays as it is. -/
theorem substitute_eq_self (h : ∀ c, Parameter c → Segment.escape c ∉ segments '%' w) : substitute e w = w := by
  induction w using segments_induction '%' with
  | nil => rfl
  | lone => rfl
  | escape c s ih =>
      simp only [segments_escape, List.mem_cons, not_or] at h
      have hother : ¬ Parameter c := fun hc => (h c hc).1 rfl
      rw [substitute_escape, segmentText_other hother, ih fun c hc => (h c hc).2]
      rfl
  | plain c s hc ih =>
      simp only [segments_plain hc, List.mem_cons, not_or] at h
      rw [substitute_plain hc, ih fun c hc => (h c hc).2]

/-- With nothing to fill in each parameter costs a `%`. -/
theorem count_substitute (htarget : '%' ∉ e.target) (huser : '%' ∉ e.username)
    (hrank : '%' ∉ intText 1 e.rank.toInt) {c : Char} (hc : Parameter c)
    (h : Segment.escape c ∈ segments '%' w) : (substitute e w).count '%' < w.count '%' := by
  -- the two characters of an escape against its text
  have hpiece : ∀ x, (segmentText e (.escape x)).count '%' + (if Parameter x then 1 else 0) ≤
      ['%', x].count '%' := by
    intro x
    by_cases hx : Parameter x
    · rw [if_pos hx]
      rcases hx with rfl | rfl | rfl | rfl
      · rw [segmentText, List.count_eq_zero.mpr htarget]
        decide
      · rw [segmentText, List.count_eq_zero.mpr huser]
        decide
      · rw [segmentText, List.count_eq_zero.mpr hrank]
        decide
      · exact Nat.le_refl 2
    · rw [if_neg hx, segmentText_other hx]
      omega
  have hle : ∀ s : CStr, (substitute e s).count '%' ≤ s.count '%' := by
    intro s
    induction s using segments_induction '%' with
    | nil => exact Nat.le_refl _
    | lone => exact Nat.le_refl _
    | escape x s ih =>
        have hx := hpiece x
        have hword : '%' :: x :: s = ['%', x] ++ s := rfl
        rw [substitute_escape, hword, List.count_append, List.count_append]
        omega
    | plain x s hx ih =>
        rw [substitute_plain hx, List.count_cons, List.count_cons]
        omega
  obtain ⟨a, b, rfl, ha⟩ := escape_mem_iff.mp h
  have hx := hpiece c
  rw [if_pos hc] at hx
  have hsplit : substitute e (a ++ '%' :: c :: b) = substitute e a ++ (segmentText e (.escape c) ++ substitute e b) := by
    rw [substitute, segments_append ha, List.flatMap_append, ← substitute, ← substitute, substitute_escape]
  have hword : a ++ '%' :: c :: b = a ++ (['%', c] ++ b) := rfl
  have hfront := hle a
  have hback := hle b
  rw [hsplit, hword, List.count_append, List.count_append, List.count_append, List.count_append]
  omega

theorem trailing_concat (a : CStr) : trailing '%' (a ++ ['%']) = trailing '%' a ++ ['%'] :=
  List.rtakeWhile_concat_pos _ _ _ (decide_eq_true rfl)

/-- Two characters that look like a parameter are one, or come behind a `%%`. -/
theorem parameter_infix_iff :
    (∀ c, Parameter c → ¬ ['%', c] <:+: w) ↔ ∀ c, Parameter c → Segment.escape c ∉ segments '%' w := by
  constructor
  · intro h c hc hmem
    obtain ⟨a, b, rfl, -⟩ := escape_mem_iff.mp hmem
    exact h c hc ⟨a, b, by simp⟩
  · rintro h c hc ⟨a, b, rfl⟩
    rw [List.append_assoc, List.cons_append, List.cons_append, List.nil_append] at h
    by_cases ha : Whole '%' a
    · exact h c hc (escape_mem_iff.mpr ⟨a, b, rfl, ha⟩)
    · have hlast := getLast?_of_not_whole ha
      obtain ⟨a, rfl⟩ : ∃ a', a = a' ++ ['%'] := ⟨_, (List.dropLast_append_getLast? _ hlast).symm⟩
      have hfront : Whole '%' a := by
        rw [whole_iff_even, trailing_concat, List.length_append, List.length_singleton, Nat.even_add_one,
          not_not] at ha
        exact whole_iff_even.mpr ha
      refine h '%' (by decide) (escape_mem_iff.mpr ⟨a, c :: b, ?_, hfront⟩)
      rw [List.append_assoc]
      rfl

/-- A word that ends in `%` is not whole, or has `%%` in it. -/
theorem getLast?_ne_mark (hwhole : Whole '%' w) (h : ¬ ['%', '%'] <:+: w) : w.getLast? ≠ some '%' := by
  intro hlast
  obtain ⟨a, rfl⟩ : ∃ a, w = a ++ ['%'] := ⟨_, (List.dropLast_append_getLast? _ hlast).symm⟩
  rw [whole_iff_even, trailing_concat, List.length_append, List.length_singleton, Nat.even_add_one,
    ← whole_iff_even] at hwhole
  have hmark := getLast?_of_not_whole hwhole
  obtain ⟨b, rfl⟩ : ∃ b, a = b ++ ['%'] := ⟨_, (List.dropLast_append_getLast? _ hmark).symm⟩
  exact h ⟨b, [], by simp⟩

/-- Of words that are whole, whatever lies behind them. -/
theorem pipecmd_store (path target user : CStr) (rank : Int32) (behind : Nat → List Char) {argv : List CStr}
    (h : ∀ w ∈ argv, Word w ∧ Whole '%' w) :
    pipecmd path (store behind argv) target user rank = some (xbasename path ::
      argv.map (substitute (pipe_info_create path target user rank))) := by
  rw [pipecmd_whole, store_str]
  intro a ha
  obtain ⟨⟨hne, hnul⟩, hwhole⟩ := h a.str (by
    rw [← store_str behind argv]
    exact List.mem_map.mpr ⟨a, ha, rfl⟩)
  exact ⟨hnul, hwhole, hne⟩

/-- With nothing behind the words, one that is not whole is read past the end. -/
theorem pipecmd_store_open (path target user : CStr) (rank : Int32) {argv : List CStr} (hw : w ∈ argv)
    (hnul : NUL ∉ w) (hopen : ¬ Whole '%' w) :
    pipecmd path (store (fun _ => []) argv) target user rank = none := by
  have hmem : ⟨w, []⟩ ∈ store (fun _ => []) argv := by
    obtain ⟨i, hi, rfl⟩ := List.getElem_of_mem hw
    exact List.mem_mapIdx.mpr ⟨i, hi, rfl⟩
  rw [pipecmd, cmd_args_create, mapM_format_open hmem hnul hopen]
  rfl

/-- The words of the command behind those for ssh. -/
theorem sshcmd_dsh {ssh_args remote : List CStr} (hne : remote ≠ []) (ahost luser ruser cmd : CStr) (rank : Int32)
    (behind : Nat → List Char) :
    sshcmd false ssh_args remote ahost luser ruser cmd rank behind = pipecmd "ssh".toList
      (store behind (fixup_ssh_args ssh_args (strcmp luser ruser ≠ 0) ++ remote)) ahost ruser rank := by
  rw [sshcmd]
  simp only [Bool.false_eq_true, hne, or_self, if_false]
  rfl

theorem fixup_whole {ws : List CStr} (h : ∀ w ∈ ws, Whole '%' w) (need_user : Bool) :
    ∀ w ∈ fixup_ssh_args ws need_user, Whole '%' w :=
  fixup_forall h (by decide) (by decide) need_user

/-- The remote command arrives as it was given, for every target, user and rank and whatever lies
behind the strings, exactly when every `%` at the end of a word for ssh has a partner, and no word
of the command has a parameter in it or ends in `%`. -/
theorem sshcmd_remote_iff (cmd : CStr) {ssh_args remote : List CStr} (hargs : ∀ w ∈ ssh_args, Word w)
    (hremote : ∀ w ∈ remote, Word w) (hne : remote ≠ []) :
    (∀ ahost luser ruser rank behind,
      sshcmd false ssh_args remote ahost luser ruser cmd rank behind = some ("ssh".toList ::
        (fixup_ssh_args ssh_args (strcmp luser ruser ≠ 0)).map
          (substitute (pipe_info_create "ssh".toList ahost ruser rank)) ++ remote)) ↔
      (∀ w ∈ ssh_args, Even (trailing '%' w).length) ∧
      ∀ w ∈ remote, (∀ c, Parameter c → ¬ ['%', c] <:+: w) ∧ w.getLast? ≠ some '%' := by
  have hword : ∀ b, ∀ w ∈ fixup_ssh_args ssh_args b ++ remote, Word w := by
    intro b w hw
    rcases List.mem_append.mp hw with hmem | hmem
    · exact fixup_word hargs b w hmem
    · exact hremote w hmem
  constructor
  · intro hall
    -- no host, no user and the rank 0 make every parameter shorter
    have hrun := hall [] [] [] 0 fun _ => []
    have hwhole : ∀ w ∈ fixup_ssh_args ssh_args (strcmp [] [] ≠ 0) ++ remote, Whole '%' w := by
      intro w hw
      by_contra hopen
      rw [sshcmd_dsh hne, pipecmd_store_open _ _ _ _ hw (hword _ w hw).2 hopen] at hrun
      cases hrun
    rw [sshcmd_dsh hne, pipecmd_store _ _ _ _ _ fun w hw => ⟨hword _ w hw, hwhole w hw⟩, List.map_append,
      Option.some.injEq] at hrun
    obtain ⟨-, htail⟩ := List.cons.inj hrun
    have hsame : remote.map (substitute (pipe_info_create "ssh".toList [] [] 0)) = remote.map id := by
      rw [List.append_cancel_left htail, List.map_id]
    refine ⟨fun w hw => whole_iff_even.mp (hwhole w (List.mem_append_left _ (mem_fixup hw _))),
      fun w hw => ?_⟩
    have hescape : ∀ c, Parameter c → Segment.escape c ∉ segments '%' w := by
      intro c hc hmem
      have hless := @count_substitute (pipe_info_create "ssh".toList [] [] 0) w List.not_mem_nil
        List.not_mem_nil (by decide) c hc hmem
      rw [List.map_inj_left.mp hsame w hw] at hless
      exact Nat.lt_irrefl _ hless
    have hescaped := parameter_infix_iff.mpr hescape
    exact ⟨hescaped, getLast?_ne_mark (hwhole w (List.mem_append_right _ hw)) (hescaped '%' (by decide))⟩
  · rintro ⟨hssh, hplain⟩ ahost luser ruser rank behind
    have hwhole : ∀ w ∈ fixup_ssh_args ssh_args (strcmp luser ruser ≠ 0) ++ remote, Whole '%' w := by
      intro w hw
      rcases List.mem_append.mp hw with hmem | hmem
      · exact fixup_whole (fun w hw => whole_iff_even.mpr (hssh w hw)) _ w hmem
      · exact whole_of_not_mark (hplain w hmem).2
    have hsame : remote.map (substitute (pipe_info_create "ssh".toList ahost ruser rank)) = remote.map id := by
      refine List.map_congr_left fun w hw => ?_
      exact substitute_eq_self (parameter_infix_iff.mp (hplain w hw).1)
    rw [sshcmd_dsh hne, pipecmd_store _ _ _ _ _ fun w hw => ⟨hword _ w hw, hwhole w hw⟩, List.map_append,
      hsame, List.map_id]
    rfl

/-- A command without a `%`. -/
theorem sshcmd_remote_plain :
    sshcmd false ["-x".toList, "%h".toList] ["echo".toList, "hi".toList] "foo".toList "me".toList "you".toList
      [] 0 (fun _ => [NUL]) =
    some ["ssh".toList, "-x".toList, "-lyou".toList, "foo".toList, "echo".toList, "hi".toList] := by
  have hremote : ∀ w ∈ ["echo".toList, "hi".toList],
      (∀ c, Parameter c → ¬ ['%', c] <:+: w) ∧ w.getLast? ≠ some '%' := by
    intro w hw
    have hmark : '%' ∉ w := by
      revert w
      decide
    exact ⟨fun c _ hc => hmark (hc.subset (by simp)), fun hlast => hmark (List.mem_of_getLast? hlast)⟩
  exact (@sshcmd_remote_iff [] ["-x".toList, "%h".toList] ["echo".toList, "hi".toList] (by decide)
    (by decide) (by decide)).mpr ⟨by decide, hremote⟩ "foo".toList "me".toList "you".toList 0 fun _ => [NUL]

/-- `stat` is asked for the name of the file and gets the rank in its place. -/
theorem sshcmd_remote_altered :
    sshcmd false ["-x".toList, "%h".toList] ["stat".toList, "-c".toList, "%n".toList, "f".toList]
      "foo".toList "me".toList "me".toList [] 0 (fun _ => [NUL]) =
    some ["ssh".toList, "-x".toList, "foo".toList, "stat".toList, "-c".toList, "0".toList, "f".toList] := by
  rw [sshcmd_dsh (by decide), pipecmd_store _ _ _ _ _ (by decide)]
  decide

end Pdsh.Exec
