import Pdsh.Opt.Rcmd

/-!
# Expressions that are rejected

`hostlist_create` rejects an expression in two ways: a range that is not one ends the process, an
unbalanced bracket or too many ranges give NULL. What becomes of NULL depends on the caller:
`hostlist_register_rcmd` reports it and the process ends, `hostlist_push` and `hostlist_delete`
report no hosts, and `opt_args` goes on without the target or the exclusion
(`rejected_stops_iff`).
-/

namespace Pdsh

open Lib

variable {env : Env} {opt opt' : Opt} {slack p : CStr}

/-! ## Pieces -/

/-- The pieces `wcoll_arg_process` is called with. -/
def TargetArg.pieces : TargetArg → List CStr
  | .w optarg => listSplit (if optarg = ['-'] then ['^', '-'] else optarg)
  | .x optarg => (listSplit optarg).flatMap fun s => listSplit ('-' :: s)

theorem TargetArg.unbroken {arg : TargetArg} (h : p ∈ arg.pieces) : Unbroken wcollSep p := by
  cases arg with
  | w optarg => exact (token_spec h).choose_spec.choose_spec.2.2
  | x optarg =>
      obtain ⟨s, -, hp⟩ := List.mem_flatMap.mp h
      exact (token_spec hp).choose_spec.choose_spec.2.2

/-- A host expression as `hostlist_create` is given it. -/
structure HostPiece where
  excluded : Bool
  typed : Bool
  hosts : CStr
deriving DecidableEq, Repr

/-- A file of hosts or a regular expression. -/
def NotHosts (p : CStr) : Prop := p.head? = some '^' ∨ p.head? = some '/'

instance (p : CStr) : Decidable (NotHosts p) := by
  unfold NotHosts
  infer_instance

/-- The host expression of a piece: not a file, and not a regular expression. -/
def hostPiece (arg : CStr) : Option HostPiece :=
  if arg.head? = some '-' then
    let p := arg.tail.dropWhile isspace
    if NotHosts p then none else some ⟨true, false, p⟩
  else
    let p := arg.dropWhile isspace
    if NotHosts p then none
    else
      match getHostRcmdType p with
      | .ret spec => some ⟨false, spec.typed, spec.hosts⟩
      | _ => none

/-- `hostlist_create` returns NULL or ends the process. -/
def Rejected (slack hosts : CStr) : Prop :=
  hostlistCreate slack hosts = .ret none ∨ ∃ e, hostlistCreate slack hosts = .exit e

/-- The arguments give a target: a host expression or a file of hosts. -/
def GivesTarget (args : List TargetArg) : Prop :=
  ∃ p ∈ args.flatMap TargetArg.pieces,
    p.head? ≠ some '-' ∧ (p.dropWhile isspace).head? ≠ some '/'

/-- What `wcoll_arg_process` does with a piece that is neither a file nor a regular expression. -/
theorem wcollArgProcess_other {arg p : CStr}
    (hp : (if arg.head? = some '-' then arg.tail else arg).dropWhile isspace = p)
    (hno : ¬ NotHosts p) :
    wcollArgProcess env arg opt =
      if arg.head? = some '-' then .ret { opt with excludeList := p :: opt.excludeList }
      else wcollHostsProcess env p opt := by
  unfold wcollArgProcess
  simp only [hp]
  split
  · exact absurd (.inl rfl) hno
  · exact absurd (.inr rfl) hno
  · rfl

theorem wcollArgProcess_excluded {h : HostPiece} (hp : hostPiece p = some h)
    (hx : h.excluded = true)
    (env : Env) (opt : Opt) :
    wcollArgProcess env p opt = .ret { opt with excludeList := h.hosts :: opt.excludeList } := by
  unfold hostPiece at hp
  by_cases hdash : p.head? = some '-'
  · simp only [hdash, if_true] at hp
    split at hp
    · cases hp
    · rename_i hno
      cases hp
      rw [wcollArgProcess_other (by rw [if_pos hdash]) hno, if_pos hdash]
  · simp only [hdash, if_false] at hp
    split at hp
    · cases hp
    · split at hp
      · cases hp
        cases hx
      · cases hp

theorem wcollArgProcess_target {h : HostPiece} (hp : hostPiece p = some h)
    (hx : h.excluded = false) :
    ∃ spec, getHostRcmdType (p.dropWhile isspace) = .ret spec ∧ h.hosts = spec.hosts ∧
      h.typed = spec.typed ∧ p.head? ≠ some '-' ∧ ¬ NotHosts (p.dropWhile isspace) ∧
        ∀ env opt,
          wcollArgProcess env p opt = wcollHostsProcess env (p.dropWhile isspace) opt := by
  unfold hostPiece at hp
  by_cases hdash : p.head? = some '-'
  · simp only [hdash, if_true] at hp
    split at hp
    · cases hp
    · cases hp
      cases hx
  · simp only [hdash, if_false] at hp
    split at hp
    · cases hp
    · rename_i hno
      split at hp
      · rename_i spec hspec
        cases hp
        refine ⟨spec, hspec, rfl, rfl, hdash, hno, fun env opt => ?_⟩
        rw [wcollArgProcess_other (by rw [if_neg hdash]) hno, if_neg hdash]
      · cases hp

/-! ## All pieces -/

theorem foldlM_pieces {f : CStr → List CStr} (xs : List CStr) :
    xs.foldlM (fun opt s => wcollPiecesProcess env (f s) opt) opt =
      wcollPiecesProcess env (xs.flatMap f) opt := by
  induction xs generalizing opt with
  | nil => rfl
  | cons x xs ih =>
      rw [List.foldlM_cons, List.flatMap_cons, wcollPiecesProcess_append]
      congr 1
      funext opt
      exact ih

/-- The options are read piece by piece. -/
theorem foldlM_args (args : List TargetArg) :
    args.foldlM (optArg env) opt = wcollPiecesProcess env (args.flatMap TargetArg.pieces) opt := by
  induction args generalizing opt with
  | nil => rfl
  | cons arg args ih =>
      have harg : optArg env opt arg = wcollPiecesProcess env arg.pieces opt := by
        cases arg with
        | w optarg => rfl
        | x optarg => exact foldlM_pieces _
      rw [List.foldlM_cons, List.flatMap_cons, wcollPiecesProcess_append, harg]
      congr 1
      funext opt
      exact ih

/-- What was collected stays: the exclusions, and that there is a `wcoll`. -/
structure Collected (opt opt' : Opt) : Prop where
  excluded : opt.excludeList ⊆ opt'.excludeList
  wcoll : opt.wcoll.isSome → opt'.wcoll.isSome

theorem Collected.refl (opt : Opt) : Collected opt opt := ⟨List.Subset.refl _, id⟩

theorem Collected.trans {opt'' : Opt} (h : Collected opt opt') (h' : Collected opt' opt'') :
    Collected opt opt'' := ⟨List.Subset.trans h.excluded h'.excluded, h'.wcoll ∘ h.wcoll⟩

theorem wcollHostsProcess_collected (h : wcollHostsProcess env p opt = .ret opt') :
    Collected opt opt' ∧ opt'.wcoll.isSome := by
  unfold wcollHostsProcess at h
  obtain ⟨spec, -, h⟩ := Run.bind_eq_ret_iff.mp h
  obtain ⟨pushed, -, h⟩ := Run.bind_eq_ret_iff.mp h
  split at h
  · obtain ⟨info, -, h⟩ := Run.bind_eq_ret_iff.mp h
    cases info with
    | none => cases h
    | some info =>
        cases h
        exact ⟨⟨List.Subset.refl _, fun _ => rfl⟩, rfl⟩
  · cases h
    exact ⟨⟨List.Subset.refl _, fun _ => rfl⟩, rfl⟩

theorem wcollArgProcess_collected (h : wcollArgProcess env p opt = .ret opt') :
    Collected opt opt' ∧
      (p.head? ≠ some '-' → (p.dropWhile isspace).head? ≠ some '/' →
        opt'.wcoll.isSome) := by
  unfold wcollArgProcess at h
  simp only at h
  split at h
  · unfold wcollFileProcess at h
    obtain ⟨hl, -, h⟩ := Run.bind_eq_ret_iff.mp h
    cases hl with
    | none => cases h
    | some hl =>
        simp only [decide_eq_true_eq] at h
        split at h
        · rename_i hdash
          obtain ⟨l, hpush, h⟩ := Run.bind_eq_ret_iff.mp h
          cases h
          have hsub : opt.excludeList ⊆ l := by
            unfold listPushHostlist at hpush
            simp only at hpush
            split at hpush
            · cases hpush
            · cases hpush
              exact List.subset_cons_self _ _
          exact ⟨⟨hsub, id⟩, fun hno => absurd hdash hno⟩
        · cases h
          exact ⟨⟨List.Subset.refl _, fun _ => rfl⟩, fun _ _ => rfl⟩
  · rename_i pattern heq
    unfold wcollRegexProcess at h
    simp only at h
    generalize (if pattern.getLast? = some '/' then pattern.dropLast else pattern) = q at h
    split at h
    · cases h
      refine ⟨⟨List.Subset.refl _, id⟩, fun hdash hregex => ?_⟩
      rw [if_neg hdash] at heq
      exact absurd (congrArg List.head? heq) hregex
    · cases h
  · split at h
    · rename_i hdash
      cases h
      exact ⟨⟨List.subset_cons_self _ _, id⟩, fun hno => absurd hdash hno⟩
    · obtain ⟨hcollected, hsome⟩ := wcollHostsProcess_collected h
      exact ⟨hcollected, fun _ _ => hsome⟩

/-- Each piece was processed, and what it collected stays. -/
theorem wcollPiecesProcess_collected {ps : List CStr}
    (h : wcollPiecesProcess env ps opt = .ret opt') :
    Collected opt opt' ∧ ∀ p ∈ ps, ∃ opt₁ opt₂,
      wcollArgProcess env p opt₁ = .ret opt₂ ∧ Collected opt₂ opt' := by
  induction ps generalizing opt with
  | nil =>
      cases h
      exact ⟨Collected.refl _, by simp⟩
  | cons p ps ih =>
      obtain ⟨opt₁, hone, hrest⟩ := Run.bind_eq_ret_iff.mp h
      obtain ⟨hcollected, hall⟩ := ih hrest
      refine ⟨(wcollArgProcess_collected hone).1.trans hcollected, ?_⟩
      intro q hq
      rcases List.mem_cons.mp hq with rfl | hq
      · exact ⟨opt, opt₁, hone, hcollected⟩
      · exact hall q hq

theorem applyExcludedLoop_ret {excluded : List CStr} {hl hl' : Hostlist}
    (h : applyExcludedLoop slack excluded hl = .ret hl') :
    ∀ hosts ∈ excluded, ∃ new, hostlistCreate slack hosts = .ret new := by
  induction excluded generalizing hl with
  | nil => simp
  | cons arg rest ih =>
      obtain ⟨deleted, hdelete, hrest⟩ := Run.bind_eq_ret_iff.mp h
      obtain ⟨new, hnew, -⟩ := Run.bind_eq_ret_iff.mp hdelete
      intro hosts hmem
      rcases List.mem_cons.mp hmem with rfl | hmem
      · exact ⟨new, hnew⟩
      · exact ih hrest hosts hmem

theorem foldl_isSome {α β : Type} {f : Option α → β → Option α} (hf : ∀ w b, (f w b).isSome)
    (l : List β) {w : Option α} (h : w.isSome) : (l.foldl f w).isSome := by
  induction l generalizing w with
  | nil => exact h
  | cons b l ih => exact ih (hf w b)

/-- Where there is a `wcoll`, every exclusion is read. -/
theorem optArgs_excluded {args : List TargetArg} (h : optArgs env args = .ret opt')
    (hfold : args.foldlM (optArg env) optDefault = .ret opt) (hsome : opt.wcoll.isSome) :
    ∀ hosts ∈ opt.excludeList, ∃ new, hostlistCreate env.slack hosts = .ret new := by
  have hmodules : (modReadWcoll env opt.wcoll).isSome :=
    foldl_isSome (fun _ _ => rfl) env.moduleWcolls hsome
  obtain ⟨hl, hread⟩ := Option.isSome_iff_exists.mp hmodules
  have hother : readOtherWcoll env opt.wcoll = .ret (some hl) := by
    unfold readOtherWcoll
    rw [hread]
  unfold optArgs at h
  rw [hfold, Run.ret_bind, hother, Run.ret_bind] at h
  obtain ⟨_, hfilter, -⟩ := Run.bind_eq_ret_iff.mp h
  obtain ⟨_, hexcluded, -⟩ := Run.bind_eq_ret_iff.mp hfilter
  exact applyExcludedLoop_ret hexcluded

/-! ## Rejections -/

/-- No sequence of arguments with the piece comes back; with `target`, none that gives a target
as well. -/
def NeverIgnored (slack p : CStr) (target : Bool) : Prop :=
  ∀ env : Env, env.slack = slack → ∀ args : List TargetArg,
    p ∈ args.flatMap TargetArg.pieces → (target → GivesTarget args) →
      ¬ Run.Returns (optArgs env args)

/-- No files, no hosts of modules, and any content of the buffer. -/
def slackEnv (slack : CStr) : Env := { plainEnv with slack := slack }

theorem optArgs_eq (args : List TargetArg) : optArgs env args = (do
    let opt ← wcollPiecesProcess env (args.flatMap TargetArg.pieces) optDefault
    let wcoll ← readOtherWcoll env opt.wcoll
    match wcoll with
    | none => pure { opt with wcoll := none }
    | some hl => do
        let hl ← filterWcoll env opt hl
        pure { opt with wcoll := some hl }) := by
  rw [← foldlM_args]
  rfl

theorem pieces_w (hpiece : Unbroken wcollSep p) (hdash : p ≠ ['-']) :
    (TargetArg.w p).pieces = [p] := by
  rw [TargetArg.pieces, if_neg hdash]
  exact tokens_unbroken hpiece

/-- An exclusion is not read where there is no target. -/
theorem exclusion_unread {h : HostPiece} (hpiece : Unbroken wcollSep p) (hdash : p ≠ ['-'])
    (hp : hostPiece p = some h) (hx : h.excluded = true) (slack : CStr) :
    Run.Returns (optArgs (slackEnv slack) [.w p]) := by
  rw [optArgs_eq, List.flatMap_singleton, pieces_w hpiece hdash, wcollPiecesProcess,
    wcollArgProcess_excluded hp hx]
  exact ⟨_, rfl⟩

/-- `foo` as a target, and an exclusion that gives NULL. -/
theorem exclusion_ignored {h : HostPiece} (hpiece : Unbroken wcollSep p) (hdash : p ≠ ['-'])
    (hp : hostPiece p = some h) (hx : h.excluded = true)
    (hnull : hostlistCreate slack h.hosts = .ret none) :
    Run.Returns (optArgs (slackEnv slack) [.w "foo".toList, .w p]) := by
  have hfoo : (TargetArg.w "foo".toList).pieces = ["foo".toList] := by decide
  have htarget : wcollArgProcess (slackEnv slack) "foo".toList optDefault =
      .ret ⟨some (pushSingle hostlistNew "foo".toList), [], [], []⟩ := rfl
  rw [optArgs_eq, List.flatMap_cons, List.flatMap_singleton, hfoo, pieces_w hpiece hdash,
    List.singleton_append, wcollPiecesProcess, htarget, Run.ret_bind, wcollPiecesProcess,
    wcollArgProcess_excluded hp hx]
  have hdelete : applyExcludedLoop slack [h.hosts] (pushSingle hostlistNew "foo".toList) =
      .ret (pushSingle hostlistNew "foo".toList) := by
    rw [applyExcludedLoop, hostlistDelete, hnull]
    rfl
  have hfilter : filterWcoll (slackEnv slack) ⟨some (pushSingle hostlistNew "foo".toList),
      [h.hosts], [], []⟩
      (pushSingle hostlistNew "foo".toList) = .ret (pushSingle hostlistNew "foo".toList) := by
    rw [filterWcoll, show (slackEnv slack).slack = slack from rfl, hdelete]
    rfl
  refine ⟨⟨some (pushSingle hostlistNew "foo".toList), [h.hosts], [], []⟩, ?_⟩
  have hother : readOtherWcoll (slackEnv slack) (some (pushSingle hostlistNew "foo".toList)) =
      .ret (some (pushSingle hostlistNew "foo".toList)) := rfl
  simp only [Run.ret_bind, wcollPiecesProcess, hother]
  rw [hfilter]
  rfl

/-- A target without a type or a user that gives NULL. -/
theorem target_ignored {h : HostPiece} (hpiece : Unbroken wcollSep p) (hp : hostPiece p = some h)
    (hx : h.excluded = false) (htyped : h.typed = false)
    (hnull : hostlistCreate slack h.hosts = .ret none) :
    Run.Returns (optArgs (slackEnv slack) [.w p]) := by
  obtain ⟨spec, hspec, hhosts, htyped', hdash, -, hprocess⟩ := wcollArgProcess_target hp hx
  have hne : p ≠ ['-'] := by
    rintro rfl
    exact hdash rfl
  rw [htyped] at htyped'
  obtain ⟨rcmdType, user, hosts⟩ := spec
  obtain rfl : h.hosts = hosts := hhosts
  obtain ⟨rfl, rfl⟩ : rcmdType = none ∧ user = none := by
    simpa [HostSpec.typed] using htyped'.symm
  have hpush : hostlistPush slack hostlistNew h.hosts = .ret (0, hostlistNew) := by
    rw [hostlistPush, hnull]
    rfl
  have htarget : wcollArgProcess (slackEnv slack) p optDefault =
      .ret ⟨some hostlistNew, [], [], []⟩ := by
    rw [hprocess, wcollHostsProcess, hspec]
    show (hostlistPush slack hostlistNew h.hosts >>= _) = _
    rw [hpush]
    rfl
  rw [optArgs_eq, List.flatMap_singleton, pieces_w hpiece hne, wcollPiecesProcess, htarget]
  exact ⟨_, rfl⟩

/-- A target is read when it is processed, and with a type or a user read twice. -/
theorem target_read {h : HostPiece} (hp : hostPiece p = some h) (hx : h.excluded = false)
    (hret : wcollArgProcess env p opt = .ret opt') :
    ∃ new, hostlistCreate env.slack h.hosts = .ret new ∧
      (h.typed → new.isSome) := by
  obtain ⟨spec, hspec, hhosts, htyped, -, -, hprocess⟩ := wcollArgProcess_target hp hx
  rw [hprocess, wcollHostsProcess, hspec, Run.ret_bind] at hret
  obtain ⟨pushed, hpush, hret⟩ := Run.bind_eq_ret_iff.mp hret
  obtain ⟨new, hnew, -⟩ := Run.bind_eq_ret_iff.mp hpush
  rw [hhosts, htyped]
  refine ⟨new, hnew, fun hyes => ?_⟩
  rw [if_pos (by simpa [HostSpec.typed] using hyes)] at hret
  obtain ⟨info, hinfo, hret⟩ := Run.bind_eq_ret_iff.mp hret
  cases info with
  | none => cases hret
  | some info =>
      unfold rcmdRegisterDefaults at hinfo
      split at hinfo
      · cases hinfo
      · obtain ⟨hl, hcreate, hinfo⟩ := Run.bind_eq_ret_iff.mp hinfo
        cases hl with
        | none => cases hinfo
        | some hl =>
            rw [hnew, Run.ret.injEq] at hcreate
            rw [hcreate]
            rfl

/-- A rejected target is never ignored exactly when it has a type or a user, or reading it ends
the process; a rejected exclusion when reading it ends the process, and a target is given. -/
theorem rejected_stops_iff {arg : TargetArg} {h : HostPiece} (harg : p ∈ arg.pieces)
    (hp : hostPiece p = some h) (hrej : Rejected slack h.hosts) (target : Bool) :
    NeverIgnored slack p target ↔
      if h.excluded then target ∧ ∃ e, hostlistCreate slack h.hosts = .exit e
      else h.typed ∨ ∃ e, hostlistCreate slack h.hosts = .exit e := by
  have hpiece := arg.unbroken harg
  have hdash : p ≠ ['-'] := by
    rintro rfl
    cases hp
    rcases hrej with hnull | ⟨e, hexit⟩
    · cases hnull
    · cases hexit
  have hmem : p ∈ [TargetArg.w p].flatMap TargetArg.pieces := by
    rw [List.flatMap_singleton, pieces_w hpiece hdash]
    exact List.mem_singleton_self p
  cases hx : h.excluded with
  | true =>
      rw [if_pos rfl]
      constructor
      · intro hnever
        constructor
        · by_contra hno
          exact hnever (slackEnv slack) rfl [.w p] hmem (fun h => absurd h hno)
            (exclusion_unread hpiece hdash hp hx slack)
        · refine hrej.resolve_left fun hnull => ?_
          refine hnever (slackEnv slack) rfl [.w "foo".toList, .w p] ?_ (fun _ => ?_)
            (exclusion_ignored hpiece hdash hp hx hnull)
          · exact List.mem_append_right _ hmem
          · exact ⟨"foo".toList, List.mem_append_left _ (by decide), by decide, by decide⟩
      · rintro ⟨htarget, e, hexit⟩ env rfl args hin hgives ⟨opt', hret⟩
        obtain ⟨opt, hfold, -⟩ := Run.bind_eq_ret_iff.mp (optArgs_eq args ▸ hret)
        obtain ⟨-, hall⟩ := wcollPiecesProcess_collected hfold
        obtain ⟨opt₁, opt₂, hone, hcollected⟩ := hall p hin
        rw [wcollArgProcess_excluded hp hx, Run.ret.injEq] at hone
        obtain ⟨q, hq, hnodash, hnoregex⟩ := hgives htarget
        obtain ⟨_, _, htwo, hcollected'⟩ := hall q hq
        have hsome := hcollected'.wcoll ((wcollArgProcess_collected htwo).2 hnodash hnoregex)
        have hlisted : h.hosts ∈ opt.excludeList :=
          hcollected.excluded (hone ▸ List.mem_cons_self)
        obtain ⟨new, hnew⟩ := optArgs_excluded hret (foldlM_args args ▸ hfold) hsome _ hlisted
        rw [hexit] at hnew
        cases hnew
  | false =>
      rw [if_neg Bool.false_ne_true]
      constructor
      · intro hnever
        by_contra hno
        obtain ⟨htyped, hnoexit⟩ := not_or.mp hno
        refine hnever (slackEnv slack) rfl [.w p] hmem (fun _ => ?_)
          (target_ignored hpiece hp hx (by simpa using htyped) (hrej.resolve_right hnoexit))
        obtain ⟨-, -, -, -, hnodash, hhosts, -⟩ := wcollArgProcess_target hp hx
        exact ⟨p, hmem, hnodash, fun hregex => hhosts (.inr hregex)⟩
      · rintro hstops env rfl args hin - ⟨opt', hret⟩
        obtain ⟨opt, hfold, -⟩ := Run.bind_eq_ret_iff.mp (optArgs_eq args ▸ hret)
        obtain ⟨-, hall⟩ := wcollPiecesProcess_collected hfold
        obtain ⟨opt₁, opt₂, hone, -⟩ := hall p hin
        obtain ⟨new, hnew, hsome⟩ := target_read hp hx hone
        rcases hstops with htyped | ⟨e, hexit⟩
        · rcases hrej with hnull | ⟨e, hexit⟩
          · rw [hnull, Run.ret.injEq] at hnew
            obtain rfl := hnew
            cases hsome htyped
          · rw [hexit] at hnew
            cases hnew
        · rw [hexit] at hnew
          cases hnew

/-- `bar[1-2` is rejected with NULL, and is not stopped. -/
theorem unclosed_stops_iff :
    (hostPiece "bar[1-2".toList = some ⟨false, false, "bar[1-2".toList⟩ ∧
      Rejected [] "bar[1-2".toList) ∧
    (NeverIgnored [] "bar[1-2".toList true ↔
      False ∨ ∃ e, hostlistCreate [] "bar[1-2".toList = .exit e) := by
  have harg : "bar[1-2".toList ∈ (TargetArg.w "bar[1-2".toList).pieces := by decide
  have hp : hostPiece "bar[1-2".toList = some ⟨false, false, "bar[1-2".toList⟩ := rfl
  have hrej : Rejected [] "bar[1-2".toList := .inl rfl
  refine ⟨⟨hp, hrej⟩, ?_⟩
  simpa using rejected_stops_iff harg hp hrej true

/-- `-w foo1,bar[1-2` runs on `foo1` alone. -/
theorem rejected_ignored :
    "bar[1-2".toList ∈ (TargetArg.w "foo1,bar[1-2".toList).pieces ∧
    hostPiece "bar[1-2".toList = some ⟨false, false, "bar[1-2".toList⟩ ∧
    Rejected plainEnv.slack "bar[1-2".toList ∧
    Run.Returns (optArgs plainEnv [.w "foo1,bar[1-2".toList]) :=
  ⟨by decide, rfl, .inl rfl, ⟨_, rfl⟩⟩

end Pdsh
