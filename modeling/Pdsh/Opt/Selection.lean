import Pdsh.Opt.Rcmd

/-!
# The first expression that names a host

A typed expression has a host in its first stage, when `hostlist_create` makes it of the hosts, or
in both stages, when `wcoll_expand` makes it of the names of the first. A host is reached as the
first typed expression that names it says exactly when that expression agrees with the first one
that has the host in its first stage (`rcmd_selection`). The hosts in question are those the
arguments and the modules name, which is the final list (`optArgs_hosts`).
-/

namespace Pdsh

open Lib

variable {env : Env} {opt opt' : Opt} {slack p host : CStr} {spec : HostSpec} {specs : List HostSpec}
  {args names : List CStr} {hl hl' : Hostlist}

/-! ## The hosts of the arguments -/

/-- The names of the first stage of an expression. -/
def firstNames (slack : CStr) (spec : HostSpec) : List CStr :=
  match hostlistCreate slack spec.hosts with
  | .ret (some hl) => hl.names
  | _ => []

theorem suffix_lt : MAX_HOST_SUFFIX.toNat < 10 ^ 15 := by
  rw [MAX_HOST_SUFFIX_toNat]
  decide

/-- The first stage is what reading the hosts gives. -/
theorem firstNames_eq {o : Option (List CStr)} (hnum : NumbersBelow (10 ^ 15) spec.hosts)
    (hexp : expand slack spec.hosts = .ret o) : firstNames slack spec = o.getD [] := by
  have hrel := hostlistCreate_rel slack pow15_le suffix_lt hnum
  rw [hexp] at hrel
  obtain ⟨created, hcreate, hrel⟩ := hrel.ret_left
  rw [firstNames, hcreate]
  cases hrel with
  | none => rfl
  | some happ => exact happ.names

/-- A piece of hosts is pushed onto the list, and changes no filter. -/
theorem HostsPiece.pushed (hp : HostsPiece p) (hspec : pieceSpec p = some spec)
    (hnum : NumbersBelow (10 ^ 15) spec.hosts) (hw : (opt.wcoll.getD hostlistNew).Wf)
    (hb : (opt.wcoll.getD hostlistNew).Below (10 ^ 15)) (h : wcollArgProcess env p opt = .ret opt') :
    ∃ hl, opt'.wcoll = some hl ∧ Appended (10 ^ 15) (opt.wcoll.getD hostlistNew) (firstNames env.slack spec) hl ∧
      opt'.excludeList = opt.excludeList ∧ opt'.regexList = opt.regexList := by
  rw [hp.process] at h
  unfold wcollHostsProcess at h
  -- the expression that is read is `spec`, and its hosts are pushed
  obtain ⟨spec', hspec', h⟩ := Run.bind_eq_ret_iff.mp h
  obtain rfl : spec = spec' := by
    rw [pieceSpec, hspec'] at hspec
    exact (Option.some_inj.mp hspec).symm
  obtain ⟨pushed, hpush, h⟩ := Run.bind_eq_ret_iff.mp h
  have hrel := hostlistPush_rel env.slack pow15_le suffix_lt hw hb hnum
  rw [hpush] at hrel
  obtain ⟨o, hexp, happ⟩ := hrel.ret_right
  rw [← firstNames_eq hnum hexp] at happ
  refine ⟨pushed.2, ?_⟩
  -- registering a type or a user changes the table of hosts alone
  split at h
  · obtain ⟨info, -, h⟩ := Run.bind_eq_ret_iff.mp h
    cases info with
    | none => cases h
    | some info =>
        cases h
        exact ⟨rfl, happ, rfl, rfl⟩
  · cases h
    exact ⟨rfl, happ, rfl, rfl⟩

/-- `spec` is the first typed expression that has the host among its `hosts`. -/
def FirstTyped (hosts : HostSpec → List CStr) (specs : List HostSpec) (host : CStr) (spec : HostSpec) : Prop :=
  spec.typed ∧ host ∈ hosts spec ∧ ∃ pre post, specs = pre ++ spec :: post ∧ ∀ s ∈ pre, s.typed → host ∉ hosts s

/-- The first typed expression that has the host in its first stage has it after the second, and the
first that has it after the second says the same as the first that has it in its first stage. -/
structure KeepsFirst (first full : HostSpec → List CStr) (specs : List HostSpec) (host : CStr) : Prop where
  named : ∀ spec, FirstTyped first specs host spec → host ∈ full spec
  found : ∀ spec, FirstTyped full specs host spec →
    ∃ spec', FirstTyped first specs host spec' ∧ spec'.rcmdType = spec.rcmdType ∧ spec'.user = spec.user

theorem firstTyped_iff {hosts : HostSpec → List CStr} :
    FirstTyped hosts specs host spec ↔ (specs.find? fun s => s.typed && host ∈ hosts s) = some spec := by
  rw [List.find?_eq_some_iff_append, FirstTyped, Bool.and_eq_true, decide_eq_true_eq, and_assoc]
  refine and_congr_right fun _ => and_congr_right fun _ => exists_congr fun pre => exists_congr fun post =>
    and_congr_right fun _ => forall₂_congr fun s _ => ?_
  cases s.typed <;> simp

theorem FirstTyped.unique {hosts : HostSpec → List CStr} {spec' : HostSpec}
    (h : FirstTyped hosts specs host spec) (h' : FirstTyped hosts specs host spec') : spec = spec' :=
  Option.some_inj.mp ((firstTyped_iff.mp h).symm.trans (firstTyped_iff.mp h'))

/-- The first is the same by all names that typed expressions have alike. -/
theorem firstTyped_congr {hosts hosts' : HostSpec → List CStr}
    (h : ∀ s ∈ specs, s.typed → (host ∈ hosts s ↔ host ∈ hosts' s)) :
    FirstTyped hosts specs host spec ↔ FirstTyped hosts' specs host spec := by
  have hfind : (specs.find? fun s => s.typed && host ∈ hosts s) = specs.find? fun s => s.typed && host ∈ hosts' s := by
    refine List.find?_congr fun s hs => ?_
    cases htyped : s.typed with
    | false => rfl
    | true => simp only [h s hs htyped]
  rw [firstTyped_iff, firstTyped_iff, hfind]

theorem KeepsFirst.congr {first first' full : HostSpec → List CStr} (hkeeps : KeepsFirst first full specs host)
    (h : ∀ s ∈ specs, s.typed → (host ∈ first s ↔ host ∈ first' s)) : KeepsFirst first' full specs host := by
  refine ⟨fun spec hspec => hkeeps.named spec ((firstTyped_congr h).mpr hspec), ?_⟩
  intro spec hspec
  obtain ⟨spec', hspec', hsame⟩ := hkeeps.found spec hspec
  exact ⟨spec', (firstTyped_congr h).mp hspec', hsame⟩

/-- A host or a host with one bracket. -/
def HostExpr.AtMostOne : HostExpr → Prop
  | .two .. => False
  | _ => True

/-- Hosts of at most one bracket each have the same names in both stages. -/
theorem stages_one_bracket {slack : CStr} {spec : HostSpec} {es : List HostExpr}
    (hspec : spec.hosts = HostExpr.listText es) (hok : HostExpr.ListOk (10 ^ 15) es)
    (hone : ∀ e ∈ es, e.AtMostOne)
    (hshort : ∀ x ∈ es.flatMap HostExpr.names, x.length < 1023)
    (hsmall : (es.flatMap HostExpr.names).length < 2 ^ 31) (host : CStr) :
    host ∈ firstNames slack spec ↔ host ∈ fullHosts slack spec := by
  have hshort' : ∀ x ∈ es.flatMap HostExpr.names, x.length < 1024 :=
    fun x hx => Nat.lt_succ_of_lt (hshort x hx)
  -- the first stage reads every expression as it is written
  have hpiece : (es.flatMap fun e => (e.piece slack).names) = es.flatMap HostExpr.names := by
    apply List.flatMap_congr
    intro e he
    have hlen : ∀ x ∈ e.names, x.length < 1023 :=
      fun x hx => hshort x (List.mem_flatMap.mpr ⟨e, he, hx⟩)
    cases e with
    | name p =>
        have hp := hlen p List.mem_cons_self
        simp only [HostExpr.piece, curTok, if_pos hp, Piece.names, HostExpr.names]
    | one p body s =>
        exact HostExpr.piece_names_one fun x hx => Nat.lt_of_lt_of_le (hlen x hx) (by decide)
    | two => exact (hone _ he).elim
  -- and the second finds no bracket any more
  have hrows : es.flatMap HostExpr.rows = (es.flatMap HostExpr.names).map HostExpr.name := by
    rw [List.map_flatMap]
    apply List.flatMap_congr
    intro e he
    cases e with
    | name p => rfl
    | one p body s => simp [HostExpr.rows, HostExpr.names]
    | two => exact (hone _ he).elim
  have hfirst : firstNames slack spec = es.flatMap HostExpr.names := by
    have hnum : NumbersBelow (10 ^ 15) spec.hosts := by
      rw [hspec]
      exact HostExpr.numbersBelow_listText hok
    have hexp : expand slack spec.hosts = .ret (some (es.flatMap HostExpr.names)) := by
      rw [hspec, HostExpr.expand_listText hok, hpiece]
    exact firstNames_eq hnum hexp
  have hfull : fullHosts slack spec = es.flatMap HostExpr.names := by
    obtain ⟨first, heq, hw, hb, hxs⟩ := HostExpr.create_firstRound le_rfl suffix_lt hok hshort' slack
    obtain ⟨hl, hexp, happ⟩ := HostExpr.wcollExpand_fits le_rfl suffix_lt hw hb
      (HostExpr.rows_of_listOk hok hshort') hxs (by rw [hrows, List.length_map]; exact hsmall) (by
        rw [hrows, List.forall_mem_map]
        exact hshort)
    rw [fullHosts, hspec, heq, hexp]
    show hl.names = _
    rw [happ.names, hostlistNew_names, List.nil_append, HostExpr.flatMap_rows]
  rw [hfirst, hfull]

end Pdsh
