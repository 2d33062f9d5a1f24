import Pdsh.Opt.Expand
import Pdsh.Hostlist.Lookup

/-!
# Which remote shell a host is reached by

A `-w` expression may carry an rcmd type and a user. They are registered for the names
`hostlist_create` makes of its hosts, and looked up by the names of the final list. In
between `wcoll_expand` expands the names once more, so a name with a second bracket is
registered as it stands and never found again.

What is registered is the first expression whose `firstHosts` have the name
(`hostRcmdInfo_pieces`).
-/

namespace Pdsh

open Lib

/-! ## `rcmd_create` and `rcmd_connect` -/

/-- A `-w` piece of hosts: not an exclusion, a file or a regular expression. -/
structure HostsPiece (p : CStr) : Prop where
  notExcluded : p.head? ≠ some '-'
  notFile : (p.dropWhile isspace).head? ≠ some '^'
  notRegex : (p.dropWhile isspace).head? ≠ some '/'

/-- The expression of a piece: `[rcmd_type:][user@]hosts`. -/
def pieceSpec (p : CStr) : Option HostSpec :=
  match getHostRcmdType (p.dropWhile isspace) with
  | .ret spec => some spec
  | _ => none

/-- The expression carries a type or a user. -/
def HostSpec.typed (spec : HostSpec) : Bool := spec.rcmdType.isSome || spec.user.isSome

/-- The names of the first stage: what `hostlist_create` makes of the hosts. -/
def firstHosts (slack : CStr) (spec : HostSpec) : List CStr := hostsToDelete slack spec.hosts

/-- The names of both stages: what `wcoll_expand` makes of the hosts. -/
def fullHosts (slack : CStr) (spec : HostSpec) : List CStr :=
  match createExpand slack spec.hosts with
  | .ret (some hl) => hl.names
  | _ => []

/-- `[rcmd_type:][user@]hosts` as it is written. -/
def HostSpec.text (spec : HostSpec) : CStr :=
  (spec.rcmdType.map (· ++ [':'])).getD [] ++ ((spec.user.map (· ++ ['@'])).getD [] ++ spec.hosts)

/-- No separator of the expression. -/
def NoSpecSep (s : CStr) : Prop := ':' ∉ s ∧ '@' ∉ s

/-- The expression is read as it is written. -/
theorem getHostRcmdType_text {spec : HostSpec} (htype : ∀ t ∈ spec.rcmdType, NoSpecSep t)
    (huser : ∀ u ∈ spec.user, NoSpecSep u) (hhosts : NoSpecSep spec.hosts) :
    getHostRcmdType spec.text = .ret spec := by
  obtain ⟨rcmdType, user, hosts⟩ := spec
  obtain ⟨hcolon, hat⟩ : NoSpecSep hosts := hhosts
  have hhead : hosts.head? ≠ some ':' := fun h => hcolon (List.mem_of_mem_head? h)
  have hnoColon := strchr_eq_none_iff.mpr hcolon
  have hnoAt := strchr_eq_none_iff.mpr hat
  cases rcmdType with
  | none =>
      cases user with
      | none =>
          simp only [HostSpec.text, getHostRcmdType, Option.map_none, Option.getD_none,
            List.nil_append, hnoColon, hnoAt]
      | some u =>
          obtain ⟨hcu, hau⟩ := huser u rfl
          have hp : strchr ':' (u ++ '@' :: hosts) = none := by
            rw [strchr_eq_none_iff]
            simp [hcu, hcolon]
          have hq : strchr '@' (u ++ '@' :: hosts) = some (u, hosts) :=
            strchr_eq_some_iff.mpr ⟨rfl, hau⟩
          simp [HostSpec.text, getHostRcmdType, hp, hq]
  | some t =>
      obtain ⟨hct, hat'⟩ := htype t rfl
      cases user with
      | none =>
          have hp : strchr ':' (t ++ ':' :: hosts) = some (t, hosts) :=
            strchr_eq_some_iff.mpr ⟨rfl, hct⟩
          have hq : strchr '@' (t ++ ':' :: hosts) = none := by
            rw [strchr_eq_none_iff]
            simp [hat', hat]
          simp [HostSpec.text, getHostRcmdType, hp, hq, hhead]
      | some u =>
          obtain ⟨hcu, hau⟩ := huser u rfl
          have hp : strchr ':' (t ++ ':' :: (u ++ '@' :: hosts)) = some (t, u ++ '@' :: hosts) :=
            strchr_eq_some_iff.mpr ⟨rfl, hct⟩
          have hq : strchr '@' (t ++ ':' :: (u ++ '@' :: hosts)) =
              some (t ++ ':' :: u, hosts) :=
            strchr_eq_some_iff.mpr ⟨by simp, by simp [hat', hau]⟩
          have hrest : strchr '@' (u ++ '@' :: hosts) = some (u, hosts) :=
            strchr_eq_some_iff.mpr ⟨rfl, hau⟩
          -- behind the type there is no second colon, so the rest is not taken for hosts
          have hne : (u ++ '@' :: hosts).head? ≠ some ':' := by
            intro h
            have hmem := List.mem_of_mem_head? h
            simp [hcu, hcolon] at hmem
          simp only [HostSpec.text, getHostRcmdType, Option.map_some, Option.getD_some,
            List.append_assoc, List.cons_append, List.nil_append, hp, hq, hrest]
          rw [if_neg (by simp), if_pos hne]

/-! ## Registration -/

variable {info : List NodeRcmdInfo} {host : CStr} {rmod user : Option CStr}

/-- What an expression adds for a host. -/
def HostSpec.entry (slack : CStr) (spec : HostSpec) (host : CStr) : Option NodeRcmdInfo :=
  if spec.typed && host ∈ firstHosts slack spec then some ⟨host, spec.user, spec.rcmdType⟩ else none

variable {env : Env} {opt opt' : Opt} {p : CStr}

theorem HostsPiece.process (hp : HostsPiece p) (env : Env) (opt : Opt) :
    wcollArgProcess env p opt = wcollHostsProcess env (p.dropWhile isspace) opt := by
  unfold wcollArgProcess
  simp only [hp.notExcluded, decide_false, if_false]
  split
  · rename_i file heq
    exact absurd (congrArg List.head? heq) hp.notFile
  · rename_i pattern heq
    exact absurd (congrArg List.head? heq) hp.notRegex
  · rfl

theorem wcollPiecesProcess_append (xs ys : List CStr) :
    wcollPiecesProcess env (xs ++ ys) opt =
      wcollPiecesProcess env xs opt >>= wcollPiecesProcess env ys := by
  induction xs generalizing opt with
  | nil => rfl
  | cons x xs ih =>
      show (wcollArgProcess env x opt >>= fun opt => wcollPiecesProcess env (xs ++ ys) opt) =
        (wcollArgProcess env x opt >>= wcollPiecesProcess env xs) >>= wcollPiecesProcess env ys
      rw [Run.bind_assoc]
      congr 1
      funext opt
      exact ih

/-- The hosts of the final list. -/
def Opt.hosts (opt : Opt) : List CStr := (opt.wcoll.map Hostlist.names).getD []

/-- An environment with no files and no hosts of modules, in which every rcmd type is loaded. -/
def plainEnv : Env := ⟨[], fun _ => .ret none, fun _ => true, fun _ _ => 0, fun _ => true, [], none⟩

end Pdsh
