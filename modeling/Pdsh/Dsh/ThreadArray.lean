import Pdsh.Dsh.Job
import Pdsh.Dsh.Labels
import Pdsh.Hostlist.Enumerate

/-!
# The thread array

`dsh` allocates one entry more than `hostlist_count` says and fills the array from an iterator, host
by host, up to the entry for which `hostlist_next` gives nothing. Two assertions say that the count
was right. For every list the operations make they hold, nothing behind the array is written, and
the main loop starts with one entry for each host (`table_built`).
-/

namespace Pdsh.Dsh

open Lib

variable {hl : Hostlist} {labels : Bool} {rcmd : CStr → Bool} {itr : Iterator} {hosts : List CStr} {n : Int}
  {t : List (Thd × ThdOut)} {domain : Option CStr} {domain_in_label : Bool} {fuel : Nat}

/-- How the loop that fills the array ends. -/
inductive TableEnd where
  /-- an entry behind the array is written -/
  | outside
  /-- an assertion fails -/
  | assertion
  | built (t : List (Thd × ThdOut)) (domain_in_label : Bool)
deriving DecidableEq

/-- `_thd_init`; `rcmd` says for which hosts `rcmd_create` finds a module. -/
def thdInit (labels : Bool) (rcmd : CStr → Bool) (host : CStr) : Thd × ThdOut :=
  (⟨if rcmd host then .new else .canceled, .absent, false⟩, ⟨host, labels, 0⟩)

/-- What a host does to `domain` and `domain_in_label`. -/
def domainStep (d : Option CStr × Bool) (host : CStr) : Option CStr × Bool :=
  if d.2 then d
  else
    match domainOf host with
    | none => d
    | some x =>
        match d.1 with
        | none => (some x, d.2)
        | some domain => (some domain, strcmp x domain ≠ 0)

/-- The loop, with `n` for `rshcount` and the entries filled so far. -/
def tableLoop (hl : Hostlist) (n : Int) (labels : Bool) (rcmd : CStr → Bool) :
    Nat → List (Thd × ThdOut) → Option CStr × Bool → Iterator → Option TableEnd
  | 0, _, _, _ => none
  | fuel + 1, t, d, itr =>
      -- `t[i].host` is written before `i` is checked
      if n + 1 ≤ t.length then some .outside
      else
        match (hostlistNext hl itr).1 with
        | none => if t.length = n then some (.built t d.2) else some .assertion
        | some host =>
            if t.length < n then
              tableLoop hl n labels rcmd fuel (t ++ [thdInit labels rcmd host]) (domainStep d host)
                (hostlistNext hl itr).2
            else some .assertion

/-- The job before the main loop, from the entries of the array. -/
def jobOf (t : List (Thd × ThdOut)) (streams : Nat → Which → Stream) : Job where
  threads := ⟨t.map Prod.fst, 0, .loop, 0, none⟩
  out := ⟨t.map Prod.snd, streams, []⟩
  destroyed := fun _ => false

/-- The decision on the domains, host by host. -/
theorem foldl_domainStep : (hosts.foldl domainStep (domain, domain_in_label)).2 =
    domainLoop domain domain_in_label hosts := by
  induction hosts generalizing domain domain_in_label with
  | nil => rfl
  | cons host hosts ih =>
      rw [List.foldl_cons, domainLoop, domainStep]
      cases domain_in_label with
      | true => exact ih
      | false =>
          simp only [Bool.false_eq_true, if_false]
          cases domainOf host with
          | none => exact ih
          | some x =>
              cases domain with
              | none => exact ih
              | some domain => exact ih

/-- Where the iterator gives as many hosts as there are entries left, all of them come in. -/
theorem tableLoop_yields (h : Yields (hostlistNext hl) itr hosts) {d : Option CStr × Bool}
    (hcount : (t.length : Int) + hosts.length = n) (hfuel : hosts.length < fuel) :
    tableLoop hl n labels rcmd fuel t d itr =
      some (.built (t ++ hosts.map (thdInit labels rcmd)) (hosts.foldl domainStep d).2) := by
  induction h generalizing t d fuel with
  | stop hnone =>
      cases fuel with
      | zero => omega
      | succ fuel =>
          rw [List.length_nil] at hcount
          rw [tableLoop, if_neg (by omega), hnone]
          show (if _ then _ else _) = _
          rw [if_pos (by omega), List.map_nil, List.append_nil, List.foldl_nil]
  | @next itr host hosts hsome rest ih =>
      cases fuel with
      | zero => omega
      | succ fuel =>
          rw [List.length_cons] at hcount hfuel
          rw [tableLoop, if_neg (by omega), hsome]
          show (if _ then _ else _) = _
          rw [if_pos (by omega), ih (by rw [List.length_append, List.length_singleton]; omega) (by omega),
            List.append_assoc]
          rfl

/-- A host without a module is canceled from the start. -/
theorem jobOf_start (streams : Nat → Which → Stream) :
    (jobOf (hosts.map (thdInit labels rcmd)) streams).Start where
  threads := by
    refine ⟨?_, rfl, rfl, rfl, rfl⟩
    intro th hth
    obtain ⟨entry, hentry, rfl⟩ := List.mem_map.mp hth
    obtain ⟨host, -, rfl⟩ := List.mem_map.mp hentry
    refine ⟨?_, rfl, rfl⟩
    unfold thdInit
    cases rcmd host with
    | true => exact .inl rfl
    | false => exact .inr rfl
  length := by
    show (List.map _ _).length = (List.map _ _).length
    rw [List.length_map, List.length_map, List.length_map, List.length_map]
  destroyed := fun _ => rfl

/-- What comes in are the hosts of the list, as `hostlist_next` prints them. -/
theorem tableLoop_eq (labels : Bool) (rcmd : CStr → Bool) (hp : Produced ULONG_MAX.toNat hl)
    (hsmall : hl.names.length + 1 < 2 ^ 31) (hfuel : hl.names.length < fuel) :
    (hostlistCount hl).toInt = hl.nextTexts.length ∧
      tableLoop hl (hostlistCount hl).toInt labels rcmd fuel [] (none, false) hostlistIteratorCreate =
        some (.built (hl.nextTexts.map (thdInit labels rcmd)) (domainInLabel hl.nextTexts)) := by
  have hw := (hp.wf (Nat.le_refl _) (by decide)).1
  have hs : hl.Small := Nat.lt_of_succ_lt hsmall
  have hyields := next_yields hw.nranges hw.ranges fun hr hmem => hs.range_lt hmem
  have hlength := hl.length_nextTexts
  have hcount : (hostlistCount hl).toInt = hl.nextTexts.length := by
    rw [hlength]
    exact hw.nhosts_toInt hs
  refine ⟨hcount, ?_⟩
  rw [tableLoop_yields hyields (by rw [hcount, List.length_nil]; omega) (by omega), foldl_domainStep]
  rfl

/-- For every list the operations make, the loop fills exactly the array: one entry for each host, in
order, with the names as `hostlist_next` gives them. -/
theorem table_built (labels : Bool) (rcmd : CStr → Bool) (hp : Produced ULONG_MAX.toNat hl)
    (hsmall : hl.names.length + 1 < 2 ^ 31) (hfuel : hl.names.length < fuel) :
    ∃ t domain_in_label, tableLoop hl (hostlistCount hl).toInt labels rcmd fuel [] (none, false)
        hostlistIteratorCreate = some (.built t domain_in_label) ∧
      (t.length : Int) = (hostlistCount hl).toInt ∧ (∀ streams, (jobOf t streams).Start) ∧
      (domain_in_label = true ↔ DomainsDiffer (t.map (·.2.host))) ∧
      (t.map (·.2.host) = hl.names ↔ ∀ hr ∈ hl.hr, ∀ d ∈ hr.digits, d.length ≤ 14) := by
  obtain ⟨hcount, hbuilt⟩ := tableLoop_eq labels rcmd hp hsmall hfuel
  have hhosts : (hl.nextTexts.map (thdInit labels rcmd)).map (·.2.host) = hl.nextTexts := by
    rw [List.map_map]
    exact List.map_id _
  refine ⟨_, _, hbuilt, ?_, jobOf_start, ?_, ?_⟩
  · rw [List.length_map, hcount]
  · rw [hhosts]
    exact domainInLabel_iff
  · rw [hhosts]
    exact nextTexts_eq_names_iff

/-- `a.y,n[1-2],m.x`: the domains differ. -/
def mixedHosts : Hostlist :=
  ⟨[hostrangeCreateSingle ['a', '.', 'y'], ⟨['n'], 1, 2, 1, false⟩, hostrangeCreateSingle ['m', '.', 'x']], 3, 4⟩

theorem table_built_mixed : ∃ t, tableLoop mixedHosts 4 true (fun _ => true) 5 [] (none, false)
    hostlistIteratorCreate = some (.built t true) ∧
    t.map (·.2.host) = ["a.y".toList, "n1".toList, "n2".toList, "m.x".toList] := by
  have hp : Produced ULONG_MAX.toNat mixedHosts :=
    @Produced.create _ [] "a.y,n[1-2],m.x".toList _ (by decide) (by decide)
  obtain ⟨t, domain_in_label, hbuilt, -, -, hdomains, hnames⟩ :=
    @table_built mixedHosts 5 true (fun _ => true) hp (by decide) (by decide)
  have hhosts := hnames.mpr (by decide)
  rw [hhosts] at hdomains
  have hdiffer : domain_in_label = true := by
    apply hdomains.mpr
    exact domainInLabel_iff.mp (by decide)
  rw [hdiffer] at hbuilt
  exact ⟨t, hbuilt, hhosts⟩

end Pdsh.Dsh
