import Pdsh.Dsh.ThreadArray
import Pdsh.Dshbak.Piped

/-!
# From the host list to the groups of `dshbak`

The parts put together: the host list fills the thread array, the array decides on the labels, the
workers print under them, and `dshbak` takes the labels off again. Every name of the list is left
with the lines that its host wrote (`targets_regrouped`).
-/

namespace Pdsh.Dsh

open Lib Lib.Lines Lib.Transition Dshbak

variable {fanout : Int32} {e : ErrState} {sopt : Bool} {rv : Nat → Int} {hl : Hostlist} {labels : Bool}
  {rcmd : CStr → Bool} {hosts : List CStr} {h : CStr} {fuel : Nat}

/-- A host name that `dshbak` finds in front of a colon, with and without the domain. -/
structure TagName (h : CStr) : Prop where
  ne_nil : h ≠ []
  head : ∀ c ∈ h.head?, c ≠ '.'
  plain : ∀ c ∈ h, isspace c = false ∧ c ≠ ':'

theorem TagName.of_letter {c : Char} (hc : isspace c = false ∧ c ≠ ':') (hdot : c ≠ '.') : TagName [c] := by
  refine ⟨List.cons_ne_nil _ _, ?_, ?_⟩
  · intro x hx
    cases hx
    exact hdot
  · intro x hx
    rw [List.mem_singleton.mp hx]
    exact hc

theorem TagName.shortName_ne_nil (hh : TagName h) : shortName h ≠ [] := by
  cases h with
  | nil => exact absurd rfl hh.ne_nil
  | cons c h =>
      have hc : c ≠ '.' := hh.head c rfl
      rw [shortName, List.takeWhile_cons_of_pos (by simpa using hc)]
      exact List.cons_ne_nil _ _

/-- The label of such a name is a tag, whether the domain is kept or not. -/
theorem TagName.tagged (hh : TagName h) {rc : Int} : Tagged e ⟨h, true, rc⟩ := by
  have htake : ∀ {s : CStr}, s ≠ [] → (∀ c ∈ s, c ∈ h) → tagOf e ⟨h, true, rc⟩ = s.take (LINEBUFSIZE - 1) →
      Tagged e ⟨h, true, rc⟩ := by
    intro s hs hin htag
    refine ⟨rfl, ?_, ?_⟩
    · rw [htag]
      cases s with
      | nil => exact absurd rfl hs
      | cons c s => exact List.cons_ne_nil _ _
    · intro c hc
      rw [htag] at hc
      exact hh.plain c (hin c (List.mem_of_mem_take hc))
  by_cases hkeep : Numeric h ∨ e.keep_host_domain = true
  · exact htake hh.ne_nil (fun _ hc => hc) (hostText_whole hkeep)
  · obtain ⟨hnum, hdomain⟩ := not_or.mp hkeep
    refine htake hh.shortName_ne_nil (fun _ hc => (List.takeWhile_prefix _).subset hc) ?_
    show hostText e.keep_host_domain h = _
    rw [Bool.not_eq_true _ |>.mp hdomain]
    exact hostText_short h hnum

theorem jobOf_out (streams : Nat → Which → Stream) :
    (jobOf (hosts.map (thdInit labels rcmd)) streams).out.t = hosts.map fun host => ⟨host, labels, 0⟩ := by
  show List.map _ (List.map _ hosts) = _
  rw [List.map_map]
  rfl

/-- The entries of the array are the hosts. -/
theorem jobOf_entry {streams : Nat → Which → Stream} {i : Nat} {o : ThdOut}
    (ho : (jobOf (hosts.map (thdInit labels rcmd)) streams).out.t[i]? = some o) :
    ∃ host, hosts[i]? = some host ∧ o = ⟨host, labels, 0⟩ := by
  rw [jobOf_out, List.getElem?_map] at ho
  obtain ⟨host, hhost, ho⟩ := Option.map_eq_some_iff.mp ho
  exact ⟨host, hhost, ho.symm⟩

theorem jobOf_new (streams : Nat → Which → Stream) (hrcmd : ∀ host ∈ hosts, rcmd host = true) :
    ∀ th ∈ (jobOf (hosts.map (thdInit labels rcmd)) streams).threads.t, th.state ≠ .canceled := by
  intro th hth
  obtain ⟨entry, hentry, rfl⟩ := List.mem_map.mp hth
  obtain ⟨host, hhost, rfl⟩ := List.mem_map.mp hentry
  show (if rcmd host then HostState.new else .canceled) ≠ .canceled
  rw [hrcmd host hhost]
  simp

/-- `pdsh` on a host list, piped into `dshbak`: where no number of the list is cut, the names are
distinct and have distinct labels, and a module is there for every host, each name is left with the
lines of its host, in their order. -/
theorem targets_regrouped (P : Perl) (hp : Produced ULONG_MAX.toNat hl)
    (hsmall : hl.names.length + 1 < 2 ^ 31) (hfuel : hl.names.length < fuel)
    (hdigits : ∀ hr ∈ hl.hr, ∀ d ∈ hr.digits, d.length ≤ 14) (hnames : ∀ h ∈ hl.names, TagName h)
    (hnodup : hl.names.Nodup)
    (hlabels : ∀ h ∈ hl.names, ∀ h' ∈ hl.names, h ≠ h' → labelOf e hl.names h ≠ labelOf e hl.names h')
    (hrcmd : ∀ h ∈ hl.names, rcmd h = true) :
    ∃ t domain_in_label, tableLoop hl (hostlistCount hl).toInt true rcmd fuel [] (none, false)
        hostlistIteratorCreate = some (.built t domain_in_label) ∧
      ∀ (streams : Nat → Which → Stream) (s' : Job), (jobOf t streams).out.Start →
        (∀ k < hl.names.length, (∀ w, Plain w (streamOf (streams k w).reads)) ∧
          Ended '\n' (streamOf (streams k .stdout).reads)) →
        Steps (jobStep fanout { e with keep_host_domain := domain_in_label } sopt rv) Smooth (jobOf t streams) s' →
        s'.threads.main = .finished →
        ∀ (k : Nat) (h : CStr), hl.names[k]? = some h →
          ((processLines (stdoutText s'.out)).get (hostText domain_in_label h)).getD [] =
              lines '\n' (streamOf (streams k .stdout).reads) ∧
            ∀ g, g ∈ normal P (processLines (stdoutText s'.out)) ∨
                g ∈ coalesced P (processLines (stdoutText s'.out)) →
              hostText domain_in_label h ∈ g.tags → g.data = lines '\n' (streamOf (streams k .stdout).reads) := by
  obtain ⟨-, hbuilt⟩ := tableLoop_eq true rcmd hp hsmall hfuel
  rw [nextTexts_eq_names_iff.mpr hdigits] at hbuilt
  refine ⟨_, _, hbuilt, ?_⟩
  intro streams s' hout hwritten run hmain k h hk
  have hlength : (jobOf (hl.names.map (thdInit true rcmd)) streams).out.t.length = hl.names.length := by
    rw [jobOf_out, List.length_map]
  refine piped_output_regrouped (e := { e with keep_host_domain := domainInLabel hl.names }) (k := k)
    (o := ⟨h, true, 0⟩) P (jobOf_start streams) hout (jobOf_new streams hrcmd) ?_ ?_ ?_ ?_ run hmain ?_
  · intro i w hi
    exact (hwritten i (hlength ▸ hi)).1 w
  · intro i hi
    exact (hwritten i (hlength ▸ hi)).2
  · intro o ho
    rw [jobOf_out] at ho
    obtain ⟨host, hhost, rfl⟩ := List.mem_map.mp ho
    exact (hnames host hhost).tagged
  · intro i j oi oj hoi hoj hsame
    obtain ⟨host, hhost, rfl⟩ := jobOf_entry hoi
    obtain ⟨host', hhost', rfl⟩ := jobOf_entry hoj
    -- two hosts with one label are one host, and its name is there once
    have heq : host = host' := by
      by_contra hne
      apply hlabels host (List.mem_of_getElem? hhost) host' (List.mem_of_getElem? hhost') hne
      exact (labelOf_inj e).mpr hsame
    apply (List.getElem?_inj (List.getElem?_eq_some_iff.mp hhost).1 hnodup).mp
    rw [hhost, hhost', heq]
  · rw [jobOf_out, List.getElem?_map, hk]
    rfl

/-- `a,b`. -/
def letterHosts : Hostlist := ⟨[hostrangeCreateSingle ['a'], hostrangeCreateSingle ['b']], 2, 2⟩

theorem targets_regrouped_two : ∃ (t : List (Thd × ThdOut)) (streams : Nat → Which → Stream) (s' : Job),
    tableLoop letterHosts 2 true (fun _ => true) 3 [] (none, false) hostlistIteratorCreate = some (.built t false) ∧
    (jobOf t streams).out.Start ∧
    Steps (jobStep 2 ⟨[], [], false, []⟩ false fun _ => 0) Smooth (jobOf t streams) s' ∧
    s'.threads.main = .finished ∧ stdoutText s'.out = "a: x\nb: z\na: y\n".toList ∧
    ((processLines (stdoutText s'.out)).get "a".toList).getD [] = ["x\n".toList, "y\n".toList] := by
  let e : ErrState := ⟨[], [], false, []⟩
  obtain ⟨cb, hcreate⟩ : ∃ cb, Cbuf.create true true (fun _ => '\x00') 64 131072 = .ok cb := ⟨_, rfl⟩
  have hp : Produced ULONG_MAX.toNat letterHosts := @Produced.create _ [] "a,b".toList _ (by decide) (by decide)
  have hnames : letterHosts.names = ["a".toList, "b".toList] := by decide
  have hcases : ∀ h ∈ letterHosts.names, h = ['a'] ∨ h = ['b'] := by
    intro h hh
    rw [hnames] at hh
    simpa using hh
  have htags : ∀ h ∈ letterHosts.names, TagName h := by
    intro h hh
    rcases hcases h hh with rfl | rfl
    · exact .of_letter (by decide) (by decide)
    · exact .of_letter (by decide) (by decide)
  have hlabels : ∀ h ∈ letterHosts.names, ∀ h' ∈ letterHosts.names, h ≠ h' →
      labelOf e letterHosts.names h ≠ labelOf e letterHosts.names h' := by
    intro h hh h' hh' hne heq
    have hsame := (labelOf_inj e).mp heq
    rcases hcases h hh with rfl | rfl
    · rcases hcases h' hh' with rfl | rfl
      · exact hne rfl
      · exact absurd hsame (by decide)
    · rcases hcases h' hh' with rfl | rfl
      · exact absurd hsame (by decide)
      · exact hne rfl
  obtain ⟨t, domain_in_label, hbuilt, hregrouped⟩ := @targets_regrouped 2 e false (fun _ => 0) letterHosts
    (fun _ => true) 3 stable hp (by decide) (by decide) (by decide) htags (by decide) hlabels fun _ _ => rfl
  have htable : tableLoop letterHosts 2 true (fun _ => true) 3 [] (none, false) hostlistIteratorCreate =
      some (.built (["a".toList, "b".toList].map (thdInit true fun _ => true)) false) := by decide
  cases hbuilt.symm.trans htable
  obtain ⟨s', run, hmain, htext⟩ := exists_twoHostRun hcreate
  refine ⟨_, fun k _ => ⟨cb, 3, twoHostReads k, false, false⟩, s', htable, twoHostJob_out hcreate, run, hmain,
    htext, ?_⟩
  obtain ⟨hget, -⟩ := hregrouped (fun k _ => ⟨cb, 3, twoHostReads k, false, false⟩) s' (twoHostJob_out hcreate)
    (fun k _ => ⟨(twoHostReads_ok k).2.2, (twoHostReads_ok k).2.1⟩) run hmain 0 "a".toList (by rw [hnames]; rfl)
  exact hget

end Pdsh.Dsh
