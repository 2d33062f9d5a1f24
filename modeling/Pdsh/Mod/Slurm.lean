import Pdsh.Hostlist.Lookup
import Pdsh.Hostlist.Piece
import Pdsh.Hostlist.Token
import Pdsh.Opt.Wcoll

/-!
# Features of slurm nodes

`-C` asks for features, and `_slurm_wcoll_constraint` makes the list of the nodes of the wcoll that
have one of them. For every node that `hostlist_find` finds in the wcoll it goes through all
requested features and pushes the node for each that the node has; the `continue` behind the push
goes on with the next feature.

What slurm knows of its nodes, or the text of its error, is an argument.
-/

namespace Pdsh.Slurm

/-- `node_info_t`, as far as it is read. -/
structure NodeInfo where
  name : CStr
  features_act : Option CStr
  features : Option CStr
deriving DecidableEq, Repr

/-- The loop of `_features_include`. -/
def featuresIncludeLoop (c : CStr) : Nat → CStr → Bool
  | 0, _ => false
  | fuel + 1, f =>
      let f := f.dropWhile (· = ',')
      if c <+: f ∧ (f.drop c.length).head? ∈ [none, some ','] then true
      else
        match strchr ',' f with
        | none => false
        | some (_, rest) => featuresIncludeLoop c fuel (',' :: rest)

/-- `_features_include`; every round takes at least one character off `f`. -/
def featuresInclude (f c : CStr) : Bool := featuresIncludeLoop c (f.length + 1) f

/-- `slurm_process_opt` for the arguments of `-C`: `list_split_append` for each. -/
def constraintList (args : List CStr) : List CStr := args.flatMap listSplit

/-- The features of a node that are looked at. -/
def NodeInfo.featureString (n : NodeInfo) : Option CStr := n.features_act <|> n.features

/-- The loop over the requested features. -/
def pushMatches (f name : CStr) : List CStr → Hostlist → Hostlist
  | [], hl => hl
  | c :: constraints, hl =>
      pushMatches f name constraints (if featuresInclude f c then hostlistPushHost hl name else hl)

/-- The loop over the nodes; `hostlist_find` may rewrite widths of `wl`. -/
def constraintLoop (constraints : List CStr) : List NodeInfo → (wl hl : Hostlist) → Hostlist
  | [], _, hl => hl
  | n :: nodes, wl, hl =>
      let found := hostlistFind wl n.name
      if found.1 < 0 then constraintLoop constraints nodes found.2 hl
      else
        match n.featureString with
        | none => constraintLoop constraints nodes found.2 hl
        | some f =>
            constraintLoop constraints nodes found.2 (pushMatches f n.name constraints hl)

/-- `_slurm_wcoll_constraint`: the list, or the message it ends the process with. -/
def slurmWcollConstraint (load_node : Except CStr (List NodeInfo)) (constraints : List CStr)
    (wl : Hostlist) : Except CStr Hostlist :=
  match load_node with
  | .error strerror =>
      .error ("Unable to contact slurm controller: ".toList ++ strerror ++ ['\n'])
  | .ok nodes => .ok (constraintLoop constraints nodes wl hostlistNew)

/-! ## Features of a list -/

section Features

variable {c f : CStr}

/-- The test of `_features_include` takes the whole first item. -/
theorem first_item_iff {item : CStr} (rest : CStr) (hc : ',' ∉ c) (hitem : ',' ∉ item)
    (hrest : rest.head? ∈ [none, some ',']) :
    (c <+: item ++ rest ∧ ((item ++ rest).drop c.length).head? ∈ [none, some ',']) ↔ c = item := by
  constructor
  · rintro ⟨⟨more, hmore⟩, hhead⟩
    rw [← hmore, List.drop_left] at hhead
    rcases List.append_eq_append_iff.mp hmore with ⟨m, rfl, rfl⟩ | ⟨m, rfl, rfl⟩
    · cases m with
      | nil => exact (List.append_nil c).symm
      | cons d m =>
          obtain rfl : d = ',' := by simpa using hhead
          exact absurd (by simp) hitem
    · cases m with
      | nil => exact List.append_nil item
      | cons d m =>
          obtain rfl : d = ',' := by simpa using hrest
          exact absurd (by simp) hc
  · rintro rfl
    refine ⟨List.prefix_append c rest, ?_⟩
    rw [List.drop_left]
    exact hrest

/-- An item is not lost with the commas in front. -/
theorem mem_splitOn_dropWhile (hne : c ≠ []) :
    c ∈ (f.dropWhile (· = ',')).splitOn ',' ↔ c ∈ f.splitOn ',' := by
  induction f with
  | nil => rfl
  | cons d f ih =>
      by_cases hd : d = ','
      · subst hd
        rw [List.dropWhile_cons_of_pos (by simp), ih, ← List.nil_append (',' :: f),
          List.splitOn_append_cons_self_of_not_mem (by simp), List.mem_cons]
        exact ⟨.inr, fun h => h.resolve_left hne⟩
      · rw [List.dropWhile_cons_of_neg (by simpa using hd)]

theorem featuresIncludeLoop_iff (hne : c ≠ []) (hc : ',' ∉ c) {fuel : Nat}
    (hfuel : f.length < fuel) :
    featuresIncludeLoop c fuel f = true ↔ c ∈ f.splitOn ',' := by
  induction fuel generalizing f with
  | zero => omega
  | succ fuel ih =>
      rw [featuresIncludeLoop, ← mem_splitOn_dropWhile hne]
      have hshorter := (List.dropWhile_suffix (fun d => decide (d = ',')) (l := f)).length_le
      have hhead := List.head?_dropWhile_not (fun d => decide (d = ',')) f
      generalize f.dropWhile (· = ',') = g at hshorter hhead ⊢
      cases hcut : strchr ',' g with
      | none =>
          have hg := strchr_eq_none_iff.mp hcut
          have htest := first_item_iff [] hc hg (by simp)
          rw [List.append_nil] at htest
          rw [List.splitOn_eq_singleton hg, List.mem_singleton, ← htest]
          split
          next h => exact iff_of_true rfl h
          next h => exact iff_of_false (by simp) h
      | some cut =>
          obtain ⟨item, rest⟩ := cut
          obtain ⟨rfl, hitem⟩ := strchr_eq_some_iff.mp hcut
          -- the commas in front are gone, so the round takes the item and its comma
          have hlen : (',' :: rest).length < fuel := by
            cases item with
            | nil => simp at hhead
            | cons d item =>
                simp only [List.cons_append, List.length_cons, List.length_append] at hshorter ⊢
                omega
          have hmore := ih hlen
          rw [← mem_splitOn_dropWhile hne, List.dropWhile_cons_of_pos (by simp),
            mem_splitOn_dropWhile hne] at hmore
          have htest := first_item_iff (',' :: rest) hc hitem (by simp)
          rw [List.splitOn_append_cons_self_of_not_mem hitem, List.mem_cons (a := c), ← htest,
            ← hmore]
          split
          next h => exact iff_of_true rfl (.inl h)
          next h => exact ⟨.inr, fun hor => hor.resolve_left h⟩

/-- A feature without a comma is included when it is an item of the list. -/
theorem featuresInclude_iff (hne : c ≠ []) (hc : ',' ∉ c) :
    featuresInclude f c = true ↔ c ∈ f.splitOn ',' :=
  featuresIncludeLoop_iff hne hc (Nat.lt_succ_self _)

end Features

/-! ## The list of nodes -/

/-- `wl` after searches for these names, which may have rewritten its widths. -/
def searched (wl : Hostlist) (names : List CStr) : Hostlist :=
  names.foldl (fun wl x => (hostlistFind wl x).2) wl

/-- `hostlist_find` finds exactly the names of the list, also after other searches. -/
def DecidesMembership (wl : Hostlist) : Prop :=
  ∀ earlier x, 0 ≤ (hostlistFind (searched wl earlier) x).1 ↔ x ∈ wl.names

/-- How often a node is pushed. -/
def NodeInfo.hits (n : NodeInfo) (constraints : List CStr) : Nat :=
  match n.featureString with
  | none => 0
  | some f => constraints.countP (featuresInclude f)

/-- The names that are pushed. -/
def pushedNames (nodes : List NodeInfo) (constraints names : List CStr) : List CStr :=
  nodes.flatMap fun n =>
    if n.name ∈ names then List.replicate (n.hits constraints) n.name else []

section Pushes

variable {hl : Hostlist}

/-- The bound on the numbers of a list under which pushes keep the names. -/
abbrev Bounded (hl : Hostlist) : Prop := hl.Below ULONG_MAX.toNat

theorem pushMatches_appended (f name : CStr) (constraints : List CStr) (hw : hl.Wf)
    (hb : Bounded hl) :
    Appended ULONG_MAX.toNat hl (List.replicate (constraints.countP (featuresInclude f)) name)
      (pushMatches f name constraints hl) := by
  induction constraints generalizing hl with
  | nil => exact Appended.refl hw hb
  | cons c constraints ih =>
      rw [pushMatches]
      by_cases hc : featuresInclude f c
      · have hpushed := pushHost_appended (Nat.le_refl _) (by decide) hw hb name
        rw [if_pos hc, List.countP_cons_of_pos hc, List.replicate_succ, ← List.singleton_append]
        exact hpushed.trans (ih hpushed.wf hpushed.below)
      · rw [if_neg hc, List.countP_cons_of_neg hc]
        exact ih hw hb

theorem constraintLoop_appended (constraints names : List CStr) (nodes : List NodeInfo)
    {wl : Hostlist}
    (hfind : ∀ earlier x, 0 ≤ (hostlistFind (searched wl earlier) x).1 ↔ x ∈ names)
    (hw : hl.Wf) (hb : Bounded hl) :
    Appended ULONG_MAX.toNat hl (pushedNames nodes constraints names)
      (constraintLoop constraints nodes wl hl) := by
  induction nodes generalizing wl hl with
  | nil => exact Appended.refl hw hb
  | cons n nodes ih =>
      have hfind' := fun earlier => hfind (n.name :: earlier)
      rw [constraintLoop, pushedNames, List.flatMap_cons]
      by_cases hmem : n.name ∈ names
      · have hfound : ¬ (hostlistFind wl n.name).1 < 0 :=
          Int32.not_lt.mpr ((hfind [] n.name).mpr hmem)
        rw [if_neg hfound, if_pos hmem, NodeInfo.hits]
        cases n.featureString with
        | none => exact ih hfind' hw hb
        | some f =>
            have hpushed := pushMatches_appended f n.name constraints hw hb
            exact hpushed.trans (ih hfind' hpushed.wf hpushed.below)
      · have hfound : (hostlistFind wl n.name).1 < 0 :=
          Int32.not_le.mp fun h => hmem ((hfind [] n.name).mp h)
        rw [if_pos hfound, if_neg hmem, List.nil_append]
        exact ih hfind' hw hb

end Pushes

/-- The names of the list that `_slurm_wcoll_constraint` makes. -/
theorem slurmWcollConstraint_names {wl : Hostlist} (hfind : DecidesMembership wl)
    (nodes : List NodeInfo) (constraints : List CStr) :
    ∃ hl, slurmWcollConstraint (.ok nodes) constraints wl = .ok hl ∧
      hl.names = pushedNames nodes constraints wl.names := by
  have hpushed := constraintLoop_appended constraints wl.names nodes hfind hostlistNew_wf
    (by simp [Hostlist.Below, hostlistNew])
  exact ⟨_, rfl, by rw [hpushed.names, hostlistNew_names, List.nil_append]⟩

/-! ## One entry for each node -/

/-- The node has one of the features as a whole item. -/
def NodeInfo.HasFeature (n : NodeInfo) (constraints : List CStr) : Prop :=
  ∃ f, n.featureString = some f ∧ ∃ c ∈ constraints, c ∈ f.splitOn ','

/-- The list has each node of the wcoll that has a requested feature once, and no other name. -/
def OneEntryEach (args : List CStr) (nodes : List NodeInfo) (wl : Hostlist) : Prop :=
  ∃ hl, slurmWcollConstraint (.ok nodes) (constraintList args) wl = .ok hl ∧
    ∀ x, ((x ∈ wl.names ∧ ∃ n ∈ nodes, n.name = x ∧ n.HasFeature (constraintList args)) →
        hl.names.count x = 1) ∧
      (¬ (x ∈ wl.names ∧ ∃ n ∈ nodes, n.name = x ∧ n.HasFeature (constraintList args)) →
        x ∉ hl.names)

/-- A node is found to have no more than one of the features, and none with a comma inside. -/
def NodeInfo.MatchesOnce (n : NodeInfo) (constraints : List CStr) : Prop :=
  ∀ f, n.featureString = some f →
    constraints.countP (featuresInclude f) ≤ 1 ∧ ∀ c ∈ constraints, featuresInclude f c → ',' ∉ c

section Counts

variable {n : NodeInfo} {nodes : List NodeInfo} {constraints names : List CStr} {x : CStr}

theorem constraintList_ne_nil {args : List CStr} {c : CStr} (h : c ∈ constraintList args) :
    c ≠ [] := by
  obtain ⟨arg, -, htok⟩ := List.mem_flatMap.mp h
  obtain ⟨-, -, -, -, hunbroken⟩ := token_spec htok
  exact hunbroken.ne_nil

theorem item_plain {f c : CStr} (h : c ∈ f.splitOn ',') : ',' ∉ c := by
  have hpieces :=
    (Lib.Chunks.length_splitOn_intercalate_iff (c := ',') (List.splitOn_ne_nil _ f)).mp
    (by rw [List.intercalate_splitOn])
  exact hpieces c h

/-- Pushing once where there is a feature and never elsewhere is to match once. -/
theorem hits_iff (hne : ∀ c ∈ constraints, c ≠ []) :
    ((n.HasFeature constraints → n.hits constraints = 1) ∧
      (¬ n.HasFeature constraints → n.hits constraints = 0)) ↔ n.MatchesOnce constraints := by
  cases hf : n.featureString with
  | none => simp [NodeInfo.HasFeature, NodeInfo.hits, NodeInfo.MatchesOnce, hf]
  | some f =>
      have hitem : n.HasFeature constraints ↔
          ∃ c ∈ constraints, featuresInclude f c = true ∧ ',' ∉ c := by
        simp only [NodeInfo.HasFeature, hf, Option.some.injEq, exists_eq_left']
        refine exists_congr fun c => and_congr_right fun hc => ?_
        constructor
        · intro hmem
          exact ⟨(featuresInclude_iff (hne c hc) (item_plain hmem)).mpr hmem, item_plain hmem⟩
        · rintro ⟨hinc, hplain⟩
          exact (featuresInclude_iff (hne c hc) hplain).mp hinc
      have hhits : n.hits constraints = constraints.countP (featuresInclude f) := by
        rw [NodeInfo.hits, hf]
      simp only [NodeInfo.MatchesOnce, hf, Option.some.injEq, forall_eq', hhits]
      constructor
      · rintro ⟨hone, hzero⟩
        by_cases hhas : n.HasFeature constraints
        · -- the one that matches is the item
          obtain ⟨c, hc, hinc, hplain⟩ := hitem.mp hhas
          have hlength := hone hhas
          rw [List.countP_eq_length_filter] at hlength
          obtain ⟨d, hd⟩ := List.length_eq_one_iff.mp hlength
          have honly : ∀ e ∈ constraints, featuresInclude f e = true → e = d := by
            intro e he hinc'
            have hmem : e ∈ constraints.filter (featuresInclude f) :=
              List.mem_filter.mpr ⟨he, hinc'⟩
            rwa [hd, List.mem_singleton] at hmem
          refine ⟨(hone hhas).le, fun e he hinc' => ?_⟩
          rw [honly e he hinc', ← honly c hc hinc]
          exact hplain
        · have hnone := List.countP_eq_zero.mp (hzero hhas)
          exact ⟨(hzero hhas).le.trans (Nat.zero_le 1), fun e he hinc => absurd hinc (hnone e he)⟩
      · rintro ⟨hle, hplain⟩
        refine ⟨fun hhas => ?_, fun hhas => ?_⟩
        · obtain ⟨c, hc, hinc, -⟩ := hitem.mp hhas
          have hpos := List.countP_pos_iff.mpr ⟨c, hc, hinc⟩
          omega
        · rw [List.countP_eq_zero]
          exact fun c hc hinc => hhas (hitem.mpr ⟨c, hc, hinc, hplain c hc hinc⟩)

theorem mem_pushedNames (h : x ∈ pushedNames nodes constraints names) :
    x ∈ nodes.map NodeInfo.name := by
  obtain ⟨n, hn, hx⟩ := List.mem_flatMap.mp h
  split at hx
  · rw [List.eq_of_mem_replicate hx]
    exact List.mem_map_of_mem hn
  · cases hx

theorem count_pushedNames (constraints names : List CStr) (hnodup : (nodes.map NodeInfo.name).Nodup)
    (hn : n ∈ nodes) :
    (pushedNames nodes constraints names).count n.name =
      if n.name ∈ names then n.hits constraints else 0 := by
  induction nodes with
  | nil => cases hn
  | cons m nodes ih =>
      rw [List.map_cons, List.nodup_cons] at hnodup
      rw [pushedNames, List.flatMap_cons, List.count_append, ← pushedNames]
      rcases List.mem_cons.mp hn with rfl | hn
      · have hrest : n.name ∉ pushedNames nodes constraints names :=
          fun h => hnodup.1 (mem_pushedNames h)
        rw [List.count_eq_zero.mpr hrest, Nat.add_zero]
        split
        · exact List.count_replicate_self
        · rfl
      · have hother : m.name ≠ n.name := fun h => hnodup.1 (h ▸ List.mem_map_of_mem hn)
        rw [ih hnodup.2 hn]
        have hnot : List.count n.name
            (if m.name ∈ names then List.replicate (m.hits constraints) m.name else []) = 0 := by
          split
          · rw [List.count_replicate, if_neg (by simpa using hother)]
          · rfl
        rw [hnot, Nat.zero_add]

end Counts

/-- The list has one entry for each node exactly when every node of the wcoll matches one requested
feature at most, and none with a comma inside of brackets. -/
theorem one_entry_each_iff (args : List CStr) (nodes : List NodeInfo) (wl : Hostlist)
    (hnodup : (nodes.map NodeInfo.name).Nodup) (hfind : DecidesMembership wl) :
    OneEntryEach args nodes wl ↔
      ∀ n ∈ nodes, n.name ∈ wl.names → n.MatchesOnce (constraintList args) := by
  obtain ⟨hl, hret, hnames⟩ := slurmWcollConstraint_names hfind nodes (constraintList args)
  have hne : ∀ c ∈ constraintList args, c ≠ [] := fun c hc => constraintList_ne_nil hc
  constructor
  · rintro ⟨hl', hret', hentry⟩ n hn hwl
    obtain rfl : hl = hl' := Except.ok.inj (hret.symm.trans hret')
    have hcount := count_pushedNames (constraintList args) wl.names hnodup hn
    rw [← hnames, if_pos hwl] at hcount
    -- the node is in the list as often as its features are hit
    refine (hits_iff hne).mp ⟨fun hhas => ?_, fun hhas => ?_⟩
    · rw [← hcount]
      exact (hentry n.name).1 ⟨hwl, n, hn, rfl, hhas⟩
    · rw [← hcount, List.count_eq_zero]
      refine (hentry n.name).2 ?_
      rintro ⟨-, m, hm, hname, hfeature⟩
      rw [List.inj_on_of_nodup_map hnodup hm hn hname] at hfeature
      exact hhas hfeature
  · intro honce
    refine ⟨hl, hret, fun x => ⟨?_, ?_⟩⟩
    · rintro ⟨hwl, n, hn, rfl, hhas⟩
      rw [hnames, count_pushedNames _ _ hnodup hn, if_pos hwl]
      exact ((hits_iff hne).mpr (honce n hn hwl)).1 hhas
    · intro hnot hx
      rw [hnames] at hx
      obtain ⟨n, hn, rfl⟩ := List.mem_map.mp (mem_pushedNames hx)
      have hpos := List.count_pos_iff.mpr hx
      rw [count_pushedNames _ _ hnodup hn] at hpos
      split at hpos
      next hwl =>
        have hzero := ((hits_iff hne).mpr (honce n hn hwl)).2 fun hhas =>
            hnot ⟨hwl, n, hn, rfl, hhas⟩
        omega
      next => omega

/-! ## Lists that `hostlist_find` decides -/

theorem searched_stored {wl : Hostlist} (hw : wl.Wf) (names : List CStr) :
    (searched wl names).Wf ∧ (searched wl names).stored = wl.stored := by
  induction names generalizing wl with
  | nil => exact ⟨hw, rfl⟩
  | cons x names ih =>
      obtain ⟨hrw, -⟩ := hostlistFind_spec hw.ranges hw.nranges x
      obtain ⟨hw', hstored⟩ := ih (hrw.wf hw)
      exact ⟨hw', hstored.trans hrw.stored⟩

/-- A list that is not too long, of hosts that are stored by themselves or split, is one of them. -/
theorem decidesMembership {wl : Hostlist} (hw : wl.Wf) (hs : wl.Small)
    (hknown : ∀ e ∈ wl.stored, known e.2 e = true) : DecidesMembership wl := by
  intro earlier x
  obtain ⟨hw', hstored⟩ := searched_stored hw earlier
  obtain ⟨-, hpos⟩ := hostlistFind_spec hw'.ranges hw'.nranges x
  rw [hpos, hstored, ← Hostlist.stored_map_snd, List.mem_map]
  cases hfind : wl.stored.findIdx? (known x) with
  | none =>
      refine iff_of_false (by decide) ?_
      rintro ⟨e, he, rfl⟩
      have hno := List.findIdx?_eq_none_iff.mp hfind e he
      rw [hknown e he] at hno
      cases hno
  | some k =>
      have hget := known_getElem? hfind
      have hlt := (List.getElem?_eq_some_iff.mp hget).1
      have hsmall : wl.names.length < 2 ^ 31 := hs
      refine iff_of_true ?_ ?_
      · rw [positionOf, Int32.le_iff_toInt_le, Int32.toInt_ofNat_of_lt (by omega)]
        exact Int.natCast_nonneg k
      · rw [← List.mem_map, Hostlist.stored_map_snd]
        exact List.mem_of_getElem? hget

/-- `foo[1-2]`. -/
def twoHosts : Hostlist := ⟨[⟨"foo".toList, 1, 2, 1, false⟩], 1, 2⟩

theorem twoHosts_decided : DecidesMembership twoHosts := by
  refine decidesMembership ⟨?_, rfl, by decide⟩ (by decide) (by decide)
  intro hr hmem
  obtain rfl := List.mem_singleton.mp hmem
  exact ⟨by decide, nofun⟩

/-- `-C a,c` with the features `a,b` and `c`. -/
theorem one_entry_each_two : OneEntryEach ["a,c".toList]
    [⟨"foo1".toList, some "a,b".toList, none⟩, ⟨"foo2".toList, none, some "c".toList⟩]
      twoHosts := by
  refine (one_entry_each_iff _ _ _ (by decide) twoHosts_decided).mpr ?_
  intro n hn _ f hf
  rcases List.mem_cons.mp hn with rfl | hn
  · obtain rfl : "a,b".toList = f := Option.some.inj hf
    decide
  · obtain rfl := List.mem_singleton.mp hn
    obtain rfl : "c".toList = f := Option.some.inj hf
    decide

/-- `-C a,b` with the features `a,b`: the node is there twice. -/
theorem entry_twice : DecidesMembership twoHosts ∧
    ¬ OneEntryEach ["a,b".toList] [⟨"foo1".toList, some "a,b".toList, none⟩] twoHosts := by
  refine ⟨twoHosts_decided, ?_⟩
  rintro ⟨hl, hret, hentry⟩
  obtain rfl := Except.ok.inj hret
  have hitem : "a".toList ∈ "a,b".toList.splitOn ',' :=
    (featuresInclude_iff (by decide) (by decide)).mp (by decide)
  have hone := (hentry "foo1".toList).1 ⟨by decide, _, List.mem_singleton_self _, rfl, _, rfl,
    "a".toList, by decide, hitem⟩
  exact absurd hone (by decide)

end Pdsh.Slurm
