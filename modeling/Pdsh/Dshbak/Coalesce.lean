import Pdsh.Dshbak.Compress

/-!
# The output of `dshbak -c`

`do_output_coalesced` is called for every tag. It skips a tag that was deleted, compares its lines
with those of every other tag, deletes the tags with the same lines and prints these lines under
one header. The tag itself stays in the table; what it leaves there has lines of its own
(`Remaining`), so that no later tag finds it again.
-/

namespace Pdsh.Dshbak

open Lib

variable {P : Perl} {tag tag' : CStr} {l l' : List CStr}

/-- `%lines`: each tag is there once. -/
structure Table where
  rows : List (CStr × List CStr)
  nodup : (rows.map Prod.fst).Nodup

/-- `$lines{$tag}`. -/
def Table.get (t : Table) (tag : CStr) : Option (List CStr) :=
  (t.rows.find? fun x => x.1 = tag).map Prod.snd

/-- `delete ($lines{$tag})`. -/
def Table.delete (t : Table) (tag : CStr) : Table :=
  ⟨t.rows.filter fun x => x.1 ≠ tag, t.nodup.sublist (List.filter_sublist.map _)⟩

/-- The loop of `cmp_list`. -/
def cmpListLoop : List CStr → List CStr → Bool
  | x :: l1, y :: l2 => if x ≠ y then false else cmpListLoop l1 l2
  | _, _ => true

/-- `cmp_list`. -/
def cmpList (l1 l2 : List CStr) : Bool :=
  if l1.length ≠ l2.length then false else cmpListLoop l1 l2

/-- What is printed under one header. -/
structure Group where
  tags : List CStr
  data : List CStr
deriving DecidableEq, Repr

/-- `$div` of `print_header`. -/
def divider : CStr := "----------------\n".toList

/-- `print_header`, and the lines behind it. -/
def Group.text (P : Perl) (g : Group) : CStr :=
  divider ++ printHeader (compress P g.tags) ++ ['\n'] ++ divider ++ g.data.flatten

/-- The loop of `do_output_coalesced` over the other tags: the table, and `@identical`. -/
def identicalLoop (tag : CStr) : List CStr → Table → List CStr → Table × List CStr
  | [], lines, identical => (lines, identical)
  | tag2 :: tags, lines, identical =>
      if tag2 = tag then identicalLoop tag tags lines identical
      else if cmpList ((lines.get tag).getD []) ((lines.get tag2).getD []) then
        identicalLoop tag tags (lines.delete tag2) (identical ++ [tag2])
      else identicalLoop tag tags lines identical

/-- `do_output_coalesced`. -/
def doOutputCoalesced (P : Perl) (lines : Table) (tag : CStr) : Table × Option Group :=
  match lines.get tag with
  | none => (lines, none)
  | some data =>
      let r := identicalLoop tag ((P.keys lines.rows).map Prod.fst) lines []
      (r.1, some ⟨(r.2 ++ [tag]).insertionSort fun a b => strcmp a b ≤ 0, data⟩)

/-- `&$output_fn ($_) for` the tags, with `do_output_coalesced`. -/
def coalescedLoop (P : Perl) : List CStr → Table → List Group
  | [], _ => []
  | tag :: tags, lines =>
      let r := doOutputCoalesced P lines tag
      r.2.toList ++ coalescedLoop P tags r.1

/-- The groups `dshbak -c` prints. -/
def coalesced (P : Perl) (lines : Table) : List Group :=
  coalescedLoop P (sortn P (lines.rows.map Prod.fst)) lines

/-! ## Tables -/

theorem Table.get_eq_some_iff {t : Table} : t.get tag = some l ↔ (tag, l) ∈ t.rows := by
  unfold Table.get
  constructor
  · intro h
    obtain ⟨⟨k, v⟩, hfind, rfl⟩ := Option.map_eq_some_iff.mp h
    have hk : k = tag := by simpa using List.find?_some hfind
    exact hk ▸ List.mem_of_find?_eq_some hfind
  · intro hmem
    have hsome : (t.rows.find? fun x => x.1 = tag).isSome :=
      List.find?_isSome.mpr ⟨(tag, l), hmem, by simp⟩
    obtain ⟨⟨k, v⟩, hfind⟩ := Option.isSome_iff_exists.mp hsome
    have hk : k = tag := by simpa using List.find?_some hfind
    have heq := List.inj_on_of_nodup_map t.nodup (List.mem_of_find?_eq_some hfind) hmem hk
    rw [hfind, Option.map_some, heq]

theorem Table.get_eq_none_iff {t : Table} : t.get tag = none ↔ tag ∉ t.rows.map Prod.fst := by
  rw [← Option.not_isSome_iff_eq_none, Option.isSome_iff_exists]
  simp [Table.get_eq_some_iff]

/-- A tag has one list of lines. -/
theorem Table.unique {t : Table} (h : (tag, l) ∈ t.rows) (h' : (tag, l') ∈ t.rows) : l = l' := by
  rw [← Table.get_eq_some_iff] at h h'
  rw [h, Option.some.injEq] at h'
  exact h'

theorem cmpListLoop_iff (hlen : l.length = l'.length) : cmpListLoop l l' = true ↔ l = l' := by
  induction l generalizing l' with
  | nil => simp [cmpListLoop, List.length_eq_zero_iff.mp hlen.symm]
  | cons x l ih =>
      cases l' with
      | nil => cases hlen
      | cons y l' =>
          rw [cmpListLoop, List.cons.injEq]
          split
          · rename_i hne
            simp [hne]
          · rename_i heq
            rw [ih (Nat.succ.inj hlen), not_not.mp heq]
            simp

/-- `cmp_list` decides whether two lists are the same. -/
theorem cmpList_iff : cmpList l l' = true ↔ l = l' := by
  unfold cmpList
  split
  · rename_i hne
    constructor
    · intro h
      cases h
    · rintro rfl
      exact absurd rfl hne
  · rename_i hlen
    exact cmpListLoop_iff (not_not.mp hlen)

/-! ## One call -/

theorem Table.mem_delete_iff {t : Table} {x : CStr × List CStr} :
    x ∈ (t.delete tag).rows ↔ x ∈ t.rows ∧ x.1 ≠ tag := by
  simp [Table.delete]

theorem Table.mem_keys_iff {t : Table} : tag ∈ t.rows.map Prod.fst ↔ ∃ l, (tag, l) ∈ t.rows := by
  simp

/-- The loop finds the other tags with the same lines and deletes them. -/
theorem identicalLoop_spec {tags : List CStr} (ids : List CStr) {t : Table} (hnodup : tags.Nodup)
    (hin : ∀ k ∈ tags, k ∈ t.rows.map Prod.fst) (htag : (tag, l) ∈ t.rows) :
    (identicalLoop tag tags t ids).1.rows =
        t.rows.filter (fun x => ¬ (x.1 ∈ tags ∧ x.1 ≠ tag ∧ x.2 = l)) ∧
      (identicalLoop tag tags t ids).2 =
        ids ++ tags.filter fun k => k ≠ tag ∧ (k, l) ∈ t.rows := by
  induction tags generalizing t ids with
  | nil => simp [identicalLoop]
  | cons k tags ih =>
      rw [List.nodup_cons] at hnodup
      rw [identicalLoop]
      split
      · rename_i hself
        obtain ⟨hrows, hids⟩ :=
          ih ids hnodup.2 (fun k' hk' => hin k' (List.mem_cons_of_mem _ hk')) htag
        rw [hrows, hids, List.filter_cons_of_neg (by simp [hself])]
        refine ⟨List.filter_congr fun x _ => ?_, rfl⟩
        by_cases hx : x.1 = k
        · simp [hx, hself]
        · simp [hx]
      · rename_i hother
        obtain ⟨v, hkv⟩ := Table.mem_keys_iff.mp (hin k List.mem_cons_self)
        have hrest : ∀ k' ∈ tags, k' ∈ t.rows.map Prod.fst :=
          fun k' hk' => hin k' (List.mem_cons_of_mem _ hk')
        rw [Table.get_eq_some_iff.mpr htag, Table.get_eq_some_iff.mpr hkv]
        simp only [Option.getD_some, cmpList_iff]
        split
        · rename_i hsame
          subst hsame
          obtain ⟨hrows, hids⟩ := ih (t := t.delete k) (ids ++ [k]) hnodup.2
            (fun k' hk' => by
              obtain ⟨v', hv'⟩ := Table.mem_keys_iff.mp (hrest k' hk')
              have hne : k' ≠ k := by
                rintro rfl
                exact hnodup.1 hk'
              exact Table.mem_keys_iff.mpr ⟨v', Table.mem_delete_iff.mpr ⟨hv', hne⟩⟩)
            (Table.mem_delete_iff.mpr ⟨htag, fun heq => hother heq.symm⟩)
          rw [hrows, hids, List.filter_cons_of_pos (by simp [hother, hkv])]
          constructor
          · rw [Table.delete, List.filter_filter]
            refine List.filter_congr fun x hx => ?_
            by_cases hxk : x.1 = k
            · have hxl : x.2 = l := t.unique (show (k, x.2) ∈ t.rows from hxk ▸ hx) hkv
              simp [hxk, hxl, hother]
            · simp [hxk]
          · rw [List.append_assoc]
            refine congrArg (ids ++ k :: ·) (List.filter_congr fun k' hk' => ?_)
            have hne : k' ≠ k := by
              rintro rfl
              exact hnodup.1 hk'
            simp [Table.mem_delete_iff, hne]
        · rename_i hdiffer
          have hnot : (k, l) ∉ t.rows := fun h => hdiffer (t.unique h hkv)
          obtain ⟨hrows, hids⟩ := ih ids hnodup.2 hrest htag
          rw [hrows, hids, List.filter_cons_of_neg (by simp [hnot])]
          refine ⟨List.filter_congr fun x hx => ?_, rfl⟩
          by_cases hxk : x.1 = k
          · have hxl : x.2 ≠ l := by
              rintro rfl
              exact hnot (hxk ▸ hx)
            simp [hxl]
          · simp [hxk]

/-- A call for a tag that is still there: its group has all tags with its lines, and of these
only the tag itself stays in the table. -/
theorem doOutputCoalesced_spec {t : Table} (P : Perl) (htag : (tag, l) ∈ t.rows) :
    ∃ t' g, doOutputCoalesced P t tag = (t', some g) ∧
      (∀ x, x ∈ t'.rows ↔ x ∈ t.rows ∧ (x.1 = tag ∨ x.2 ≠ l)) ∧
      g.data = l ∧ g.tags.Nodup ∧ ∀ k, k ∈ g.tags ↔ (k, l) ∈ t.rows := by
  have hkeys : ((P.keys t.rows).map Prod.fst).Perm (t.rows.map Prod.fst) :=
    (P.keys_perm t.rows).map Prod.fst
  have hnodup := hkeys.nodup_iff.mpr t.nodup
  obtain ⟨hrows, hids⟩ := identicalLoop_spec [] hnodup
    (fun k hk => hkeys.mem_iff.mp hk) htag
  unfold doOutputCoalesced
  rw [Table.get_eq_some_iff.mpr htag]
  refine ⟨_, _, rfl, fun x => ?_, rfl, ?_, fun k => ?_⟩
  · have hmem : x ∈ t.rows → x.1 ∈ (P.keys t.rows).map Prod.fst :=
      fun hx => hkeys.mem_iff.mpr (List.mem_map_of_mem hx)
    rw [hrows, List.mem_filter]
    simp only [decide_eq_true_eq]
    tauto
  · refine (List.perm_insertionSort _ _).nodup_iff.mpr ?_
    rw [hids, List.nil_append, List.nodup_append]
    refine ⟨hnodup.filter _, List.nodup_singleton tag, ?_⟩
    simp only [List.mem_filter, List.mem_singleton, decide_eq_true_eq]
    rintro a ⟨-, hne, -⟩ b rfl
    exact hne
  · rw [(List.perm_insertionSort _ _).mem_iff, hids, List.nil_append, List.mem_append,
      List.mem_filter, List.mem_singleton, hkeys.mem_iff, Table.mem_keys_iff]
    simp only [decide_eq_true_eq]
    constructor
    · rintro (⟨-, -, hk⟩ | rfl)
      · exact hk
      · exact htag
    · intro hk
      by_cases heq : k = tag
      · exact .inr heq
      · exact .inl ⟨⟨l, hk⟩, heq, hk⟩

/-! ## All calls -/

/-- The tags in the table that are not to come any more have lines of their own. -/
def Remaining (t : Table) (tags : List CStr) : Prop :=
  ∀ k l, (k, l) ∈ t.rows → k ∉ tags → ∀ k', (k', l) ∈ t.rows → k' = k

/-- The groups of the tags that are to come. -/
structure Grouped (t : Table) (tags : List CStr) (gs : List Group) : Prop where
  found : ∀ g ∈ gs, ∃ k ∈ tags, (k, g.data) ∈ t.rows
  mem_tags : ∀ g ∈ gs, ∀ k, k ∈ g.tags ↔ (k, g.data) ∈ t.rows
  nodup : ∀ g ∈ gs, g.tags.Nodup
  distinct : (gs.map Group.data).Nodup
  all : ∀ k ∈ tags, ∀ l, (k, l) ∈ t.rows → ∃ g ∈ gs, g.data = l

theorem coalescedLoop_grouped {tags : List CStr} {t : Table} (hnodup : tags.Nodup)
    (hremaining : Remaining t tags) : Grouped t tags (coalescedLoop P tags t) := by
  induction tags generalizing t with
  | nil => exact ⟨by simp [coalescedLoop], by simp [coalescedLoop], by simp [coalescedLoop],
      List.nodup_nil, by simp⟩
  | cons tag tags ih =>
      rw [List.nodup_cons] at hnodup
      cases hget : t.get tag with
      | none =>
          -- the tag was deleted with the group it is in
          have hgone : ∀ l, (tag, l) ∉ t.rows := fun l hl =>
            Table.get_eq_none_iff.mp hget (Table.mem_keys_iff.mpr ⟨l, hl⟩)
          have hloop : coalescedLoop P (tag :: tags) t = coalescedLoop P tags t := by
            rw [coalescedLoop, doOutputCoalesced, hget]
            rfl
          have hrest : Remaining t tags := by
            intro k l hk hnot
            have hne : k ≠ tag := by
              rintro rfl
              exact hgone l hk
            exact hremaining k l hk (List.not_mem_cons_of_ne_of_not_mem hne hnot)
          rw [hloop]
          have h := ih hnodup.2 hrest
          refine ⟨fun g hg => ?_, h.mem_tags, h.nodup, h.distinct, fun k hk l hl => ?_⟩
          · obtain ⟨k, hk, hrow⟩ := h.found g hg
            exact ⟨k, List.mem_cons_of_mem _ hk, hrow⟩
          · rcases List.mem_cons.mp hk with rfl | hk
            · exact absurd hl (hgone l)
            · exact h.all k hk l hl
      | some l =>
          have htag := Table.get_eq_some_iff.mp hget
          obtain ⟨t', g, hcall, hrows, hdata, hgnodup, htags⟩ := doOutputCoalesced_spec P htag
          have hloop : coalescedLoop P (tag :: tags) t = g :: coalescedLoop P tags t' := by
            rw [coalescedLoop, hcall]
            rfl
          have hrest : Remaining t' tags := by
            intro k v hk hnot k' hk'
            obtain ⟨hk, hor⟩ := (hrows _).mp hk
            obtain ⟨hk', hor'⟩ := (hrows _).mp hk'
            by_cases heq : k = tag
            · subst heq
              exact hor'.resolve_right fun hne => hne (t.unique hk htag)
            · exact hremaining k v hk (List.not_mem_cons_of_ne_of_not_mem heq hnot) k' hk'
          have h := ih hnodup.2 hrest
          -- the groups to come have other lines
          have hother : ∀ g' ∈ coalescedLoop P tags t', g'.data ≠ l := by
            intro g' hg'
            obtain ⟨k, hk, hrow⟩ := h.found g' hg'
            refine ((hrows _).mp hrow).2.resolve_left ?_
            rintro rfl
            exact hnodup.1 hk
          rw [hloop]
          refine ⟨fun g' hg' => ?_, fun g' hg' k => ?_, fun g' hg' => ?_, ?_, fun k hk v hv => ?_⟩
          · rcases List.mem_cons.mp hg' with rfl | hg'
            · exact ⟨tag, List.mem_cons_self, hdata ▸ htag⟩
            · obtain ⟨k, hk, hrow⟩ := h.found g' hg'
              exact ⟨k, List.mem_cons_of_mem _ hk, ((hrows _).mp hrow).1⟩
          · rcases List.mem_cons.mp hg' with rfl | hg'
            · rw [hdata]
              exact htags k
            · rw [h.mem_tags g' hg', hrows]
              exact and_iff_left (.inr (hother g' hg'))
          · rcases List.mem_cons.mp hg' with rfl | hg'
            · exact hgnodup
            · exact h.nodup g' hg'
          · rw [List.map_cons, List.nodup_cons, hdata]
            refine ⟨fun hmem => ?_, h.distinct⟩
            obtain ⟨g', hg', heq⟩ := List.mem_map.mp hmem
            exact hother g' hg' heq
          · by_cases hsame : v = l
            · exact ⟨g, List.mem_cons_self, hdata.trans hsame.symm⟩
            · have hk' : k ∈ tags := by
                refine (List.mem_cons.mp hk).resolve_left ?_
                rintro rfl
                exact hsame (t.unique hv htag)
              obtain ⟨g', hg', heq⟩ := h.all k hk' v ((hrows _).mpr ⟨hv, .inr hsame⟩)
              exact ⟨g', List.mem_cons_of_mem _ hg', heq⟩

theorem coalesced_grouped (P : Perl) (lines : Table) :
    Grouped lines (sortn P (lines.rows.map Prod.fst)) (coalesced P lines) := by
  have hperm := sortn_perm P (lines.rows.map Prod.fst)
  refine coalescedLoop_grouped (hperm.nodup_iff.mpr lines.nodup) fun k l hk hnot => ?_
  exact absurd (hperm.mem_iff.mpr (List.mem_map_of_mem hk)) hnot

end Pdsh.Dshbak
