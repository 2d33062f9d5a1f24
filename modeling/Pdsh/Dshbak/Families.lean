import Pdsh.Dshbak.Runs

/-!
# Families of tags

A tag is cut into what is in front of its last digits, the digits, and what is behind them. The
tags that differ in nothing but these digits are a family: `compress` writes one token for each
family (`compress_families`), from the numbers of its tags in the order `comp` goes through them.
A tag without digits is a member, without a number, of the family of what follows it.
-/

namespace Pdsh.Dshbak

open Lib Lib.Decimal

variable {P : Perl} {tags : List CStr} {t n : CStr} {k : CStr × CStr}

/-! ## The parts of a tag -/

/-- What is in front of the last digits, and what is behind them. -/
def tagFamily (tag : CStr) : CStr × CStr :=
  ((splitNumber (splitSuffix tag).1).1, (splitSuffix tag).2)

/-- The last digits. -/
def tagNumber (tag : CStr) : CStr := (splitNumber (splitSuffix tag).1).2

/-- The tag of a family with a number. -/
def tagOf (k : CStr × CStr) (n : CStr) : CStr := k.1 ++ n ++ k.2

/-- A text that ends in what it is cut at. -/
theorem rcut_append {p : Char → Bool} {a b : CStr} (ha : ∀ c ∈ a.getLast?, ¬ p c)
    (hb : ∀ c ∈ b, p c) :
    (a ++ b).rdropWhile p = a ∧ (a ++ b).rtakeWhile p = b := by
  have hstop : a.reverse.dropWhile p = a.reverse ∧ a.reverse.takeWhile p = [] := by
    cases a using List.reverseRecOn with
    | nil => exact ⟨rfl, rfl⟩
    | append_singleton a c =>
        have hc : ¬ p c := ha c (by simp)
        rw [List.reverse_concat]
        exact ⟨List.dropWhile_cons_of_neg hc, List.takeWhile_cons_of_neg hc⟩
  have hb' : ∀ c ∈ b.reverse, p c := fun c hc => hb c (List.mem_reverse.mp hc)
  rw [List.rdropWhile, List.rtakeWhile, List.reverse_append, List.dropWhile_append_of_pos hb',
    List.takeWhile_append_of_pos hb', hstop.1, hstop.2, List.append_nil, List.reverse_reverse,
    List.reverse_reverse]
  exact ⟨rfl, rfl⟩

theorem tagOf_parts (t : CStr) : tagOf (tagFamily t) (tagNumber t) = t := by
  show (splitSuffix t).1.rdropWhile Char.isDigit ++ (splitSuffix t).1.rtakeWhile Char.isDigit ++
    (splitSuffix t).2 = t
  rw [List.rdropWhile_append_rtakeWhile]
  exact List.rdropWhile_append_rtakeWhile

theorem isDigit_tagNumber (t : CStr) : ∀ c ∈ tagNumber t, c.isDigit :=
  fun _ hc => List.mem_rtakeWhile_imp hc

/-- No digits behind the last ones, nor right in front of them. -/
structure FamilyOk (k : CStr × CStr) : Prop where
  front : ∀ c ∈ k.1.getLast?, ¬ c.isDigit
  behind : ∀ c ∈ k.2, ¬ c.isDigit

theorem tagFamily_ok (t : CStr) : FamilyOk (tagFamily t) := by
  constructor
  · intro c hc
    obtain ⟨hne, rfl⟩ := List.mem_getLast?_eq_getLast hc
    exact List.rdropWhile_last_not _ _ hne
  · intro c hc
    have hnot : (!c.isDigit) = true := List.mem_rtakeWhile_imp (p := fun c : Char => !c.isDigit) hc
    simpa using hnot

/-- The parts of a text with digits. -/
theorem parts_tagOf (hk : FamilyOk k) (hn : Digits n) :
    tagFamily (tagOf k n) = k ∧ tagNumber (tagOf k n) = n := by
  have hlast : ∀ c ∈ (k.1 ++ n).getLast?, ¬ (!c.isDigit) = true := by
    intro c hc
    rw [List.getLast?_append_of_ne_nil _ hn.1] at hc
    simpa using hn.2 c (List.mem_of_getLast? hc)
  have hbehind : ∀ c ∈ k.2, (!c.isDigit) = true := fun c hc => by simpa using hk.behind c hc
  obtain ⟨hdrop, htake⟩ := rcut_append hlast hbehind
  obtain ⟨hdrop', htake'⟩ := rcut_append hk.front hn.2
  unfold tagFamily tagNumber tagOf splitSuffix splitNumber
  simp only [hdrop, htake, hdrop', htake', Prod.mk.eta, and_self]

/-! ## Families -/

/-- The numbers of a family. -/
def familyNumbers (tags : List CStr) (k : CStr × CStr) : List CStr :=
  (tags.filter fun t => tagFamily t = k).map tagNumber

theorem map_familyNumbers (tags : List CStr) (k : CStr × CStr) :
    (familyNumbers tags k).map (tagOf k) = tags.filter fun t => tagFamily t = k := by
  rw [familyNumbers, List.map_map]
  refine (List.map_congr_left fun t ht => ?_).trans (List.map_id _)
  have hk : tagFamily t = k := by simpa using (List.mem_filter.mp ht).2
  show tagOf k (tagNumber t) = t
  rw [← hk, tagOf_parts]

theorem mem_familyNumbers_iff :
    n ∈ familyNumbers tags k ↔ ∃ t ∈ tags, tagFamily t = k ∧ tagNumber t = n := by
  simp only [familyNumbers, List.mem_map, List.mem_filter, decide_eq_true_eq, and_assoc]

theorem tagOf_mem (h : n ∈ familyNumbers tags k) :
    tagOf k n ∈ tags ∧ FamilyOk k ∧ ∀ c ∈ n, c.isDigit := by
  obtain ⟨t, ht, rfl, rfl⟩ := mem_familyNumbers_iff.mp h
  rw [tagOf_parts]
  exact ⟨ht, tagFamily_ok t, isDigit_tagNumber t⟩

theorem familyNumbers_nodup (h : tags.Nodup) (k : CStr × CStr) : (familyNumbers tags k).Nodup := by
  refine List.Nodup.of_map (tagOf k) ?_
  rw [map_familyNumbers]
  exact h.filter _

/-- The numbers of a family as `comp` goes through them. -/
structure InOrder (tags : List CStr) (k : CStr × CStr) (l : List CStr) : Prop where
  perm : l.Perm (familyNumbers tags k)
  ordered : l.Pairwise fun m n => value m < 2 ^ 64 → value n < 2 ^ 64 → value m ≤ value n

/-- What the header has for a family. -/
def familyText (P : Perl) (k : CStr × CStr) (l : List CStr) : CStr :=
  k.1 ++ bracketText ((l.foldl (compStep P) Entry.empty).s.map Elem.text) ++ k.2

/-! ## Sorting -/

theorem sortn_ordered (P : Perl) (hosts : List CStr) : (sortn P hosts).Pairwise fun a b =>
    value (splitNumber a).2 < 2 ^ 64 → value (splitNumber b).2 < 2 ^ 64 →
      value (splitNumber a).2 ≤ value (splitNumber b).2 := by
  rw [sortn, List.pairwise_map]
  have hnum : ∀ x ∈ P.sort (hosts.map fun host => (host, host.rtakeWhile Char.isDigit)),
      x.2 = (splitNumber x.1).2 := by
    intro x hx
    obtain ⟨host, -, rfl⟩ := List.mem_map.mp ((P.sort_perm _).mem_iff.mp hx)
    rfl
  refine (P.sort_ordered _).imp_of_mem fun {a b} ha hb h => ?_
  rw [← hnum a ha, ← hnum b hb]
  exact h

/-- The tags of a suffix, without it. -/
def headsOf (P : Perl) (tags : List CStr) (s : CStr) : List CStr :=
  (((sortn P tags).map splitSuffix).filter fun x => x.2 = s).map Prod.fst

/-- The numbers of the hosts of a prefix. -/
def numbersOf (P : Perl) (hosts : List CStr) (p : CStr) : List CStr :=
  (((sortn P hosts).map splitNumber).filter fun x => x.1 = p).map Prod.snd

theorem headsOf_perm (P : Perl) (tags : List CStr) (s : CStr) :
    (headsOf P tags s).Perm
      ((tags.filter fun t => (splitSuffix t).2 = s).map fun t => (splitSuffix t).1) := by
  have hperm := (((sortn_perm P tags).map splitSuffix).filter fun x => x.2 = s).map Prod.fst
  refine hperm.trans (List.Perm.of_eq ?_)
  rw [List.filter_map, List.map_map]
  rfl

theorem numbersOf_perm (P : Perl) (hosts : List CStr) (p : CStr) :
    (numbersOf P hosts p).Perm
      ((hosts.filter fun host => (splitNumber host).1 = p).map fun host =>
        (splitNumber host).2) := by
  have hperm := (((sortn_perm P hosts).map splitNumber).filter fun x => x.1 = p).map Prod.snd
  refine hperm.trans (List.Perm.of_eq ?_)
  rw [List.filter_map, List.map_map]
  rfl

/-- The numbers of a family are those of its prefix among the tags of its suffix. -/
theorem numbersOf_inOrder (P : Perl) (tags : List CStr) (k : CStr × CStr) :
    InOrder tags k (numbersOf P (headsOf P tags k.2) k.1) := by
  constructor
  · have hheads := ((headsOf_perm P tags k.2).filter fun host => (splitNumber host).1 = k.1).map
      fun host => (splitNumber host).2
    refine (numbersOf_perm P _ k.1).trans (hheads.trans (List.Perm.of_eq ?_))
    rw [List.filter_map, List.map_map, List.filter_filter, familyNumbers]
    refine congrArg (List.map tagNumber) (List.filter_congr fun t _ => ?_)
    simp [tagFamily, Prod.ext_iff]
  · refine List.pairwise_map.mpr (List.Pairwise.filter _ (List.pairwise_map.mpr ?_))
    exact sortn_ordered P _

/-! ## The tokens of the header -/

/-- A permutation of what a function makes of a list. -/
theorem exists_perm_map {α β : Type*} {f : α → β} {l : List β} {l' : List α}
    (h : l.Perm (l'.map f)) :
    ∃ l'' : List α, l''.Perm l' ∧ l = l''.map f := by
  have hcomp : Relation.Comp (· = List.map f ·) List.Perm l l' := by rwa [List.eq_map_comp_perm]
  obtain ⟨l'', heq, hperm⟩ := hcomp
  exact ⟨l'', hperm, heq⟩

theorem compressInner_eq (P : Perl) (hosts : List CStr) : ∃ ps : List CStr, ps.Nodup ∧
    (∀ p, p ∈ ps ↔ ∃ host ∈ hosts, (splitNumber host).1 = p) ∧
      compressInner P hosts = ps.map fun p => familyText P (p, []) (numbersOf P hosts p) := by
  have hperm := List.perm_insertionSort (fun a b => strcmp a.1 b.1 ≤ 0) (comp P hosts)
  have hcomp : comp P hosts = ((collect Prod.fst (fun e x => compStep P e x.2) Entry.empty
      ((sortn P hosts).map splitNumber)).map Prod.fst).map fun p =>
        (p, ((numbersOf P hosts p).foldl (compStep P) Entry.empty).s.map Elem.text) := by
    refine (congrArg (List.map _) (collect_eq_map _)).trans ?_
    rw [List.map_map]
    refine List.map_congr_left fun p _ => ?_
    simp only [Function.comp_apply, numbersOf, List.foldl_map]
  rw [hcomp] at hperm
  obtain ⟨ps, hps, heq⟩ := exists_perm_map hperm
  refine ⟨ps, hps.nodup_iff.mpr (collect_nodup _), fun p => ?_, ?_⟩
  · rw [hps.mem_iff, mem_keys_collect_iff]
    simp only [List.mem_map, exists_exists_and_eq_and, (sortn_perm P hosts).mem_iff]
  · rw [compressInner, hcomp, heq, List.map_map]
    refine List.map_congr_left fun p _ => ?_
    simp [familyText]

/-- There is one token for each family. -/
theorem compress_families (P : Perl) (tags : List CStr) : ∃ ks : List (CStr × CStr), ks.Nodup ∧
    (∀ k, k ∈ ks ↔ ∃ t ∈ tags, tagFamily t = k) ∧
      compress P tags = ks.map fun k => familyText P k (numbersOf P (headsOf P tags k.2) k.1) := by
  have happend : ∀ xs : List (CStr × CStr), xs.foldl (fun names x => names ++ [x.1]) [] =
      xs.map Prod.fst := by
    intro xs
    induction xs using List.reverseRecOn with
    | nil => rfl
    | append_singleton xs x ih => rw [List.foldl_append, ih, List.map_append]; rfl
  have hkeys := (P.keys_perm (collect Prod.snd (fun names x => names ++ [x.1]) []
    ((sortn P tags).map splitSuffix))).trans (List.Perm.of_eq (collect_eq_map _))
  simp only [happend] at hkeys
  obtain ⟨ss, hss, heq⟩ := exists_perm_map hkeys
  choose ps hnodup hmem htext using compressInner_eq P
  have hss' : ∀ s, s ∈ ss ↔ ∃ t ∈ tags, (splitSuffix t).2 = s := by
    intro s
    rw [hss.mem_iff, mem_keys_collect_iff]
    simp only [List.mem_map, exists_exists_and_eq_and, (sortn_perm P tags).mem_iff]
  refine ⟨ss.flatMap fun s => (ps (headsOf P tags s)).map fun p => (p, s), ?_, fun k => ?_, ?_⟩
  · rw [List.nodup_flatMap]
    constructor
    · intro s _
      exact (hnodup _).map fun p p' h => congrArg Prod.fst h
    · refine (hss.nodup_iff.mpr (collect_nodup _)).imp fun {s s'} hne => ?_
      intro k hk hk'
      obtain ⟨p, -, rfl⟩ := List.mem_map.mp hk
      obtain ⟨p', -, heq'⟩ := List.mem_map.mp hk'
      exact hne (congrArg Prod.snd heq').symm
  · obtain ⟨p, s⟩ := k
    simp only [List.mem_flatMap, List.mem_map, Prod.mk.injEq, hss', hmem,
      (headsOf_perm P tags _).mem_iff, List.mem_filter, decide_eq_true_eq, tagFamily]
    constructor
    · rintro ⟨s, -, p, ⟨host, ⟨t, ⟨ht, hs⟩, rfl⟩, hp⟩, rfl, rfl⟩
      exact ⟨t, ht, hp, hs⟩
    · rintro ⟨t, ht, hp, hs⟩
      exact ⟨s, ⟨t, ht, hs⟩, p, ⟨_, ⟨t, ⟨ht, hs⟩, rfl⟩, hp⟩, rfl, rfl⟩
  · show (P.keys _).flatMap _ = _
    rw [heq, List.flatMap_map, List.map_flatMap]
    refine List.flatMap_congr fun s _ => ?_
    show (compressInner P (headsOf P tags s)).map _ = _
    rw [htext, List.map_map, List.map_map]
    refine List.map_congr_left fun p _ => ?_
    simp [familyText]

end Pdsh.Dshbak
