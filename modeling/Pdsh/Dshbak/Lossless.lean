import Pdsh.Dshbak.Header

/-!
# When the header is lossless

Each family of tags is written on its own, so the header stands for the tags exactly when it does
so family by family (`compress_lossless_iff`). A tag that is alone in its family has to fit the
buffer of the parser. In a larger family every tag needs a number that the parser can hold: a tag
without digits leaves an element of the bracket without a number (`[-1]foo`).
-/

namespace Pdsh.Dshbak

open Lib Lib.Decimal

variable {P : Perl} {tags : List CStr} {t n slack : CStr} {k k' : CStr × CStr}

/-! ## What is to be proved -/

/-- A host tag: nothing that separates or groups the names of a header. -/
structure Tag (t : CStr) : Prop where
  ne_nil : t ≠ []
  plain : ∀ c ∈ t, isspace c = false ∧ c ≠ ',' ∧ c ≠ '[' ∧ c ≠ ']'

/-- The header stands for the tags, each of them once, whatever the buffer of the parser holds. -/
def Lossless (P : Perl) (tags : List CStr) : Prop :=
  ∀ slack, ∃ names, expand slack (printHeader (compress P tags)) = .ret (some names) ∧
    names.Perm tags

/-- What the parser asks of a family of several tags. The size of a run is computed in an
`unsigned long`. -/
structure Fits (k : CStr × CStr) (l : List CStr) : Prop where
  numbers : ∀ n ∈ l, n ≠ [] ∧ value n < 2 ^ 64
  room : (starts l).length ≤ MAX_RANGES
  size : ∀ a ∈ starts l, (run l a).length % 2 ^ 64 ≤ MAX_RANGE.toNat
  length : k.2 = [] ∨ ∀ n ∈ l, (tagOf k n).length < 4096

/-- The family survives the header. -/
def FamilyFits (tags : List CStr) (k : CStr × CStr) : Prop :=
  if (familyNumbers tags k).length = 1 then ∀ n ∈ familyNumbers tags k, (tagOf k n).length < 1023
  else Fits k (familyNumbers tags k)

theorem Tag.plain_sep (h : Tag t) : Plain hostlistSep t := by
  intro c hc
  obtain ⟨hspace, hcomma, hopen, hclose⟩ := h.plain c hc
  refine ⟨hopen, hclose, ?_⟩
  simp only [hostlistSep, decide_eq_false_iff_not, not_or]
  refine ⟨?_, hcomma, ?_⟩ <;>
  · rintro rfl
    revert hspace
    decide

instance (k : CStr × CStr) (l : List CStr) : Decidable (Fits k l) :=
  decidable_of_iff ((∀ n ∈ l, n ≠ [] ∧ value n < 2 ^ 64) ∧ (starts l).length ≤ MAX_RANGES ∧
      (∀ a ∈ starts l, (run l a).length % 2 ^ 64 ≤ MAX_RANGE.toNat) ∧
        (k.2 = [] ∨ ∀ n ∈ l, (tagOf k n).length < 4096))
    ⟨fun h => ⟨h.1, h.2.1, h.2.2.1, h.2.2.2⟩, fun h => ⟨h.numbers, h.room, h.size, h.length⟩⟩

instance (tags : List CStr) (k : CStr × CStr) : Decidable (FamilyFits tags k) := by
  unfold FamilyFits
  infer_instance

instance (t : CStr) : Decidable (Tag t) :=
  decidable_of_iff (t ≠ [] ∧
      (t.all fun c => isspace c = false ∧ c ≠ ',' ∧ c ≠ '[' ∧ c ≠ ']') = true)
    ⟨fun h => ⟨h.1, by simpa using h.2⟩, fun h => ⟨h.ne_nil, by simpa using h.plain⟩⟩

/-! ## The layout of a header -/

/-- The families of the tags, with their numbers in order and the chains these make. -/
structure Layout (P : Perl) (tags : List CStr) (ks : List (CStr × CStr))
    (l : CStr × CStr → List CStr)
    (chains : CStr × CStr → List (List CStr)) : Prop where
  nodup : ks.Nodup
  families : ∀ k, k ∈ ks ↔ ∃ t ∈ tags, tagFamily t = k
  text : compress P tags = ks.map fun k => familyText P k (l k)
  token : ∀ k ∈ ks, Token P k (l k) (chains k)
  order : ∀ k ∈ ks, InOrder tags k (l k)
  joined : ∀ k ∈ ks, Numbers (l k) → Joined (l k) (chains k)

theorem exists_layout (P : Perl) (htags : ∀ t ∈ tags, Tag t) :
    ∃ ks l chains, Layout P tags ks l chains := by
  obtain ⟨ks, hnodup, hfam, htext⟩ := compress_families P tags
  choose chains hfolded hjoined using fun k : CStr × CStr =>
    comp_folded P (numbersOf P (headsOf P tags k.2) k.1)
  refine ⟨ks, fun k => numbersOf P (headsOf P tags k.2) k.1, chains, hnodup, hfam, htext, ?_,
    fun k _ => numbersOf_inOrder P tags k, fun k _ => hjoined k⟩
  intro k hk
  have horder := numbersOf_inOrder P tags k
  have htag : ∀ n ∈ numbersOf P (headsOf P tags k.2) k.1, tagOf k n ∈ tags ∧ FamilyOk k ∧
      ∀ c ∈ n, c.isDigit := fun n hn => tagOf_mem (horder.perm.mem_iff.mp hn)
  obtain ⟨t, ht, rfl⟩ := (hfam k).mp hk
  refine ⟨?_, fun n hn => (htag n hn).2.2, ?_, fun n hn => (htags _ (htag n hn).1).ne_nil,
    hfolded _⟩
  · have hmem : tagNumber t ∈ familyNumbers tags (tagFamily t) :=
      mem_familyNumbers_iff.mpr ⟨t, ht, rfl, rfl⟩
    exact List.ne_nil_of_mem (horder.perm.mem_iff.mpr hmem)
  · have hplain := (htags t ht).plain_sep
    rw [← tagOf_parts t, tagOf] at hplain
    constructor
    · exact fun c hc => hplain c (List.mem_append_left _ (List.mem_append_left _ hc))
    · exact fun c hc => hplain c (List.mem_append_right _ hc)

section Layout

variable {ks : List (CStr × CStr)} {l : CStr × CStr → List CStr}
  {chains : CStr × CStr → List (List CStr)} {names : List CStr}

/-- The header is read when every token is. -/
theorem Layout.expand_iff (h : Layout P tags ks l chains) :
    expand slack (printHeader (compress P tags)) = .ret (some names) ↔
      (∀ k ∈ ks, TokenRead (l k) (chains k)) ∧
        names = ks.flatMap fun k => (tokenPiece slack k (l k) (chains k)).names := by
  have htokens : tokens hostlistSep (printHeader (compress P tags)) = compress P tags := by
    refine tokens_join (by decide) fun tok htok => ?_
    rw [h.text] at htok
    obtain ⟨k, hk, rfl⟩ := List.mem_map.mp htok
    exact (h.token k hk).closed
  have hpieces : ∀ ps, parsePieces slack (compress P tags) = .ret (some ps) ↔
      (∀ k ∈ ks, TokenRead (l k) (chains k)) ∧
        ps = ks.map fun k => tokenPiece slack k (l k) (chains k) := by
    intro ps
    rw [parsePieces_some_iff, h.text, List.forall₂_map_left_iff]
    exact forall₂_iff_map fun k hk p => (h.token k hk).parse_iff
  rw [expand, htokens]
  constructor
  · intro hret
    obtain ⟨ps, hps, hnames⟩ := Run.bind_eq_ret_iff.mp hret
    simp only [Run.pure_eq, Run.ret.injEq, Option.map_eq_some_iff] at hnames
    obtain ⟨ps, rfl, rfl⟩ := hnames
    obtain ⟨hread, rfl⟩ := (hpieces ps).mp hps
    exact ⟨hread, by rw [List.flatMap_map]⟩
  · rintro ⟨hread, rfl⟩
    rw [(hpieces _).mpr ⟨hread, rfl⟩, Run.ret_bind]
    simp only [Option.map_some, List.flatMap_map, Run.pure_eq]

theorem Layout.lossless_iff (h : Layout P tags ks l chains) : Lossless P tags ↔
    (∀ k ∈ ks, TokenRead (l k) (chains k)) ∧
      ∀ slack, (ks.flatMap fun k => (tokenPiece slack k (l k) (chains k)).names).Perm tags := by
  unfold Lossless
  simp only [h.expand_iff]
  constructor
  · intro hall
    obtain ⟨_, ⟨hread, -⟩, -⟩ := hall []
    refine ⟨hread, fun slack => ?_⟩
    obtain ⟨_, ⟨-, rfl⟩, hperm⟩ := hall slack
    exact hperm
  · rintro ⟨hread, hperm⟩ slack
    exact ⟨_, ⟨hread, rfl⟩, hperm slack⟩

/-- Numbers that an integer holds are in order. -/
theorem Layout.numbers (h : Layout P tags ks l chains) (hnodup : tags.Nodup) (hk : k ∈ ks)
    (hnum : ∀ n ∈ l k, n ≠ [] ∧ value n < 2 ^ 64) : Numbers (l k) where
  digits n hn := ⟨(hnum n hn).1, (h.token k hk).digits n hn⟩
  small n hn := (hnum n hn).2
  nodup := (h.order k hk).perm.nodup_iff.mpr (familyNumbers_nodup hnodup k)
  sorted := (h.order k hk).ordered.imp_of_mem fun ha hb hle => hle (hnum _ ha).2 (hnum _ hb).2

/-! ## Enough -/

/-- A family that fits is read, and stands for its tags. -/
theorem Layout.family_names (h : Layout P tags ks l chains) (hnodup : tags.Nodup) (hk : k ∈ ks)
    (hfits : FamilyFits tags k) (slack : CStr) : TokenRead (l k) (chains k) ∧
      (tokenPiece slack k (l k) (chains k)).names.Perm (tags.filter fun t => tagFamily t = k) := by
  have hperm := (h.order k hk).perm
  have hmem : ∀ n, n ∈ familyNumbers tags k ↔ n ∈ l k := fun n => hperm.mem_iff.symm
  rw [← map_familyNumbers]
  unfold FamilyFits at hfits
  rw [← hperm.length_eq] at hfits
  split at hfits
  · rename_i hone
    refine ⟨.inl hone, ?_⟩
    obtain ⟨n, hn⟩ := List.length_eq_one_iff.mp hone
    have hshort := hfits n ((hmem n).mpr (by simp [hn]))
    have hnum : familyNumbers tags k = [n] := List.perm_singleton.mp (hn ▸ hperm).symm
    rw [tokenPiece, if_pos hone, hn, hnum]
    exact List.Perm.of_eq (congrArg (fun x => [x]) (if_pos hshort))
  · rename_i hone
    have hnum := h.numbers hnodup hk fun n hn => hfits.numbers n ((hmem n).mpr hn)
    have hj := h.joined k hk hnum
    have hf := (h.token k hk).folded
    constructor
    · right
      constructor
      · rw [← hj.starts_length hf, (starts_perm hperm).length_eq]
        exact hfits.room
      · have hruns : ∀ a ∈ starts (l k), (run (l k) a).length % 2 ^ 64 ≤ MAX_RANGE.toNat := by
          intro a ha
          rw [run_perm hperm]
          exact hfits.size a ((starts_perm hperm).mem_iff.mp ha)
        have hsizes :=
          (hj.forall_chain_iff hnum hf (Q := fun c => c.length % 2 ^ 64 ≤ MAX_RANGE.toNat)).mpr
          hruns
        exact fun c hc => (hj.chainOk_iff hnum hf hc).mpr (hsizes c hc)
    · rw [tokenPiece_names hone]
      have hchain : ∀ c ∈ chains k, ((chainRange c).nums.map fun m =>
          formatted k (tagOf k (pad (chainRange c).width m))) = c.map (tagOf k) := by
        intro c hc
        have hnums := hj.nums_eq hnum hf hc
        calc _ = ((chainRange c).nums.map (pad (chainRange c).width)).map
              fun n => formatted k (tagOf k n) := by
              rw [List.map_map]
              rfl
          _ = c.map fun n => formatted k (tagOf k n) := by rw [hnums]
          _ = c.map (tagOf k) := by
              refine List.map_congr_left fun n hn => formatted_eq ?_
              exact hfits.length.imp_right fun hlen => hlen n ((hmem n).mpr (hf.mem hc hn))
      rw [List.flatMap_congr hchain, List.flatMap_def, ← List.map_flatten]
      exact (hf.perm.trans hperm).map _

/-! ## Needed -/

theorem Layout.tagOf_mem (h : Layout P tags ks l chains) (hk : k ∈ ks) (hn : n ∈ l k) :
    tagOf k n ∈ tags ∧ tagFamily (tagOf k n) = k ∧ tagNumber (tagOf k n) = n := by
  obtain ⟨t, ht, rfl, rfl⟩ := mem_familyNumbers_iff.mp ((h.order k hk).perm.mem_iff.mp hn)
  rw [tagOf_parts]
  exact ⟨ht, rfl, rfl⟩

/-- A header that is read, as its tags. -/
structure ReadBack (P : Perl) (tags : List CStr) (ks : List (CStr × CStr))
    (l : CStr × CStr → List CStr) (chains : CStr × CStr → List (List CStr)) : Prop
    extends Layout P tags ks l chains where
  tag : ∀ t ∈ tags, Tag t
  read : ∀ k ∈ ks, TokenRead (l k) (chains k)
  names : ∀ slack, (ks.flatMap fun k => (tokenPiece slack k (l k) (chains k)).names).Perm tags

/-- A longer tag is cut, and something else is read behind it. -/
theorem ReadBack.single_short (h : ReadBack P tags ks l chains)
    (hk : k ∈ ks) (hone : (l k).length = 1) (hn : n ∈ l k) : (tagOf k n).length < 1023 := by
  by_contra hlong
  have hname : (tagOf k n).take 1023 ++ ['['] ∈ (tokenPiece ['['] k (l k) (chains k)).names := by
    obtain ⟨m, hm⟩ := List.length_eq_one_iff.mp hone
    obtain rfl : n = m := by simpa [hm] using hn
    rw [tokenPiece, if_pos hone, hm]
    exact List.mem_singleton.mpr (if_neg hlong).symm
  have htag := (h.names ['[']).mem_iff.mp (List.mem_flatMap.mpr ⟨k, hk, hname⟩)
  exact ((h.tag _ htag).plain '[' (by simp)).2.2.1 rfl

/-- Where a tag comes from: it is alone in its family, or a number of some chain makes it. -/
theorem ReadBack.exists_family (h : ReadBack P tags ks l chains) (ht : t ∈ tags) :
    ∃ k ∈ ks, ((l k).length = 1 ∧ tagFamily t = k) ∨
      ((l k).length ≠ 1 ∧ ∃ c ∈ chains k, ∃ m ∈ (chainRange c).nums,
        t = formatted k (tagOf k (pad (chainRange c).width m))) := by
  obtain ⟨k, hk, hname⟩ := List.mem_flatMap.mp ((h.names []).mem_iff.mpr ht)
  refine ⟨k, hk, ?_⟩
  by_cases hone : (l k).length = 1
  · left
    obtain ⟨n, hn⟩ := List.length_eq_one_iff.mp hone
    have hmem : n ∈ l k := by simp [hn]
    rw [tokenPiece, if_pos hone, hn] at hname
    have heq : t = curTok [] (tagOf k n) := List.mem_singleton.mp hname
    rw [curTok, if_pos (h.single_short hk hone hmem)] at heq
    exact ⟨hone, heq ▸ (h.tagOf_mem hk hmem).2.1⟩
  · right
    rw [tokenPiece_names hone] at hname
    obtain ⟨c, hc, hname⟩ := List.mem_flatMap.mp hname
    obtain ⟨m, hm, rfl⟩ := List.mem_map.mp hname
    exact ⟨hone, c, hc, m, hm, rfl⟩

/-- Between brackets no tag is longer than what the parser formats. -/
theorem ReadBack.large_length (h : ReadBack P tags ks l chains)
    (hk : k ∈ ks) (hone : (l k).length ≠ 1) (hn : n ∈ l k) :
    k.2 = [] ∨ (tagOf k n).length < 4096 := by
  obtain ⟨htag, hfam, -⟩ := h.tagOf_mem hk hn
  obtain ⟨k', hk', ⟨hone', hfam'⟩ | ⟨-, c, hc, m, hm, heq⟩⟩ := h.exists_family htag
  · rw [hfam] at hfam'
    exact absurd (hfam' ▸ hone') hone
  · unfold formatted at heq
    split at heq
    · left
      obtain ⟨t, -, rfl⟩ := (h.families k').mp hk'
      have hdigits : Digits (pad (chainRange c).width m) :=
        ⟨pad_ne_nil _ _, fun x hx => isDigit_pad hx⟩
      have hfam' := (parts_tagOf (tagFamily_ok t) hdigits).1
      rw [← heq, hfam] at hfam'
      rw [hfam']
      assumption
    · right
      rw [heq, snprintf, List.length_take]
      omega

/-- A number of a range is not longer than the longest text of its chain. -/
theorem exists_longer {c : List CStr} {m : Nat} (hne : c ≠ []) (hd : ∀ n ∈ c, Digits n)
    (hm : m ∈ (chainRange c).nums) : ∃ n ∈ c, (pad (chainRange c).width m).length ≤ n.length := by
  obtain ⟨a, t, rfl⟩ := List.exists_cons_of_ne_nil hne
  have hlast := List.getLast_mem (List.cons_ne_nil a t)
  rcases Nat.le_total (numDigits m) a.length with hle | hle
  · refine ⟨a, List.mem_cons_self, ?_⟩
    rw [length_pad]
    exact Nat.max_le.mpr ⟨Nat.le_refl _, hle⟩
  · refine ⟨_, hlast, ?_⟩
    have hhi : m ≤ value ((a :: t).getLast (List.cons_ne_nil a t)) := by
      have hread := (mem_nums_iff.mp hm).2
      rw [chainRange, List.getLast?_eq_some_getLast (List.cons_ne_nil a t),
        Option.getD_some] at hread
      exact Nat.le_trans hread (readNumber_le _)
    have hdigits := hd _ hlast
    rw [length_pad]
    exact Nat.le_trans (Nat.max_le.mpr ⟨hle, Nat.le_refl _⟩)
      (Nat.le_trans (numDigits_mono hhi) (numDigits_value_le hdigits.1 hdigits.2))

/-- A number the parser cannot hold is not there behind the header. -/
theorem ReadBack.large_value (h : ReadBack P tags ks l chains)
    (hk : k ∈ ks) (hone : (l k).length ≠ 1) (hn : n ∈ l k) : value n < 2 ^ 64 := by
  obtain ⟨htag, hfam, hnum⟩ := h.tagOf_mem hk hn
  obtain ⟨k', hk', ⟨hone', hfam'⟩ | ⟨hone', c, hc, m, hm, heq⟩⟩ := h.exists_family htag
  · rw [hfam] at hfam'
    exact absurd (hfam' ▸ hone') hone
  · have hf := (h.token k' hk').folded
    have hok := ((h.read k' hk').resolve_left hone').2 c hc
    have hdigits : ∀ n ∈ c, Digits n := fun n hn =>
      ⟨fun hnil => hok.digits (hnil ▸ hn), hf.isDigit (h.token k' hk').digits hc n hn⟩
    obtain ⟨n', hn', hlong⟩ := exists_longer (hf.ne_nil c hc) hdigits hm
    have hlen := (h.large_length hk' hone' (hf.mem hc hn')).imp_right fun hlt =>
      show (tagOf k' (pad (chainRange c).width m)).length < 4096 by
        simp only [tagOf, List.length_append] at hlt ⊢
        omega
    rw [formatted_eq hlen] at heq
    obtain ⟨t, -, rfl⟩ := (h.families k').mp hk'
    have hpad : Digits (pad (chainRange c).width m) := ⟨pad_ne_nil _ _, fun x hx => isDigit_pad hx⟩
    have hnum' := (parts_tagOf (tagFamily_ok t) hpad).2
    rw [← heq, hnum] at hnum'
    rw [hnum', value_pad]
    exact Nat.lt_of_le_of_lt (mem_nums_iff.mp hm).2 (UInt64.toNat_lt _)

/-- Where the header is lossless, each family fits. -/
theorem ReadBack.fits (h : ReadBack P tags ks l chains) (hnodup : tags.Nodup) (hk : k ∈ ks) :
    FamilyFits tags k := by
  have horder := (h.order k hk).perm
  have hmem : ∀ n, n ∈ familyNumbers tags k ↔ n ∈ l k := fun n => horder.mem_iff.symm
  unfold FamilyFits
  rw [← horder.length_eq]
  split
  · rename_i hone
    exact fun n hn => h.single_short hk hone ((hmem n).mp hn)
  · rename_i hone
    have hf := (h.token k hk).folded
    obtain ⟨hroom, hok⟩ := (h.read k hk).resolve_left hone
    have hvalues : ∀ n ∈ l k, n ≠ [] ∧ value n < 2 ^ 64 := by
      intro n hn
      refine ⟨?_, h.large_value hk hone hn⟩
      rintro rfl
      obtain ⟨c, hc, hnc⟩ := List.mem_flatten.mp (hf.perm.mem_iff.mpr hn)
      exact (hok c hc).digits hnc
    have hnum := h.toLayout.numbers hnodup hk hvalues
    have hj := h.joined k hk hnum
    refine ⟨fun n hn => hvalues n ((hmem n).mp hn), ?_, ?_, ?_⟩
    · rw [← (starts_perm horder).length_eq, hj.starts_length hf]
      exact hroom
    · intro a ha
      have hsizes : ∀ c ∈ chains k, c.length % 2 ^ 64 ≤ MAX_RANGE.toNat :=
        fun c hc => (hj.chainOk_iff hnum hf hc).mp (hok c hc)
      have hruns :=
        (hj.forall_chain_iff hnum hf (Q := fun c => c.length % 2 ^ 64 ≤ MAX_RANGE.toNat)).mp hsizes
      rw [← run_perm horder]
      exact hruns a ((starts_perm horder).mem_iff.mpr ha)
    · by_cases hnil : k.2 = []
      · exact .inl hnil
      · exact .inr fun n hn => (h.large_length hk hone ((hmem n).mp hn)).resolve_left
          hnil

end Layout

/-- The header of distinct tags stands for them exactly when each of their families fits. -/
theorem compress_lossless_iff (P : Perl) (hnodup : tags.Nodup) (htags : ∀ t ∈ tags, Tag t) :
    Lossless P tags ↔ ∀ t ∈ tags, FamilyFits tags (tagFamily t) := by
  obtain ⟨ks, l, chains, h⟩ := exists_layout P htags
  rw [h.lossless_iff]
  constructor
  · rintro ⟨hread, hperm⟩ t ht
    have hback : ReadBack P tags ks l chains := ⟨h, htags, hread, hperm⟩
    exact hback.fits hnodup ((h.families _).mpr ⟨t, ht, rfl⟩)
  · intro hfits
    have hfam : ∀ k ∈ ks, FamilyFits tags k := by
      intro k hk
      obtain ⟨t, ht, rfl⟩ := (h.families k).mp hk
      exact hfits t ht
    refine ⟨fun k hk => (h.family_names hnodup hk (hfam k hk) []).1, fun slack => ?_⟩
    have hnames : (ks.flatMap fun k => (tokenPiece slack k (l k) (chains k)).names).Perm
        (ks.flatMap fun k => tags.filter fun t => tagFamily t = k) :=
      List.Perm.flatMap_left ks fun k hk => (h.family_names hnodup hk (hfam k hk) slack).2
    exact hnames.trans (flatMap_filter_perm h.nodup fun t ht => (h.families _).mpr ⟨t, ht, rfl⟩)

/-- A run that leaves equal numbers and the keys in the order they came in. -/
def stable : Perl where
  sort l := l.insertionSort fun a b => value a.2 ≤ value b.2
  sort_perm l := List.perm_insertionSort _ l
  sort_ordered l := by
    have htotal : Std.Total fun a b : CStr × CStr => value a.2 ≤ value b.2 :=
      ⟨fun a b => Nat.le_total _ _⟩
    have htrans : IsTrans (CStr × CStr) fun a b => value a.2 ≤ value b.2 :=
      ⟨fun _ _ _ => Nat.le_trans⟩
    exact (List.pairwise_insertionSort (fun a b : CStr × CStr => value a.2 ≤ value b.2) l).imp
      fun h _ _ => h
  keys l := l
  keys_perm := List.Perm.refl
  float n _ := n

/-- Padded and other numbers, and a tag without one: `bar,foo[1-2,08-10]`. -/
theorem compress_lossless_padded :
    Lossless stable (["foo10", "foo1", "bar", "foo09", "foo2", "foo08"].map String.toList) :=
  (compress_lossless_iff stable (by decide) (by decide)).mpr (by decide +kernel)

/-- `[-1]foo` is no host list. -/
theorem compress_lost : ¬ Lossless stable ["foo".toList, "1foo".toList] := by
  intro h
  obtain ⟨names, hexpand, -⟩ := h []
  have hinvalid : expand [] (printHeader (compress stable ["foo".toList, "1foo".toList])) =
      .exit (.invalidRange "-1".toList) := by decide +kernel
  rw [hinvalid] at hexpand
  cases hexpand

end Pdsh.Dshbak
