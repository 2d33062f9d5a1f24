import Pdsh.Dshbak.Families
import Pdsh.Hostlist.Bracket

/-!
# The header, read as a host list

The token of a family of one tag is the tag itself; that of a larger family has a bracket with an
element for each chain of its numbers. The bracket is read when the parser reads every element
(`parse_family_iff`), and its names are those of the chains.

So the header stands for the tags exactly when every family fits (`compress_lossless_iff`): in a
larger one all tags have a number, below `2^64`, and the runs of the numbers are neither too many
nor too long for the parser.
-/

namespace Pdsh.Dshbak

open Lib Lib.Decimal

variable {P : Perl} {tags l c : List CStr} {a b n slack : CStr} {k : CStr × CStr} {r : Range}
  {chains : List (List CStr)} {e : Entry} {p : Piece}

/-! ## One element -/

theorem StrtoulReads.whole {neg : Bool} {ds : CStr} (h : StrtoulReads a neg ds [])
    (ha : ∀ x ∈ a, x.isDigit) :
    ds = a ∧ a ≠ [] := by
  have hhead : a.head? ≠ some '-' := fun hc => dash_not_digit ha (List.mem_of_head? hc)
  obtain ⟨-, heq⟩ := h.eq_digits (fun x hx => .inl (ha x hx)) hhead
  rw [List.append_nil] at heq
  exact ⟨heq.symm, heq ▸ h.ne_nil⟩

/-- Digits are read as one number. -/
theorem parse_number_iff (ha : ∀ x ∈ a, x.isDigit) :
    parseSingleRange a = .ret r ↔
      a ≠ [] ∧ r = ⟨readNumber false a, readNumber false a, a.length⟩ := by
  have hdash := dash_not_digit ha
  rw [parseSingleRange_iff]
  constructor
  · intro h
    cases h with
    | number _ hreads =>
        obtain ⟨rfl, hne⟩ := StrtoulReads.whole hreads ha
        exact ⟨hne, rfl⟩
    | open_ => exact absurd (by simp) hdash
    | range => exact absurd (by simp) hdash
  · rintro ⟨hne, rfl⟩
    exact .number hdash (reads_digits hne ha)

/-- Two texts of digits are read as the numbers from one to the other. -/
theorem parse_range_iff (ha : ∀ x ∈ a, x.isDigit) (hb : ∀ x ∈ b, x.isDigit) (hne : b ≠ []) :
    parseSingleRange (a ++ '-' :: b) = .ret r ↔
      a ≠ [] ∧ r = ⟨readNumber false a, readNumber false b, a.length⟩ ∧ r.lo ≤ r.hi ∧
        r.hi - r.lo + 1 ≤ MAX_RANGE := by
  have hdash := dash_not_digit ha
  have hdash' := dash_not_digit hb
  have hhead : b.head? ≠ some '-' := fun hc => hdash' (List.mem_of_head? hc)
  rw [parseSingleRange_iff]
  constructor
  · intro h
    generalize htext : a ++ '-' :: b = text at h
    cases h with
    | number hno _ => exact absurd (by simp [← htext]) hno
    | open_ hno _ =>
        obtain ⟨-, -, rfl⟩ := (List.append_cons_inj_of_notMem hdash hdash').mp htext
        exact absurd rfl hne
    | @range a' ds rest b' es neg hno ha' _ hb' hle hsize =>
        obtain ⟨rfl, -, rfl⟩ := (List.append_cons_inj_of_notMem hdash hdash').mp htext
        obtain ⟨rfl, -⟩ := StrtoulReads.whole hb' hb
        obtain rfl := hb'.not_neg hdash'
        have hds : ds = a ∧ a ≠ [] := by
          have hhead' : a.head? ≠ some '-' := fun hc => hdash (List.mem_of_head? hc)
          obtain ⟨-, heq⟩ := ha'.eq_digits (fun x hx => .inl (ha x hx)) hhead'
          have hrest : rest = [] := by
            cases rest with
            | nil => rfl
            | cons x t =>
                have hx := ha'.stop x t rfl
                rw [ha x (by simp [heq])] at hx
                cases hx
          rw [hrest, List.append_nil] at heq
          exact ⟨heq.symm, heq ▸ ha'.ne_nil⟩
        obtain ⟨rfl, hne'⟩ := hds
        exact ⟨hne', rfl, hle, hsize⟩
  · rintro ⟨hne', rfl, hle, hsize⟩
    exact .range hdash (reads_digits hne' ha) hhead (reads_digits hne hb) hle hsize

/-- The range that the element of a chain stands for. -/
def chainRange (c : List CStr) : Range :=
  ⟨readNumber false (c.headD []), readNumber false (c.getLast?.getD []), (c.headD []).length⟩

/-- A chain whose element is read. -/
structure ChainOk (c : List CStr) : Prop where
  digits : [] ∉ c
  le : (chainRange c).lo ≤ (chainRange c).hi
  size : (chainRange c).hi - (chainRange c).lo + 1 ≤ MAX_RANGE

/-- A text without digits can only be the first one of a chain. -/
theorem parse_chain_iff (hne : c ≠ []) (hd : ∀ n ∈ c, ∀ x ∈ n, x.isDigit) (htail : [] ∉ c.tail) :
    parseSingleRange (chainElem c).text = .ret r ↔ ChainOk c ∧ r = chainRange c := by
  obtain ⟨a, t, rfl⟩ := List.exists_cons_of_ne_nil hne
  have ha := hd a (by simp)
  cases ht : t.getLast? with
  | none =>
      obtain rfl := List.getLast?_eq_none_iff.mp ht
      show parseSingleRange a = .ret r ↔ _
      rw [parse_number_iff ha]
      constructor
      · rintro ⟨hne, rfl⟩
        refine ⟨⟨by simpa using Ne.symm hne, UInt64.le_refl _, ?_⟩, rfl⟩
        exact UInt64.not_lt.mp (self_size _)
      · rintro ⟨hok, rfl⟩
        exact ⟨fun h => hok.digits (by simp [h]), rfl⟩
  | some b =>
      have hbt : b ∈ t := List.mem_of_getLast? ht
      have hb := hd b (List.mem_cons_of_mem a hbt)
      have hb0 : b ≠ [] := fun h => htail (h ▸ hbt)
      have hrange : chainRange (a :: t) = ⟨readNumber false a, readNumber false b, a.length⟩ := by
        simp [chainRange, List.getLast?_cons, ht]
      have htext : (chainElem (a :: t)).text = a ++ '-' :: b := by simp [chainElem, Elem.text, ht]
      rw [htext, parse_range_iff ha hb hb0]
      constructor
      · rintro ⟨hne, rfl, hle, hsize⟩
        refine ⟨⟨?_, ?_, ?_⟩, hrange.symm⟩
        · rw [List.mem_cons, not_or]
          exact ⟨Ne.symm hne, htail⟩
        · rw [hrange]
          exact hle
        · rw [hrange]
          exact hsize
      · rintro ⟨hok, rfl⟩
        exact ⟨fun h => hok.digits (by simp [h]), hrange, hok.le, hok.size⟩

/-! ## One family -/

/-- The elements of a bracket. -/
def chainTexts (chains : List (List CStr)) : List CStr := chains.map fun c => (chainElem c).text

theorem Folded.texts (hf : Folded P l e chains) : e.s.map Elem.text = chainTexts chains := by
  rw [hf.elems, List.map_map]
  rfl

theorem Folded.isDigit (hf : Folded P l e chains) (hd : ∀ n ∈ l, ∀ x ∈ n, x.isDigit)
    (hc : c ∈ chains) :
    ∀ n ∈ c, ∀ x ∈ n, x.isDigit := fun n hn => hd n (hf.mem hc hn)

/-- An element is made of digits and a dash. -/
theorem mem_chainText {x : Char} (hd : ∀ n ∈ c, ∀ x ∈ n, x.isDigit) (hx : x ∈ (chainElem c).text) :
    x.isDigit ∨ x = '-' := by
  have hhead : ∀ x ∈ c.headD [], x.isDigit := by
    cases c with
    | nil => simp
    | cons a t => exact hd a (by simp)
  unfold Elem.text at hx
  split at hx
  · rename_i stop hstop
    have hmem : stop ∈ c := List.mem_of_mem_tail (List.mem_of_getLast? hstop)
    rcases List.mem_append.mp hx with hx | hx
    · exact .inl (hhead x hx)
    · rcases List.mem_cons.mp hx with rfl | hx
      · exact .inr rfl
      · exact .inl (hd stop hmem x hx)
  · exact .inl (hhead x hx)

theorem chainTexts_inBracket (hd : ∀ c ∈ chains, ∀ n ∈ c, ∀ x ∈ n, x.isDigit) :
    ∀ text ∈ chainTexts chains, InBracket text := by
  intro text htext x hx
  obtain ⟨c, hc, rfl⟩ := List.mem_map.mp htext
  rcases mem_chainText (hd c hc) hx with hdigit | rfl
  · have hbounds := digit_bounds hdigit
    refine ⟨?_, ?_, ?_⟩ <;>
    · rintro rfl
      revert hbounds
      decide
  · decide

/-- A tag that is alone in its family is written as it is. -/
theorem familyText_single (hn : ∀ x ∈ n, x.isDigit) : familyText P k [n] = tagOf k n := by
  have hprev : prevIndex P Entry.empty n = none := by
    unfold prevIndex
    split
    · rename_i h
      cases h
    · split <;> rfl
  have hs : ([n].foldl (compStep P) Entry.empty).s = [⟨n, none⟩] := by
    rw [List.foldl_cons, List.foldl_nil, compStep, hprev]
    rfl
  have hdash : '-' ∉ n := dash_not_digit hn
  rw [familyText, hs]
  simp [bracketText, Elem.text, hdash, tagOf]

/-- Other families have a bracket. -/
theorem familyText_bracket (hf : Folded P l (l.foldl (compStep P) Entry.empty) chains)
    (hl : 2 ≤ l.length) :
    familyText P k l = k.1 ++ '[' :: List.intercalate [','] (chainTexts chains) ++ ']' :: k.2 := by
  have hbracket : 1 < (chainTexts chains).length ∨ '-' ∈ (chainTexts chains).headD [] := by
    have hlen := hf.perm.length_eq
    cases chains with
    | nil => simp at hlen; omega
    | cons c rest =>
        cases rest with
        | cons c' rest => exact .inl (by simp [chainTexts])
        | nil =>
            -- a single chain holds all the numbers
            right
            rw [List.flatten_cons, List.flatten_nil, List.append_nil] at hlen
            obtain ⟨a, t, rfl⟩ := List.exists_cons_of_ne_nil (hf.ne_nil c (by simp))
            have ht : t ≠ [] := by
              rintro rfl
              simp at hlen
              omega
            show '-' ∈ (chainElem (a :: t)).text
            simp [chainElem, Elem.text, List.getLast?_eq_some_getLast ht]
  rw [familyText, hf.texts, bracketText, if_pos hbracket]
  simp

/-- Two lists related by a function, where it is defined. -/
theorem forall₂_iff_map {α β : Type*} {R : α → β → Prop} {Q : α → Prop} {f : α → β} {xs : List α}
    {ys : List β} (h : ∀ x ∈ xs, ∀ y, R x y ↔ Q x ∧ y = f x) :
    List.Forall₂ R xs ys ↔ (∀ x ∈ xs, Q x) ∧ ys = xs.map f := by
  induction xs generalizing ys with
  | nil => simp
  | cons x xs ih =>
      rw [List.forall₂_cons_left_iff, List.forall_mem_cons, List.map_cons]
      simp only [h x List.mem_cons_self, ih fun x' hx' => h x' (List.mem_cons_of_mem x hx')]
      constructor
      · rintro ⟨_, _, ⟨hx, rfl⟩, ⟨hxs, rfl⟩, rfl⟩
        exact ⟨⟨hx, hxs⟩, rfl⟩
      · rintro ⟨⟨hx, hxs⟩, rfl⟩
        exact ⟨_, _, ⟨hx, rfl⟩, ⟨hxs, rfl⟩, rfl⟩

/-- The bracket of a family is read when each element is, and there is room for all of them. -/
theorem parse_family_iff (hopen : '[' ∉ k.1) (hd : ∀ n ∈ l, ∀ x ∈ n, x.isDigit)
    (hf : Folded P l (l.foldl (compStep P) Entry.empty) chains) (hl : 2 ≤ l.length) :
    parsePiece slack (familyText P k l) = .ret (some p) ↔
      chains.length ≤ MAX_RANGES ∧ (∀ c ∈ chains, ChainOk c) ∧
        p = if k.2 ≠ [] then .suffixed k.1 (chains.map chainRange) k.2
          else .ranges k.1 (chains.map chainRange) := by
  have hdigits : ∀ c ∈ chains, ∀ n ∈ c, ∀ x ∈ n, x.isDigit := fun c hc => hf.isDigit hd hc
  have hne : chainTexts chains ≠ [] := by
    intro h
    have hlen := hf.perm.length_eq
    rw [List.map_eq_nil_iff.mp h] at hlen
    simp at hlen
    omega
  have hread : ∀ rs,
      List.Forall₂ (fun str r => parseSingleRange str = .ret r) (chainTexts chains) rs ↔
      (∀ c ∈ chains, ChainOk c) ∧ rs = chains.map chainRange := by
    intro rs
    rw [chainTexts, List.forall₂_map_left_iff]
    exact forall₂_iff_map fun c hc r => parse_chain_iff (hf.ne_nil c hc) (hdigits c hc)
      (hf.tail c hc)
  rw [familyText_bracket hf hl, parsePiece_list_iff hopen hne (chainTexts_inBracket hdigits)]
  simp only [hread]
  rw [chainTexts, List.length_map]
  constructor
  · rintro ⟨hroom, rs, ⟨hok, rfl⟩, rfl⟩
    exact ⟨hroom, hok, rfl⟩
  · rintro ⟨hroom, hok, rfl⟩
    exact ⟨hroom, _, ⟨hok, rfl⟩, rfl⟩

/-- A name of a family, cut where the parser formats it into its 4096 bytes. -/
def formatted (k : CStr × CStr) (name : CStr) : CStr :=
  if k.2 = [] then name else snprintf 4096 name

theorem formatted_eq {name : CStr} (h : k.2 = [] ∨ name.length < 4096) :
    formatted k name = name := by
  unfold formatted
  split
  · rfl
  · rename_i hne
    exact List.take_of_length_le (Nat.le_sub_one_of_lt (h.resolve_left hne))

/-- What the parser makes of the token of a family. -/
def tokenPiece (slack : CStr) (k : CStr × CStr) (l : List CStr) (chains : List (List CStr)) :
    Piece :=
  if l.length = 1 then .host (curTok slack (tagOf k (l.headD [])))
  else if k.2 ≠ [] then .suffixed k.1 (chains.map chainRange) k.2
  else .ranges k.1 (chains.map chainRange)

theorem tokenPiece_names (hl : l.length ≠ 1) : (tokenPiece slack k l chains).names =
    chains.flatMap fun c => (chainRange c).nums.map fun m =>
      formatted k (tagOf k (pad (chainRange c).width m)) := by
  rw [tokenPiece, if_neg hl]
  by_cases hk : k.2 = []
  · simp [hk, Piece.names, formatted, tagOf, List.flatMap_map]
  · simp [hk, Piece.names, formatted, tagOf, List.flatMap_map]

/-- The token of a family is read. -/
def TokenRead (l : List CStr) (chains : List (List CStr)) : Prop :=
  l.length = 1 ∨ chains.length ≤ MAX_RANGES ∧ ∀ c ∈ chains, ChainOk c

/-- The numbers of a family and their chains. -/
structure Token (P : Perl) (k : CStr × CStr) (l : List CStr) (chains : List (List CStr)) :
    Prop where
  ne_nil : l ≠ []
  digits : ∀ n ∈ l, ∀ x ∈ n, x.isDigit
  plain : Plain hostlistSep k.1 ∧ Plain hostlistSep k.2
  nonempty : ∀ n ∈ l, tagOf k n ≠ []
  folded : Folded P l (l.foldl (compStep P) Entry.empty) chains

theorem Token.plain_tagOf (h : Token P k l chains) (hn : n ∈ l) : Plain hostlistSep (tagOf k n) :=
  (h.plain.1.append (plain_digits (h.digits n hn))).append h.plain.2

theorem Token.two_le (h : Token P k l chains) (hl : l.length ≠ 1) : 2 ≤ l.length := by
  have hpos := List.length_pos_iff.mpr h.ne_nil
  omega

theorem Token.parse_iff (h : Token P k l chains) :
    parsePiece slack (familyText P k l) = .ret (some p) ↔
    TokenRead l chains ∧ p = tokenPiece slack k l chains := by
  by_cases hl : l.length = 1
  · obtain ⟨n, rfl⟩ := List.length_eq_one_iff.mp hl
    have hn := h.plain_tagOf (List.mem_singleton_self n)
    rw [familyText_single (h.digits n (by simp)), parsePiece_plain hn.noBracket, tokenPiece,
      if_pos hl]
    simp only [Run.ret.injEq, Option.some.injEq, TokenRead, hl, true_or, true_and, eq_comm]
    rfl
  · have hopen : '[' ∉ k.1 := fun hc => (h.plain.1 _ hc).1 rfl
    rw [parse_family_iff hopen h.digits h.folded (h.two_le hl), TokenRead, tokenPiece, if_neg hl]
    simp only [hl, false_or, and_assoc]

/-- The token of a family is one token of the header. -/
theorem Token.closed (h : Token P k l chains) : Closed hostlistSep (familyText P k l) := by
  by_cases hl : l.length = 1
  · obtain ⟨n, rfl⟩ := List.length_eq_one_iff.mp hl
    rw [familyText_single (h.digits n (by simp))]
    exact (h.plain_tagOf (by simp)).closed (h.nonempty n (by simp))
  · have hbody := noBracket_intercalate
      (chainTexts_inBracket fun c hc => h.folded.isDigit h.digits hc)
    have hopen : (List.intercalate [','] (chainTexts chains)).count '[' = 0 :=
      List.count_eq_zero_of_not_mem fun hc => (hbody _ hc).1 rfl
    rw [familyText_bracket h.folded (h.two_le hl)]
    refine ⟨by simp, ?_⟩
    rw [tokenLevel_segment (Int.le_refl 0) h.plain.1 (fun hc => (hbody _ hc).2 rfl) (by decide),
      hopen]
    exact tokenLevel_plain h.plain.2 _

/-! ## Numbers that are read as they are -/

theorem readNumber_toNat (ha : value a < 2 ^ 64) : (readNumber false a).toNat = value a := by
  have hM := ULONG_MAX_toNat
  rw [readNumber, if_pos (by omega)]
  exact UInt64.toNat_ofNat_of_lt' ha

/-- No number is read as a larger one. -/
theorem readNumber_le (a : CStr) : (readNumber false a).toNat ≤ value a := by
  have hM := ULONG_MAX_toNat
  unfold readNumber
  split
  · exact Nat.le_of_eq (UInt64.toNat_ofNat_of_lt' (show value a < 2 ^ 64 by omega))
  · omega

theorem mem_nums_iff {m : Nat} : m ∈ r.nums ↔ r.lo.toNat ≤ m ∧ m ≤ r.hi.toNat := by
  rw [Range.nums, List.mem_range'_1]
  omega

theorem Joined.chainRange_eq (hl : Numbers l) (hf : Folded P l e chains) (hj : Joined l chains)
    {t : List CStr} (hc : a :: t ∈ chains) :
    (chainRange (a :: t)).lo.toNat = value a ∧
      (chainRange (a :: t)).hi.toNat = value a + t.length := by
  have hlast := run_last (hj.chain _ hc)
  have hsmall : ∀ n ∈ a :: t, value n < 2 ^ 64 := fun n hn => hl.small n (hf.mem hc hn)
  have hget : (a :: t).getLast?.getD [] = (a :: t).getLast (by simp) := by
    rw [List.getLast?_eq_some_getLast (by simp), Option.getD_some]
  constructor
  · exact readNumber_toNat (hsmall a (by simp))
  · show (readNumber false _).toNat = _
    rw [hget, readNumber_toNat (hsmall _ (List.getLast_mem _)), hlast]

/-- The names of an element are the numbers of its chain. -/
theorem Joined.nums_eq (hl : Numbers l) (hf : Folded P l e chains) (hj : Joined l chains)
    (hc : c ∈ chains) : (chainRange c).nums.map (pad (chainRange c).width) = c := by
  obtain ⟨a, t, rfl⟩ := List.exists_cons_of_ne_nil (hf.ne_nil c hc)
  obtain ⟨hlo, hhi⟩ := hj.chainRange_eq hl hf hc
  have htexts := run_texts (fun n hn => hl.digits n (hf.mem hc hn)) (hj.chain _ hc)
  have hlen : value a + t.length + 1 - value a = t.length + 1 := by omega
  rw [Range.nums, hlo, hhi, hlen]
  exact htexts.symm

/-- A run is read when its size is: it is computed in an `unsigned long`. -/
theorem Joined.chainOk_iff (hl : Numbers l) (hf : Folded P l e chains) (hj : Joined l chains)
    (hc : c ∈ chains) : ChainOk c ↔ c.length % 2 ^ 64 ≤ MAX_RANGE.toNat := by
  obtain ⟨a, t, rfl⟩ := List.exists_cons_of_ne_nil (hf.ne_nil c hc)
  obtain ⟨hlo, hhi⟩ := hj.chainRange_eq hl hf hc
  have hle : (chainRange (a :: t)).lo ≤ (chainRange (a :: t)).hi := by
    rw [UInt64.le_iff_toNat_le, hlo, hhi]
    exact Nat.le_add_right _ _
  have hsize : ((chainRange (a :: t)).hi - (chainRange (a :: t)).lo + 1).toNat =
      (t.length + 1) % 2 ^ 64 := by
    rw [UInt64.toNat_add, UInt64.toNat_sub_of_le _ _ hle, hlo, hhi, Nat.add_sub_cancel_left]
    rfl
  have hdigits : [] ∉ a :: t := fun hn => (hl.digits [] (hf.mem hc hn)).1 rfl
  constructor
  · intro hok
    have := UInt64.le_iff_toNat_le.mp hok.size
    rwa [hsize] at this
  · intro hok
    exact ⟨hdigits, hle, UInt64.le_iff_toNat_le.mpr (by rwa [hsize])⟩

/-- What holds of all chains holds of all runs. -/
theorem Joined.forall_chain_iff (hl : Numbers l) (hf : Folded P l e chains) (hj : Joined l chains)
    {Q : List CStr → Prop} : (∀ c ∈ chains, Q c) ↔ ∀ a ∈ starts l, Q (run l a) := by
  constructor
  · intro h a ha
    obtain ⟨hal, hfirst⟩ := List.mem_filter.mp ha
    obtain ⟨c, hc, hac⟩ := List.mem_flatten.mp (hf.perm.mem_iff.mpr hal)
    have hhead := (hj.starts_iff hf hc hac).mp (by simpa using hfirst)
    rw [hj.run_eq hf hl hc hhead]
    exact h c hc
  · intro h c hc
    obtain ⟨a, t, rfl⟩ := List.exists_cons_of_ne_nil (hf.ne_nil c hc)
    have hfirst := (hj.starts_iff hf hc List.mem_cons_self).mpr rfl
    have hal := hf.mem hc List.mem_cons_self
    have hstart : a ∈ starts l := List.mem_filter.mpr ⟨hal, by simpa using hfirst⟩
    have hq := h a hstart
    rwa [hj.run_eq hf hl hc rfl] at hq

end Pdsh.Dshbak
