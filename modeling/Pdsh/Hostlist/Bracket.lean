import Pdsh.Hostlist.Pushes

/-!
# The bracket grammar

Between brackets stand numbers `a` and ranges `a-b`, with commas between them (`Element`). The
parser leans on `strtoul` and accepts more than that (`Readable`): blanks and a `+` in front of
a number, any text between the lower bound and the dash, a dash with nothing behind it, and
behind a blank a negative upper bound. It reads every list of elements as what it denotes, and a
list that it reads is one of elements exactly when no element is `Loose` (`range_list_exact_iff`).

The size of a range is computed in an `unsigned long`: the range from 0 to the largest of them
has none (`range_size_iff`).
-/

namespace Pdsh

open Lib Lib.Chunks Lib.Decimal

variable {s str ds rest : CStr} {neg : Bool} {r : Range}

/-! ## What `strtoul` reads -/

/-- `strtoul` reads blanks, an optional sign and the digits `ds`, and stops at `rest`. -/
structure StrtoulReads (s : CStr) (neg : Bool) (ds rest : CStr) : Prop where
  text : ∃ blanks sign, s = blanks ++ (sign ++ (ds ++ rest)) ∧ (∀ c ∈ blanks, isspace c = true) ∧
    (sign = [] ∧ neg = false ∨ sign = ['+'] ∧ neg = false ∨ sign = ['-'] ∧ neg = true)
  ne_nil : ds ≠ []
  digits : ∀ c ∈ ds, c.isDigit = true
  stop : ∀ c t, rest = c :: t → c.isDigit = false

/-- The number that is read. -/
def readNumber (neg : Bool) (ds : CStr) : UInt64 :=
  if value ds ≤ ULONG_MAX.toNat then
    if neg then 0 - UInt64.ofNat (value ds) else UInt64.ofNat (value ds)
  else ULONG_MAX

theorem takeWhile_digits (hd : ∀ c ∈ ds, c.isDigit = true) (hstop : ∀ c t, rest = c :: t → c.isDigit = false) :
    (ds ++ rest).takeWhile Char.isDigit = ds ∧ (ds ++ rest).dropWhile Char.isDigit = rest := by
  rw [List.takeWhile_append_of_pos hd, List.dropWhile_append_of_pos hd]
  cases rest with
  | nil => simp
  | cons c t => simp [hstop c t rfl]

theorem StrtoulReads.strtoul_eq (h : StrtoulReads s neg ds rest) :
    (strtoul s).value = readNumber neg ds ∧ (strtoul s).endptr = rest := by
  obtain ⟨blanks, sign, rfl, hblanks, hsign⟩ := h.text
  obtain ⟨c, t, hct⟩ := List.exists_cons_of_ne_nil h.ne_nil
  have hc := h.digits c (by simp [hct])
  have hsigned : strtoulSign ((blanks ++ (sign ++ (ds ++ rest))).dropWhile isspace) = (neg, ds ++ rest) := by
    rw [List.dropWhile_append_of_pos hblanks]
    rcases hsign with ⟨rfl, rfl⟩ | ⟨rfl, rfl⟩ | ⟨rfl, rfl⟩
    · rw [hct]
      simp only [List.nil_append, List.cons_append]
      rw [List.dropWhile_cons_of_neg (by simp [isspace_of_isDigit hc])]
      exact strtoulSign_of_isDigit hc _
    · rfl
    · rfl
  obtain ⟨htake, hdrop⟩ := takeWhile_digits h.digits h.stop
  unfold strtoul readNumber
  simp only [hsigned, htake, hdrop, h.ne_nil, if_false]
  split
  · exact ⟨rfl, rfl⟩
  · exact ⟨rfl, rfl⟩

theorem strtoulSign_split (s : CStr) : ∃ sign, s = sign ++ (strtoulSign s).2 ∧
    (sign = [] ∧ (strtoulSign s).1 = false ∨ sign = ['+'] ∧ (strtoulSign s).1 = false ∨
      sign = ['-'] ∧ (strtoulSign s).1 = true) := by
  unfold strtoulSign
  split
  · exact ⟨['-'], rfl, .inr (.inr ⟨rfl, rfl⟩)⟩
  · exact ⟨['+'], rfl, .inr (.inl ⟨rfl, rfl⟩)⟩
  · exact ⟨[], rfl, .inl ⟨rfl, rfl⟩⟩

/-- Where `strtoul` moves on, it has read a number. -/
theorem reads_of_endptr (h : (strtoul s).endptr ≠ s) : ∃ neg ds, StrtoulReads s neg ds (strtoul s).endptr := by
  obtain ⟨sign, hsplit, hsign⟩ := strtoulSign_split (s.dropWhile isspace)
  have hne : (strtoulSign (s.dropWhile isspace)).2.takeWhile Char.isDigit ≠ [] := by
    intro hnil
    refine h ?_
    unfold strtoul
    simp only [hnil, if_true]
  have hend : (strtoul s).endptr = (strtoulSign (s.dropWhile isspace)).2.dropWhile Char.isDigit := by
    unfold strtoul
    simp only [hne, if_false]
    split <;> rfl
  refine ⟨_, _, ⟨⟨s.takeWhile isspace, sign, ?_, fun c hc => List.mem_takeWhile_imp hc, hsign⟩, hne,
    fun c hc => List.mem_takeWhile_imp hc, ?_⟩⟩
  · rw [hend, List.takeWhile_append_dropWhile, ← hsplit, List.takeWhile_append_dropWhile]
  · intro c t hct
    rw [hend] at hct
    have hhead := List.head?_dropWhile_not Char.isDigit (strtoulSign (s.dropWhile isspace)).2
    rw [hct] at hhead
    simpa using hhead

/-- Something was read. -/
theorem StrtoulReads.moves (h : StrtoulReads s neg ds rest) : rest ≠ s := by
  rintro rfl
  obtain ⟨blanks, sign, htext, -, -⟩ := h.text
  have hlen := congrArg List.length htext
  have hpos := List.length_pos_iff.mpr h.ne_nil
  simp only [List.length_append] at hlen
  omega

/-! ## One element -/

/-- What the parser accepts as an element, and the range it makes of it. -/
inductive Readable : CStr → Range → Prop where
  | number {a ds : CStr} (hdash : '-' ∉ a) (ha : StrtoulReads a false ds []) :
      Readable a ⟨readNumber false ds, readNumber false ds, a.length⟩
  | open_ {a ds : CStr} (hdash : '-' ∉ a) (ha : StrtoulReads a false ds []) :
      Readable (a ++ ['-']) ⟨readNumber false ds, readNumber false ds, a.length⟩
  | range {a ds rest b es : CStr} {neg : Bool} (hdash : '-' ∉ a) (ha : StrtoulReads a false ds rest)
      (hhead : b.head? ≠ some '-') (hb : StrtoulReads b neg es [])
      (hle : readNumber false ds ≤ readNumber neg es)
      (hsize : readNumber neg es - readNumber false ds + 1 ≤ MAX_RANGE) :
      Readable (a ++ '-' :: b) ⟨readNumber false ds, readNumber neg es, a.length⟩

/-- Without a dash no number is negative. -/
theorem StrtoulReads.not_neg (h : StrtoulReads s neg ds rest) (hdash : '-' ∉ s) : neg = false := by
  obtain ⟨blanks, sign, rfl, -, hsign⟩ := h.text
  rcases hsign with ⟨-, hneg⟩ | ⟨-, hneg⟩ | ⟨rfl, -⟩
  · exact hneg
  · exact hneg
  · exact absurd (by simp) hdash

theorem not_lt_self (n : UInt64) : ¬ n > n := by
  rw [gt_iff_lt, UInt64.lt_iff_toNat_lt]
  exact Nat.lt_irrefl _

theorem self_size (n : UInt64) : ¬ n - n + 1 > MAX_RANGE := by
  rw [UInt64.sub_self]
  decide

/-- The parser reads what is readable, and nothing else. -/
theorem parseSingleRange_iff : parseSingleRange str = .ret r ↔ Readable str r := by
  constructor
  · intro h
    unfold parseSingleRange at h
    cases hcut : strchr '-' str with
    | none =>
        have hdash : '-' ∉ str := strchr_eq_none_iff.mp hcut
        simp only [hcut, Option.map_none, Option.getD_none, Option.any_none, Bool.false_eq_true,
          if_false] at h
        split at h
        · cases h
        · rename_i hmoves
          obtain ⟨neg, ds, hreads⟩ := reads_of_endptr hmoves
          obtain rfl := hreads.not_neg hdash
          by_cases hend : (strtoul str).endptr = []
          · rw [hend] at hreads
            simp only [parseUpperBound, hend, ne_eq, not_true_eq_false, if_false, not_lt_self,
              self_size, hreads.strtoul_eq.1, Run.ret.injEq] at h
            exact h ▸ .number hdash hreads
          · simp only [parseUpperBound, hend, ne_eq, not_false_eq_true, if_true, reduceCtorEq] at h
    | some cut =>
        obtain ⟨a, b⟩ := cut
        obtain ⟨rfl, hdash⟩ := strchr_eq_some_iff.mp hcut
        simp only [hcut, Option.map_some, Option.getD_some, Option.any_some, decide_eq_true_eq] at h
        split at h
        · cases h
        · rename_i hhead
          split at h
          · cases h
          · rename_i hmoves
            obtain ⟨neg, ds, hreads⟩ := reads_of_endptr hmoves
            obtain rfl := hreads.not_neg hdash
            have hlo := hreads.strtoul_eq.1
            cases b with
            | nil =>
                by_cases hend : (strtoul a).endptr = []
                · rw [hend] at hreads
                  simp only [parseUpperBound, hend, ne_eq, not_true_eq_false, if_false, not_lt_self,
                    self_size, hlo, Run.ret.injEq] at h
                  exact h ▸ .open_ hdash hreads
                · simp only [parseUpperBound, hend, ne_eq, not_false_eq_true, if_true, reduceCtorEq] at h
            | cons c p =>
                by_cases hbad : (strtoul (c :: p)).endptr = c :: p ∨ (strtoul (c :: p)).endptr ≠ []
                · simp only [parseUpperBound, hbad, if_true, reduceCtorEq] at h
                · obtain ⟨hmoves', hend⟩ := not_or.mp hbad
                  obtain ⟨neg, es, hreads'⟩ := reads_of_endptr hmoves'
                  rw [not_not.mp hend] at hreads'
                  simp only [parseUpperBound, hbad, if_false, hlo, hreads'.strtoul_eq.1] at h
                  split at h
                  · cases h
                  · rename_i hle
                    split at h
                    · cases h
                    · rename_i hsize
                      cases h
                      exact .range hdash hreads hhead hreads' (UInt64.not_lt.mp hle) (UInt64.not_lt.mp hsize)
  · intro h
    unfold parseSingleRange
    cases h with
    | number hdash ha =>
        obtain ⟨hlo, hend⟩ := ha.strtoul_eq
        simp only [strchr_eq_none_iff.mpr hdash, Option.map_none, Option.getD_none, Option.any_none,
          Bool.false_eq_true, if_false, hend, ha.moves, parseUpperBound, ne_eq, not_true_eq_false,
          not_lt_self, self_size, hlo]
    | @open_ a ds hdash ha =>
        obtain ⟨hlo, hend⟩ := ha.strtoul_eq
        have hcut : strchr '-' (a ++ ['-']) = some (a, []) := strchr_eq_some_iff.mpr ⟨rfl, hdash⟩
        simp only [hcut, Option.map_some, Option.getD_some, Option.any_some, List.head?_nil, reduceCtorEq,
          decide_false, Bool.false_eq_true, if_false, hend, ha.moves, parseUpperBound, ne_eq,
          not_true_eq_false, not_lt_self, self_size, hlo]
    | @range a ds rest b es neg hdash ha hhead hb hle hsize =>
        obtain ⟨hlo, hend⟩ := ha.strtoul_eq
        obtain ⟨hhi, hend'⟩ := hb.strtoul_eq
        have hcut : strchr '-' (a ++ '-' :: b) = some (a, b) := strchr_eq_some_iff.mpr ⟨rfl, hdash⟩
        have hmoves := hb.moves
        have hupper : parseUpperBound (readNumber false ds) rest (some b) = some (readNumber neg es) := by
          cases b with
          | nil => exact absurd rfl hmoves
          | cons c p => simp [parseUpperBound, hhi, hend']
        simp only [hcut, Option.map_some, Option.getD_some, Option.any_some, hhead, decide_false,
          Bool.false_eq_true, if_false, hend, ha.moves, hlo, hupper, gt_iff_lt, UInt64.not_lt.mpr hle,
          UInt64.not_lt.mpr hsize]

/-! ## The grammar -/

/-- An element of a bracket and the numbers it stands for. -/
inductive Element : CStr → Range → Prop where
  | number {ds : CStr} (hne : ds ≠ []) (hd : ∀ c ∈ ds, c.isDigit = true) :
      Element ds ⟨UInt64.ofNat (value ds), UInt64.ofNat (value ds), ds.length⟩
  | range {ds es : CStr} (hne : ds ≠ []) (hd : ∀ c ∈ ds, c.isDigit = true) (hne' : es ≠ [])
      (hd' : ∀ c ∈ es, c.isDigit = true) (hle : value ds ≤ value es)
      (hsize : value es - value ds + 1 ≤ MAX_RANGE.toNat) :
      Element (ds ++ '-' :: es) ⟨UInt64.ofNat (value ds), UInt64.ofNat (value es), ds.length⟩

/-- No number is longer than 19 digits. -/
def ShortRuns (s : CStr) : Prop := ∀ run, run <:+: s → (∀ c ∈ run, c.isDigit = true) → run.length ≤ 19

/-- There is a character that is neither a digit nor a dash, or the last one is a dash. -/
def Loose (s : CStr) : Prop := (∃ c ∈ s, c.isDigit = false ∧ c ≠ '-') ∨ s.getLast? = some '-'

theorem ShortRuns.mono {t : CStr} (h : ShortRuns s) (hts : t <:+: s) : ShortRuns t :=
  fun run hrun hd => h run (hrun.trans hts) hd

theorem ShortRuns.value_lt (h : ShortRuns s) {run : CStr} (hrun : run <:+: s)
    (hd : ∀ c ∈ run, c.isDigit = true) : value run < 10 ^ 19 := by
  have hlt := Decimal.value_lt run hd
  have hmono := Nat.pow_le_pow_right (show 0 < 10 by decide) (h run hrun hd)
  omega

/-- Numbers of at most 19 digits are read as they are. -/
theorem readNumber_short (h : value ds < 10 ^ 19) : readNumber false ds = UInt64.ofNat (value ds) := by
  have hM := ULONG_MAX_toNat
  rw [readNumber, if_pos (by omega)]
  simp

theorem ofNat_toNat_short (h : value ds < 10 ^ 19) : (UInt64.ofNat (value ds)).toNat = value ds := by
  rw [UInt64.toNat_ofNat']
  omega

theorem reads_digits (hne : ds ≠ []) (hd : ∀ c ∈ ds, c.isDigit = true) : StrtoulReads ds false ds [] :=
  ⟨⟨[], [], by simp, by simp, .inl ⟨rfl, rfl⟩⟩, hne, hd, by simp⟩

theorem dash_not_digit (hd : ∀ c ∈ ds, c.isDigit = true) : '-' ∉ ds := fun h => absurd (hd _ h) (by decide)

/-- An element is read as what it denotes. -/
theorem Element.readable (hruns : ShortRuns s) (h : Element s r) : Readable s r := by
  cases h with
  | number hne hd =>
      have hnum := Readable.number (dash_not_digit hd) (reads_digits hne hd)
      rwa [readNumber_short (hruns.value_lt List.infix_rfl hd)] at hnum
  | @range ds es hne hd hne' hd' hle hsize =>
      have hds := hruns.value_lt ⟨[], '-' :: es, rfl⟩ hd
      have hes := hruns.value_lt ⟨ds ++ ['-'], [], by simp⟩ hd'
      have hlo := readNumber_short hds
      have hhi := readNumber_short hes
      have hle' : UInt64.ofNat (value ds) ≤ UInt64.ofNat (value es) := by
        rw [UInt64.le_iff_toNat_le, ofNat_toNat_short hds, ofNat_toNat_short hes]
        exact hle
      have hrange := @Readable.range ds ds [] es es false (dash_not_digit hd) (reads_digits hne hd)
        (fun h => dash_not_digit hd' (List.mem_of_head? h)) (reads_digits hne' hd') (by rwa [hlo, hhi])
      rw [hlo, hhi] at hrange
      refine hrange ?_
      rw [UInt64.le_iff_toNat_le, UInt64.toNat_add, UInt64.toNat_sub_of_le _ _ hle', ofNat_toNat_short hds,
        ofNat_toNat_short hes]
      show (value es - value ds + 1) % 2 ^ 64 ≤ _
      omega

theorem Element.not_loose (h : Element s r) : ¬ Loose s := by
  have hdigits : ∀ {t : CStr}, t ≠ [] → (∀ c ∈ t, c.isDigit = true) → t.getLast? ≠ some '-' := by
    intro t hne hd hlast
    exact dash_not_digit hd (List.mem_of_getLast? hlast)
  rintro (⟨c, hc, hnodigit, hnodash⟩ | hlast)
  · cases h with
    | number hne hd =>
        rw [hd c hc] at hnodigit
        cases hnodigit
    | range hne hd hne' hd' hle hsize =>
        rcases List.mem_append.mp hc with hc | hc
        · rw [hd c hc] at hnodigit
          cases hnodigit
        · rcases List.mem_cons.mp hc with rfl | hc
          · exact hnodash rfl
          · rw [hd' c hc] at hnodigit
            cases hnodigit
  · cases h with
    | number hne hd => exact hdigits hne hd hlast
    | @range ds es hne hd hne' hd' hle hsize =>
        rw [List.getLast?_append, List.getLast?_cons, List.getLast?_eq_some_getLast hne'] at hlast
        refine dash_not_digit hd' ?_
        simp only [Option.getD_some, Option.some_or, Option.some.injEq] at hlast
        rw [← hlast]
        exact List.getLast_mem hne'

/-- Of digits and dashes only digits are read. -/
theorem StrtoulReads.eq_digits (h : StrtoulReads s neg ds rest) (hclean : ∀ c ∈ s, c.isDigit = true ∨ c = '-')
    (hhead : s.head? ≠ some '-') : neg = false ∧ s = ds ++ rest := by
  obtain ⟨blanks, sign, rfl, hblanks, hsign⟩ := h.text
  have hnil : blanks = [] := by
    cases blanks with
    | nil => rfl
    | cons c t =>
        have hblank := hblanks c (by simp)
        rcases hclean c (by simp) with hdigit | rfl
        · rw [isspace_of_isDigit hdigit] at hblank
          cases hblank
        · exact absurd rfl hhead
  subst hnil
  rcases hsign with ⟨rfl, hneg⟩ | ⟨rfl, -⟩ | ⟨rfl, -⟩
  · exact ⟨hneg, rfl⟩
  · exact absurd (hclean '+' (by simp)) (by decide)
  · exact absurd rfl hhead

/-- What is read and is not loose is an element. -/
theorem Readable.element (hruns : ShortRuns s) (h : Readable s r) (hloose : ¬ Loose s) : Element s r := by
  obtain ⟨hclean, hlast⟩ := not_or.mp hloose
  have hclean : ∀ c ∈ s, c.isDigit = true ∨ c = '-' := by
    intro c hc
    by_contra hno
    obtain ⟨hdigit, hdash⟩ := not_or.mp hno
    exact hclean ⟨c, hc, by simpa using hdigit, hdash⟩
  have hlower : ∀ {a ds rest : CStr}, a <:+: s → '-' ∉ a → StrtoulReads a false ds rest → a = ds ∧ rest = [] := by
    intro a ds rest ha hdash hreads
    have hdigits : ∀ c ∈ a, c.isDigit = true := by
      intro c hc
      rcases hclean c (ha.subset hc) with hdigit | rfl
      · exact hdigit
      · exact absurd hc hdash
    obtain ⟨-, heq⟩ := hreads.eq_digits (fun c hc => .inl (hdigits c hc))
      fun hhead => hdash (List.mem_of_head? hhead)
    have hrest : rest = [] := by
      cases rest with
      | nil => rfl
      | cons c t =>
          have hstop := hreads.stop c t rfl
          rw [hdigits c (by rw [heq]; simp)] at hstop
          cases hstop
    rw [hrest, List.append_nil] at heq
    exact ⟨heq, hrest⟩
  cases h with
  | number hdash ha =>
      obtain ⟨rfl, -⟩ := hlower List.infix_rfl hdash ha
      rw [readNumber_short (hruns.value_lt List.infix_rfl ha.digits)]
      exact .number ha.ne_nil ha.digits
  | open_ hdash ha => exact absurd List.getLast?_concat hlast
  | @range a ds rest b es neg hdash ha hhead hb hle hsize =>
      obtain ⟨rfl, rfl⟩ := hlower ⟨[], '-' :: b, rfl⟩ hdash ha
      obtain ⟨rfl, hbes⟩ := hb.eq_digits (fun c hc => hclean c (by simp [hc])) hhead
      rw [List.append_nil] at hbes
      subst hbes
      have hds := hruns.value_lt ⟨[], '-' :: b, rfl⟩ ha.digits
      have hes := hruns.value_lt ⟨a ++ ['-'], [], by simp⟩ hb.digits
      rw [readNumber_short hds, readNumber_short hes] at hle hsize ⊢
      have hle' := hle
      rw [UInt64.le_iff_toNat_le, ofNat_toNat_short hds, ofNat_toNat_short hes] at hle'
      refine .range ha.ne_nil ha.digits hb.ne_nil hb.digits hle' ?_
      rw [UInt64.le_iff_toNat_le, UInt64.toNat_add, UInt64.toNat_sub_of_le _ _ hle, ofNat_toNat_short hds,
        ofNat_toNat_short hes] at hsize
      have hone : (1 : UInt64).toNat = 1 := rfl
      omega

/-! ## Lists -/

theorem parseRangeList_iff {body : CStr} {len : Nat} {rs : List Range} :
    parseRangeList body len = .ret (some rs) ↔
      (body.splitOn ',').length ≤ len ∧ List.Forall₂ Readable (body.splitOn ',') rs := by
  rw [parseRangeList, parseRangeListLoop_some_iff]
  simp only [parseSingleRange_iff]

theorem infix_of_mem_splitOn {body piece : CStr} (h : piece ∈ body.splitOn ',') : piece <:+: body := by
  obtain ⟨before, after, hsplit⟩ := List.append_of_mem h
  have hjoin : List.intercalate [','] (body.splitOn ',') = body := List.intercalate_splitOn ','
  rw [← hjoin, hsplit]
  clear hsplit hjoin
  induction before with
  | nil =>
      cases after with
      | nil => simp
      | cons next after =>
          rw [List.nil_append, List.intercalate_cons_cons, List.append_assoc]
          exact (List.prefix_append _ _).isInfix
  | cons first before ih =>
      cases hrest : before ++ piece :: after with
      | nil => simp at hrest
      | cons next rest =>
          rw [List.cons_append, hrest, List.intercalate_cons_cons, ← hrest]
          exact ih.trans (List.suffix_append _ _).isInfix

/-- A bracket that is not read leaves no list behind. -/
theorem create_rejected {body : CStr} (hbody : ']' ∉ body)
    (h : ∀ rs, parseRangeList body MAX_RANGES ≠ .ret (some rs)) {slack str pfx q : CStr} (hpfx : '[' ∉ pfx)
    (htok : pfx ++ '[' :: body ++ ']' :: q ∈ tokens hostlistSep str) (hl : Hostlist) :
    hostlistCreate slack str ≠ .ret (some hl) := by
  intro hcreate
  obtain ⟨ps, hparse, -, -⟩ := createLoop_some_iff.mp hcreate
  obtain ⟨p, -, hp⟩ := exists_of_forall₂ (List.Forall₂.flip (parsePieces_some_iff.mp hparse)) htok
  rw [parsePiece_bracket hpfx hbody] at hp
  obtain ⟨nr, hnr, hmap⟩ := Run.bind_eq_ret_iff.mp hp
  simp only [Run.pure_eq, Run.ret.injEq, Option.map_eq_some_iff] at hmap
  obtain ⟨rs, rfl, -⟩ := hmap
  exact h rs hnr

/-- The grammar of brackets: a list is accepted when it is one of at most `MAX_RANGES` elements,
with the ranges they denote, and otherwise no host list comes of it. -/
structure ExactBracket (body : CStr) : Prop where
  accepted : ∀ rs, parseRangeList body MAX_RANGES = .ret (some rs) ↔
    (body.splitOn ',').length ≤ MAX_RANGES ∧ List.Forall₂ Element (body.splitOn ',') rs
  rejected : (¬ ∃ rs, (body.splitOn ',').length ≤ MAX_RANGES ∧ List.Forall₂ Element (body.splitOn ',') rs) →
    ∀ slack str pfx q, '[' ∉ pfx → pfx ++ '[' :: body ++ ']' :: q ∈ tokens hostlistSep str →
      hostlistCreate slack str ≠ .hang →
        hostlistCreate slack str = .ret none ∨ ∃ e, hostlistCreate slack str = .exit e

/-- A bracket is read by the grammar, unless every element of it is readable and one is loose. -/
theorem range_list_exact_iff {body : CStr} (hruns : ShortRuns body) (hbody : ']' ∉ body) :
    ExactBracket body ↔
      ¬ ((body.splitOn ',').length ≤ MAX_RANGES ∧ (∀ piece ∈ body.splitOn ',', ∃ r, Readable piece r) ∧
        ∃ piece ∈ body.splitOn ',', Loose piece) := by
  have hpieces : ∀ piece ∈ body.splitOn ',', ShortRuns piece := fun piece hpiece =>
    hruns.mono (infix_of_mem_splitOn hpiece)
  constructor
  · rintro ⟨haccepted, -⟩ ⟨hlen, hread, piece, hpiece, hloose⟩
    obtain ⟨rs, hrs⟩ := exists_forall₂ hread
    obtain ⟨-, hall⟩ := (haccepted rs).mp (parseRangeList_iff.mpr ⟨hlen, hrs⟩)
    obtain ⟨r, -, hr⟩ := exists_of_forall₂ (List.Forall₂.flip hall) hpiece
    exact Element.not_loose hr hloose
  · intro hno
    have haccepted : ∀ rs, parseRangeList body MAX_RANGES = .ret (some rs) ↔
        (body.splitOn ',').length ≤ MAX_RANGES ∧ List.Forall₂ Element (body.splitOn ',') rs := by
      intro rs
      rw [parseRangeList_iff]
      refine and_congr_right fun hlen => ⟨fun hread => ?_, fun hall => ?_⟩
      · -- no element is loose
        have hnone : ∀ piece ∈ body.splitOn ',', ¬ Loose piece := by
          intro piece hpiece hloose
          refine hno ⟨hlen, fun x hx => ?_, piece, hpiece, hloose⟩
          obtain ⟨r, -, hr⟩ := exists_of_forall₂ (List.Forall₂.flip hread) hx
          exact ⟨r, hr⟩
        have hboth := (List.forall₂_and_left _ _).mpr ⟨hpieces, (List.forall₂_and_left _ _).mpr ⟨hnone, hread⟩⟩
        exact hboth.imp fun piece r ⟨hshort, htight, hr⟩ => hr.element hshort htight
      · have hboth := (List.forall₂_and_left _ _).mpr ⟨hpieces, hall⟩
        exact hboth.imp fun piece r ⟨hshort, hr⟩ => hr.readable hshort
    refine ⟨haccepted, fun hnone slack str pfx q hpfx htok hends => ?_⟩
    cases hcreate : hostlistCreate slack str with
    | exit e => exact .inr ⟨e, rfl⟩
    | hang => exact absurd hcreate hends
    | ret result =>
        cases result with
        | none => exact .inl rfl
        | some hl =>
            refine absurd hcreate (create_rejected hbody (fun rs hrs => ?_) hpfx htok hl)
            exact hnone ⟨rs, (haccepted rs).mp hrs⟩

/-- One number and one range. -/
theorem range_list_exact_two : ExactBracket "07,1-2".toList := by
  have digits (ds : List Char) (hall : ds.all Char.isDigit = true) : ∀ c ∈ ds, c.isDigit = true :=
    List.all_eq_true.mp hall
  refine (@range_list_exact_iff "07,1-2".toList (fun run hrun _ => hrun.length_le.trans (by decide))
    (by decide)).mpr ?_
  rintro ⟨-, -, piece, hpiece, hloose⟩
  have hsplit : "07,1-2".toList.splitOn ',' = ["07".toList, "1-2".toList] := by decide
  rw [hsplit] at hpiece
  rcases List.mem_pair.mp hpiece with rfl | rfl
  · exact (Element.number (by decide) (digits _ rfl)).not_loose hloose
  · have helement := @Element.range "1".toList "2".toList (by decide) (digits _ rfl) (by decide)
      (digits _ rfl) (by decide) (by decide)
    exact helement.not_loose hloose

/-- A dash with nothing behind it. -/
theorem range_list_open_end : ShortRuns "5-".toList ∧ ¬ ExactBracket "5-".toList := by
  refine ⟨fun run hrun _ => hrun.length_le.trans (by decide), fun h => ?_⟩
  have hread : parseRangeList "5-".toList MAX_RANGES = .ret (some [⟨5, 5, 1⟩]) := by decide
  obtain ⟨-, hall⟩ := (h.accepted _).mp hread
  have hsplit : "5-".toList.splitOn ',' = ["5-".toList] := by decide
  rw [hsplit] at hall
  obtain ⟨r, hr⟩ : ∃ r, Element "5-".toList r := by
    cases hall with
    | cons hr _ => exact ⟨_, hr⟩
  exact hr.not_loose (.inr rfl)

/-! ## Sizes -/

/-- The size that is computed for a range is the number of its hosts, which is in the limits, and
it goes into the number of hosts of a list. -/
structure Sized (hr : Hostrange) (hl : Hostlist) : Prop where
  pos : 1 ≤ hr.names.length
  le : hr.names.length ≤ MAX_RANGE.toNat
  count : (hostrangeCount hr).toNat = hr.names.length
  nhosts : (hostlistPushRange hl hr).1.nhosts = hl.nhosts + Int32.ofNat hr.names.length

theorem pushRange_nhosts (hl : Hostlist) (hr : Hostrange) :
    (hostlistPushRange hl hr).1.nhosts = hl.nhosts + intOfUlong (hostrangeCount hr) := by
  unfold hostlistPushRange
  split
  case h_1 tail hr' heq =>
    obtain ⟨t, -, hcombine⟩ := Option.bind_eq_some_iff.mp heq
    obtain ⟨w, hpair, -⟩ := hostrangeWidthCombine_some hcombine
    obtain ⟨-, rfl⟩ := Prod.mk.inj hpair
    rfl
  case h_2 => rfl

/-- A size that was let through is the right one, unless it has wrapped. -/
theorem sized_iff {pfx : CStr} {lo hi : UInt64} {width : Nat} {hl : Hostlist} (hle : lo ≤ hi)
    (hsize : hi - lo + 1 ≤ MAX_RANGE) :
    Sized (hostrangeCreate pfx lo hi width) hl ↔ ¬ (lo = 0 ∧ hi = ULONG_MAX) := by
  have hlt := hi.toNat_lt
  have hM := ULONG_MAX_toNat
  have hle' := UInt64.le_iff_toNat_le.mp hle
  have hnames : (hostrangeCreate pfx lo hi width).names.length = hi.toNat + 1 - lo.toNat := by
    rw [hostrangeCreate_names, length_block]
  have hcount : (hostrangeCount (hostrangeCreate pfx lo hi width)).toNat =
      (hi.toNat + 1 - lo.toNat) % 2 ^ 64 := by
    show (hi - lo + 1).toNat = _
    rw [UInt64.toNat_add, UInt64.toNat_sub_of_le _ _ hle]
    show (hi.toNat - lo.toNat + 1) % 2 ^ 64 = _
    congr 1
    omega
  have hlimit : (hi.toNat + 1 - lo.toNat) % 2 ^ 64 ≤ 16384 := by
    rw [← hcount]
    exact UInt64.le_iff_toNat_le.mp hsize
  have hmax : MAX_RANGE.toNat = 16384 := rfl
  have hfull : (lo = 0 ∧ hi = ULONG_MAX) ↔ hi.toNat + 1 - lo.toNat = 2 ^ 64 := by
    rw [← UInt64.toNat_inj, ← UInt64.toNat_inj, hM]
    show lo.toNat = 0 ∧ _ ↔ _
    omega
  rw [hfull]
  constructor
  · intro h hwhole
    have hfits := h.le
    rw [hnames, hwhole] at hfits
    omega
  · intro hno
    have hsame : (hi.toNat + 1 - lo.toNat) % 2 ^ 64 = hi.toNat + 1 - lo.toNat :=
      Nat.mod_eq_of_lt (by omega)
    rw [hsame] at hcount hlimit
    refine ⟨?_, ?_, ?_, ?_⟩
    · rw [hnames]
      omega
    · rw [hnames]
      omega
    · rw [hnames]
      exact hcount
    · rw [pushRange_nhosts, intOfUlong, hcount, hnames]

/-- A range that is read has at least one host and at most `MAX_RANGE`, and that many are counted,
unless it goes from 0 to `ULONG_MAX`. -/
theorem range_size_iff (h : parseSingleRange str = .ret r) (pfx : CStr) (hl : Hostlist) :
    Sized (hostrangeCreate pfx r.lo r.hi r.width) hl ↔
      ¬ ∃ first last, strchr '-' str = some (first, last) ∧ (strtoul first).value = 0 ∧
        (strtoul last).value = ULONG_MAX := by
  -- one number is never the whole range
  have hone : ∀ {n : UInt64} {w : Nat}, Sized (hostrangeCreate pfx n n w) hl := by
    intro n w
    refine (sized_iff (UInt64.le_refl n) (UInt64.not_lt.mp (self_size n))).mpr ?_
    rintro ⟨rfl, hmax⟩
    cases hmax
  cases parseSingleRange_iff.mp h with
  | number hdash ha =>
      refine iff_of_true hone ?_
      rintro ⟨first, last, hcut, -⟩
      rw [strchr_eq_none_iff.mpr hdash] at hcut
      cases hcut
  | @open_ a ds hdash ha =>
      refine iff_of_true hone ?_
      rintro ⟨first, last, hcut, -, hlast⟩
      rw [strchr_eq_some_iff.mpr ⟨rfl, hdash⟩] at hcut
      cases hcut
      cases hlast
  | @range a ds rest b es neg hdash ha hhead hb hle hsize =>
      rw [sized_iff hle hsize, strchr_eq_some_iff.mpr ⟨rfl, hdash⟩, ← ha.strtoul_eq.1, ← hb.strtoul_eq.1]
      constructor
      · rintro hno ⟨first, last, hcut, hfirst, hlast⟩
        cases hcut
        exact hno ⟨hfirst, hlast⟩
      · rintro hno ⟨hfirst, hlast⟩
        exact hno ⟨a, b, rfl, hfirst, hlast⟩

/-- Four hosts. -/
theorem range_size_four : Sized (hostrangeCreate "n".toList 1 4 1) hostlistNew := by
  have hread : parseSingleRange "1-4".toList = .ret ⟨1, 4, 1⟩ := by decide
  refine (range_size_iff hread "n".toList hostlistNew).mpr ?_
  rintro ⟨first, last, hcut, hfirst, -⟩
  have hparts : strchr '-' "1-4".toList = some ("1".toList, "4".toList) := by decide
  rw [hparts] at hcut
  cases hcut
  cases hfirst

/-- All numbers are too many. -/
theorem range_size_wraps :
    parseSingleRange "0-18446744073709551615".toList = .ret ⟨0, ULONG_MAX, 1⟩ ∧
      (hostrangeCount (hostrangeCreate "n".toList 0 ULONG_MAX 1)) = 0 ∧
      ¬ (hostrangeCreate "n".toList 0 ULONG_MAX 1).names.length ≤ MAX_RANGE.toNat := by
  refine ⟨by decide, by decide, ?_⟩
  rw [hostrangeCreate_names, length_block]
  decide

end Pdsh
