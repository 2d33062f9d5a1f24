import Pdsh.Hostlist.Split
import Pdsh.Hostlist.Parse

/-!
# `hostlist_sort`

Behind `qsort` the array is scanned from the right, and each pair that overlaps is split. Where
a split leaves the array in order, the names are the same and the scan goes on with pieces that
are shorter or further to the right, so it ends. A split can also put a piece in front of a
range with a zero-padded width it has grown beyond; then the scan runs into the two.

`Orderly` says of an array whether that happens. It is the same for all orders of the array and
for the array behind a split, so it is a condition on the list that is to be sorted
(`hostlist_sort_iff`).
-/

namespace Pdsh

open Lib Lib.Decimal Lib.Interval

variable {h x r y : Hostrange} {pre post l l' : List Hostrange} {hl : Hostlist} {p : CStr} {w u v : Nat}

/-! ## Zero-padded widths -/

/-- The lowest number is written with zeros in front. -/
def Hostrange.Padded (r : Hostrange) : Prop := r.singlehost = false ∧ numDigits r.lo.toNat < r.field

instance (r : Hostrange) : Decidable r.Padded := inferInstanceAs (Decidable (_ ∧ _))

/-- The widths of the padded ranges behind `p`. -/
def widths (l : List Hostrange) (p : CStr) : List Nat :=
  (l.filter fun r => r.Padded ∧ r.pfx = p).map Hostrange.field

/-- `v` is the next of the widths `ws` above the one of the range, and the range goes on to
numbers of `v` digits. -/
def Overruns (ws : List Nat) (p : CStr) (v : Nat) (r : Hostrange) : Prop :=
  r.singlehost = false ∧ r.pfx = p ∧ r.field < v ∧ v ≤ numDigits r.hi.toNat ∧ ∀ u ∈ ws, r.field < u → v ≤ u

instance (ws : List Nat) (p : CStr) (v : Nat) (r : Hostrange) : Decidable (Overruns ws p v r) :=
  inferInstanceAs (Decidable (_ ∧ _))

/-- At most one range overruns each padded width. -/
def Orderly (l : List Hostrange) : Prop :=
  ∀ c ∈ l, ∀ v ∈ widths l c.pfx, l.countP (fun r => Overruns (widths l c.pfx) c.pfx v r) ≤ 1

instance (l : List Hostrange) : Decidable (Orderly l) := inferInstanceAs (Decidable (∀ _ ∈ _, _))

theorem mem_widths : u ∈ widths l p ↔ ∃ c ∈ l, c.Padded ∧ c.pfx = p ∧ c.field = u := by
  unfold widths
  simp only [List.mem_map, List.mem_filter, decide_eq_true_eq]
  constructor
  · rintro ⟨c, ⟨hc, hpad, hpfx⟩, rfl⟩
    exact ⟨c, hc, hpad, hpfx, rfl⟩
  · rintro ⟨c, hc, hpad, hpfx, rfl⟩
    exact ⟨c, ⟨hc, hpad, hpfx⟩, rfl⟩

theorem orderly_iff : Orderly l ↔
    ∀ p, ∀ v ∈ widths l p, l.countP (fun r => Overruns (widths l p) p v r) ≤ 1 := by
  constructor
  · intro h p v hv
    obtain ⟨c, hc, -, rfl, -⟩ := mem_widths.mp hv
    exact h c hc v hv
  · intro h c _ v hv
    exact h c.pfx v hv

/-- It depends on the widths as a set, and on how many ranges overrun each. -/
theorem orderly_congr (hws : ∀ p u, u ∈ widths l' p ↔ u ∈ widths l p)
    (hcount : ∀ p, ∀ v ∈ widths l p, l'.countP (fun r => Overruns (widths l p) p v r) =
      l.countP (fun r => Overruns (widths l p) p v r)) : Orderly l' ↔ Orderly l := by
  have hover (p : CStr) (v : Nat) (r : Hostrange) :
      Overruns (widths l' p) p v r ↔ Overruns (widths l p) p v r := by
    unfold Overruns
    simp only [hws]
  rw [orderly_iff, orderly_iff]
  refine forall_congr' fun p => ?_
  constructor
  · intro h v hv
    have := h v ((hws p v).mpr hv)
    simp only [hover] at this
    rwa [hcount p v hv] at this
  · intro h v hv
    have hv' := (hws p v).mp hv
    simp only [hover]
    rw [hcount p v hv']
    exact h v hv'

theorem orderly_perm (hp : l'.Perm l) : Orderly l' ↔ Orderly l := by
  refine orderly_congr (fun p u => ?_) (fun p v _ => hp.countP_eq _)
  rw [mem_widths, mem_widths]
  simp only [hp.mem_iff]

theorem orderly_rewidth (hall : List.Forall₂ Hostrange.Rewidth l l') : Orderly l' ↔ Orderly l := by
  have hover {ws : List Nat} {a a' : Hostrange} (hr : a.Rewidth a') (p : CStr) (v : Nat) :
      Overruns ws p v a' ↔ Overruns ws p v a := by
    unfold Overruns
    rw [hr.pfx.1, hr.pfx.2, hr.field.1, hr.bounds.2]
  have hpadded {a a' : Hostrange} (hr : a.Rewidth a') : a'.Padded ↔ a.Padded := by
    unfold Hostrange.Padded
    rw [hr.pfx.2, hr.field.1, hr.field.2]
  have hws (p : CStr) : widths l' p = widths l p := by
    unfold widths
    induction hall with
    | nil => rfl
    | cons hr _ ih =>
        simp only [List.filter_cons, hpadded hr, hr.pfx.1]
        split
        · rw [List.map_cons, List.map_cons, ih, hr.field.1]
        · exact ih
  refine orderly_congr (fun p u => by rw [hws]) (fun p v hv => ?_)
  generalize widths l p = ws at hv
  clear hws hv
  induction hall with
  | nil => rfl
  | cons hr _ ih => rw [List.countP_cons, List.countP_cons, ih, decide_eq_decide.mpr (hover hr p v)]

/-! ## The array while it is scanned -/

/-- An array in order, of ranges below `2^31`. -/
structure Ready (l : List Hostrange) : Prop where
  sorted : Sorted l
  wf : ∀ r ∈ l, r.Wf
  below : ∀ r ∈ l, r.hi.toNat < 2 ^ 31

theorem Ready.rewidth (h : Ready l) (hall : List.Forall₂ Hostrange.Rewidth l l') : Ready l' where
  sorted := (pairwise_rewidth (fun _ _ _ _ ha hb => ha.le_iff hb) hall).mpr h.sorted
  wf := rewidth_forall (fun _ _ hr hw => hr.wf hw) hall h.wf
  below := rewidth_forall (P := fun r => r.hi.toNat < 2 ^ 31)
    (fun _ _ hr hb => by rw [hr.bounds.2]; exact hb) hall h.below

theorem Ready.lo_lt (h : Ready l) : ∀ r ∈ l, r.lo.toNat < 2 ^ 31 := by
  intro r hr
  have hle := (h.wf r hr).le
  have hlt := h.below r hr
  omega

theorem Ready.suffix (h : Ready (pre ++ l)) : Ready l where
  sorted := (List.pairwise_append.mp h.sorted).2.1
  wf := fun r hr => h.wf r (List.mem_append_right _ hr)
  below := fun r hr => h.below r (List.mem_append_right _ hr)

/-- Prefix and kind are those of all ranges in between. -/
theorem prefixCmp_between (hxy : x.Le y) (hyr : y.Le r) (h : hostrangePrefixCmp x r = 0) :
    hostrangePrefixCmp x y = 0 ∧ hostrangePrefixCmp y r = 0 ∧ x.field ≤ y.field ∧ y.field ≤ r.field := by
  unfold Hostrange.Le at hxy hyr
  obtain ⟨-, hends⟩ := @hostrangePrefixCmp_trans x y r (by omega) (by omega)
  obtain ⟨h₁, h₂⟩ := hends h
  omega

/-- Of two neighbours that are compared by number, no padded width is between. -/
theorem no_width_between (hs : Sorted (pre ++ h :: x :: post)) (hsingle : h.singlehost = false)
    (hn : ByNumber h x) (hu : u ∈ widths (pre ++ h :: x :: post) h.pfx) (hlt : h.field < u) : x.field < u := by
  obtain ⟨c, hc, ⟨hcs, hpad⟩, hpfx, rfl⟩ := mem_widths.mp hu
  obtain ⟨hpre, hrest, hcross⟩ := List.pairwise_append.mp hs
  obtain ⟨hh, hrest⟩ := List.pairwise_cons.mp hrest
  obtain ⟨hx, -⟩ := List.pairwise_cons.mp hrest
  have hhc : hostrangePrefixCmp h c = 0 :=
    hostrangePrefixCmp_eq_zero_iff.mpr ⟨hpfx.symm, hsingle.trans hcs.symm⟩
  have hle := hh x List.mem_cons_self
  have hfields := (lo_le_iff_of_combines hn.2).mp (hn.lo_le hle)
  have hcomb := combines_iff.mp hn.2
  rcases List.mem_append.mp hc with hc | hc
  · -- `c` would be behind `h`
    have hch := hcross c hc h List.mem_cons_self
    have hswap := hostrangePrefixCmp_swap h c
    unfold Hostrange.Le at hch
    omega
  · rcases List.mem_cons.mp hc with rfl | hc
    · omega
    · rcases List.mem_cons.mp hc with rfl | hc
      · omega
      · obtain ⟨-, hxc, -, hfield⟩ := prefixCmp_between hle (hx c hc) hhc
        by_contra hge
        -- then `x` has the width of `c`, and is no lower in number
        have hxc' := hx c hc
        unfold Hostrange.Le at hxc'
        have hdigits : x.lo.toNat ≤ c.lo.toNat → numDigits x.lo.toNat ≤ numDigits c.lo.toNat := numDigits_mono
        omega

/-- Where all pairs are quiet, no two ranges overrun one width. -/
theorem countP_of_quiet {ws : List Nat} (hs : Sorted l) (hq : l.IsChain Quiet)
    (hws : ∀ r ∈ l, r.Padded → r.pfx = p → r.field ∈ ws) : l.countP (fun r => Overruns ws p v r) ≤ 1 := by
  induction l with
  | nil => exact Nat.zero_le _
  | cons r l ih =>
      obtain ⟨hr, hsl⟩ := List.pairwise_cons.mp hs
      have hrest := ih hsl hq.tail fun y hy => hws y (List.mem_cons_of_mem _ hy)
      rw [List.countP_cons]
      by_cases hover : Overruns ws p v r
      · rw [if_pos (decide_eq_true hover)]
        -- a range behind `r` that overruns `v` has the next one below itself
        have hnone : l.countP (fun r => Overruns ws p v r) = 0 := by
          refine List.countP_eq_zero.mpr fun y hy => ?_
          rw [decide_eq_true_eq]
          intro hover'
          obtain ⟨hrs, hrp, -, hdigits, hnext⟩ := hover
          obtain ⟨hys, hyp, hlt, -⟩ := hover'
          cases l with
          | nil => exact List.not_mem_nil hy
          | cons z l =>
              have hrz := hr z List.mem_cons_self
              have hzy : z.Le y := by
                rcases List.mem_cons.mp hy with rfl | hy
                · exact .refl y
                · exact (List.pairwise_cons.mp hsl).1 y hy
              obtain ⟨hk, -, hfz, hfy⟩ := prefixCmp_between hrz hzy
                (hostrangePrefixCmp_eq_zero_iff.mpr ⟨hrp.trans hyp.symm, hrs.trans hys.symm⟩)
              obtain ⟨hzp, hzs⟩ := hostrangePrefixCmp_eq_zero_iff.mp hk
              have hzdigits : numDigits z.lo.toNat ≤ z.field := Nat.le_max_right ..
              have hcomb : Combines r z := by
                rw [combines_iff]
                by_cases hpad : z.Padded
                · have := hnext z.field (hws z (by simp) hpad (hzp.symm.trans hrp))
                  omega
                · unfold Hostrange.Padded at hpad
                  rw [← hzs, hrs] at hpad
                  simp only [true_and] at hpad
                  omega
              refine (List.isChain_cons_cons.mp hq).1 ⟨hrs, ⟨hk, hcomb⟩, ?_⟩
              by_contra hge
              have := numDigits_mono (Nat.le_of_not_lt hge)
              omega
        omega
      · rw [if_neg (by simpa using hover)]
        omega

theorem orderly_of_quiet (hs : Sorted l) (hq : l.IsChain Quiet) : Orderly l := by
  refine orderly_iff.mpr fun p v _ => countP_of_quiet hs hq fun r hr hpad hpfx => ?_
  exact mem_widths.mpr ⟨r, hr, hpad, hpfx, rfl⟩

/-! ## The condition behind a split -/

theorem Crossing.fields (hc : Crossing w h x) :
    h.field = max w (numDigits h.lo.toNat) ∧ x.field = max w (numDigits x.lo.toNat) := by
  unfold Hostrange.field
  rw [hc.width.1, hc.width.2]
  exact ⟨rfl, rfl⟩

/-- The pieces have the padded widths of the two ranges. -/
theorem padded_pieces (hc : Crossing w h x) :
    (∃ c ∈ pieces w h x, c.Padded ∧ c.pfx = p ∧ c.field = u) ↔
      ∃ c ∈ [h, x], c.Padded ∧ c.pfx = p ∧ c.field = u := by
  obtain ⟨hfield, hfieldx⟩ := hc.fields
  have hpiece {d : Nat × Nat} (hd : d ∈ divide h.lo.toNat h.hi.toNat x.lo.toNat x.hi.toNat) :
      ((piece h.pfx w d).Padded ↔ numDigits d.1 < w) ∧ (piece h.pfx w d).field = max w (numDigits d.1) := by
    obtain ⟨-, -, -, h₁, h₂⟩ := hc.below_of_mem hd
    unfold Hostrange.Padded
    rw [piece_field h₁ h₂, (piece_bounds h₁ h₂).1]
    have hkind : (piece h.pfx w d).singlehost = false := rfl
    simp only [hkind, true_and, and_true]
    omega
  have hrange {c : Hostrange} (hs : c.singlehost = false) (hf : c.field = max w (numDigits c.lo.toNat)) :
      c.Padded ↔ numDigits c.lo.toNat < w := by
    unfold Hostrange.Padded
    rw [hs, hf]
    simp only [true_and]
    omega
  have hah := Nat.le_of_lt hc.lo_lt
  have hax := hc.wf.2.le
  constructor
  · rintro ⟨c, hcmem, hpad, hpfx, rfl⟩
    obtain ⟨d, hd, rfl⟩ := List.mem_map.mp hcmem
    obtain ⟨hpadiff, hf⟩ := hpiece hd
    have hlt := hpadiff.mp hpad
    rcases mem_divide_cases hah hax hd with rfl | hle
    · exact ⟨h, by simp, (hrange hc.left hfield).mpr hlt, hpfx, by rw [hf, hfield]⟩
    · have := numDigits_mono hle
      refine ⟨x, by simp, (hrange hc.right hfieldx).mpr (by omega), hc.pfx.symm.trans hpfx, ?_⟩
      rw [hf, hfieldx]
      omega
  · rintro ⟨c, hcmem, hpad, hpfx, rfl⟩
    simp only [List.mem_cons, List.not_mem_nil, or_false] at hcmem
    rcases hcmem with rfl | rfl
    · have hd : (c.lo.toNat, x.lo.toNat) ∈ divide c.lo.toNat c.hi.toNat x.lo.toNat x.hi.toNat := by
        simp [divide]
      obtain ⟨hpadiff, hf⟩ := hpiece hd
      exact ⟨_, List.mem_map.mpr ⟨_, hd, rfl⟩, hpadiff.mpr ((hrange hc.left hfield).mp hpad), hpfx,
        by rw [hf, hfield]⟩
    · obtain ⟨d, hd, heq⟩ := @exists_mem_divide h.lo.toNat h.hi.toNat c.lo.toNat c.hi.toNat hah hax
      obtain ⟨hpadiff, hf⟩ := hpiece hd
      rw [heq] at hpadiff hf
      exact ⟨_, List.mem_map.mpr ⟨d, hd, rfl⟩, hpadiff.mpr ((hrange hc.right hfieldx).mp hpad),
        hc.pfx.trans hpfx, by rw [hf, hfieldx]⟩

/-- A split is good if no shared number is as long as a wider padded width of the prefix. -/
def Good (ws : List Nat) (h x : Hostrange) : Prop :=
  ∀ u ∈ ws, x.field < u → numDigits (min h.hi.toNat x.hi.toNat) < u

/-- As many pieces overrun a width as ranges did. -/
theorem countP_pieces {ws : List Nat} (hc : Crossing w h x) (hbetween : ∀ u ∈ ws, h.field < u → x.field < u)
    (hgood : Good ws h x) (hv : v ∈ ws) :
    (pieces w h x).countP (fun r => Overruns ws h.pfx v r) = [h, x].countP (fun r => Overruns ws h.pfx v r) := by
  obtain ⟨hfield, hfieldx⟩ := hc.fields
  have hdigits := numDigits_mono hc.lo_le
  by_cases hlt : x.field < v
  · have hshared := hgood v hv hlt
    obtain ⟨front, heq, hfront⟩ := pieces_front hc
    obtain ⟨-, hlasthi, hlastfield⟩ := last_piece hc
    have hzero : front.countP (fun r => Overruns ws h.pfx v r) = 0 := by
      refine List.countP_eq_zero.mpr fun r hr hover => ?_
      have hover' := (of_decide_eq_true hover).2.2.2.1
      have := numDigits_mono (hfront r hr)
      omega
    rw [heq, List.countP_append, hzero]
    simp only [List.countP_cons, List.countP_nil]
    -- seen from either range, or from the last piece, the same width is next
    have hnexth : (∀ u ∈ ws, h.field < u → v ≤ u) ↔ ∀ u ∈ ws, x.field < u → v ≤ u :=
      ⟨fun hn u hu hlt' => hn u hu (by omega), fun hn u hu hlt' => hn u hu (hbetween u hu hlt')⟩
    have hnextlast : (∀ u ∈ ws, max w (numDigits (min h.hi.toNat x.hi.toNat)) < u → v ≤ u) ↔
        ∀ u ∈ ws, x.field < u → v ≤ u := by
      have hmono : numDigits x.lo.toNat ≤ numDigits (min h.hi.toNat x.hi.toNat) :=
        numDigits_mono (le_min (Nat.le_of_lt hc.lo_lt) hc.wf.2.le)
      refine ⟨fun hn u hu hlt' => hn u hu ?_, fun hn u hu hlt' => hn u hu (by omega)⟩
      have := hgood u hu hlt'
      omega
    have hoverh : Overruns ws h.pfx v h ↔ v ≤ numDigits h.hi.toNat ∧ ∀ u ∈ ws, x.field < u → v ≤ u := by
      unfold Overruns
      rw [hnexth]
      exact ⟨fun ⟨_, _, _, h₁, h₂⟩ => ⟨h₁, h₂⟩, fun ⟨h₁, h₂⟩ => ⟨hc.left, rfl, by omega, h₁, h₂⟩⟩
    have hoverx : Overruns ws h.pfx v x ↔ v ≤ numDigits x.hi.toNat ∧ ∀ u ∈ ws, x.field < u → v ≤ u :=
      ⟨fun ⟨_, _, _, h₁, h₂⟩ => ⟨h₁, h₂⟩, fun ⟨h₁, h₂⟩ => ⟨hc.right, hc.pfx.symm, hlt, h₁, h₂⟩⟩
    have hoverlast : Overruns ws h.pfx v
        (piece h.pfx w (min h.hi.toNat x.hi.toNat, max h.hi.toNat x.hi.toNat)) ↔
          v ≤ numDigits (max h.hi.toNat x.hi.toNat) ∧ ∀ u ∈ ws, x.field < u → v ≤ u := by
      unfold Overruns
      rw [hlasthi, hlastfield, hnextlast]
      exact ⟨fun ⟨_, _, _, h₁, h₂⟩ => ⟨h₁, h₂⟩, fun ⟨h₁, h₂⟩ => ⟨rfl, rfl, by omega, h₁, h₂⟩⟩
    simp only [hoverh, hoverx, hoverlast, decide_eq_true_eq]
    -- the longer one of the two goes on that far if any does, and the other one does not
    by_cases hnext : ∀ u ∈ ws, x.field < u → v ≤ u
    · simp only [eq_true hnext, and_true]
      rcases Nat.le_total h.hi.toNat x.hi.toNat with hle | hle
      · rw [Nat.min_eq_left hle] at hshared
        rw [Nat.max_eq_right hle, if_neg (by omega : ¬ v ≤ numDigits h.hi.toNat)]
        omega
      · rw [Nat.min_eq_right hle] at hshared
        rw [Nat.max_eq_left hle, if_neg (by omega : ¬ v ≤ numDigits x.hi.toNat)]
        omega
    · simp only [eq_false hnext, and_false, if_false]
  · -- no piece is narrower than the range that stood there
    have hlth : ¬ h.field < v := fun h' => hlt (hbetween v hv h')
    have hnone : ∀ r ∈ pieces w h x, ¬ r.field < v := by
      intro r hr
      obtain ⟨d, hd, rfl⟩ := List.mem_map.mp hr
      obtain ⟨hle, -, -, h₁, h₂⟩ := hc.below_of_mem hd
      have := numDigits_mono hle
      rw [piece_field h₁ h₂]
      omega
    rw [List.countP_eq_zero.mpr, List.countP_eq_zero.mpr]
    · intro r hr hover
      simp only [List.mem_cons, List.not_mem_nil, or_false] at hr
      have hover' := (of_decide_eq_true hover).2.2.1
      rcases hr with rfl | rfl
      · exact hlth hover'
      · exact hlt hover'
    · intro r hr hover
      exact hnone r hr (of_decide_eq_true hover).2.2.1

theorem countP_other {ws : List Nat} (hp : ∀ r ∈ l, r.pfx ≠ p) :
    l.countP (fun r => Overruns ws p v r) = 0 := by
  refine List.countP_eq_zero.mpr fun r hr hover => ?_
  exact hp r hr (of_decide_eq_true hover).2.1

/-- A good split keeps the condition. -/
theorem orderly_split (hc : Crossing w h x) (hs : Sorted (pre ++ h :: x :: post)) (hn : ByNumber h x)
    (hgood : Good (widths (pre ++ h :: x :: post) h.pfx) h x) :
    Orderly (pre ++ pieces w h x ++ post) ↔ Orderly (pre ++ h :: x :: post) := by
  have hlist : pre ++ h :: x :: post = pre ++ [h, x] ++ post := by simp
  refine orderly_congr (fun p u => ?_) (fun p v hv => ?_)
  · have hmiddle := @padded_pieces h x p w u hc
    rw [hlist, mem_widths, mem_widths]
    simp only [List.mem_append, or_and_right, exists_or, hmiddle]
  · rw [hlist]
    simp only [List.countP_append]
    by_cases hp : p = h.pfx
    · subst hp
      have hbetween : ∀ u ∈ widths (pre ++ [h, x] ++ post) h.pfx, h.field < u → x.field < u := by
        intro u hu hlt
        rw [← hlist] at hu
        exact no_width_between hs hc.left hn hu hlt
      rw [hlist] at hgood hv
      rw [countP_pieces hc hbetween hgood hv]
    · have hpieces : ∀ r ∈ pieces w h x, r.pfx ≠ p := by
        intro r hr
        obtain ⟨d, -, rfl⟩ := List.mem_map.mp hr
        exact fun h' => hp h'.symm
      have hranges : ∀ r ∈ [h, x], r.pfx ≠ p := by
        intro r hr
        simp only [List.mem_cons, List.not_mem_nil, or_false] at hr
        rcases hr with rfl | rfl
        · exact fun h' => hp h'.symm
        · exact fun h' => hp (h'.symm.trans hc.pfx.symm)
      rw [countP_other hpieces, countP_other hranges]

/-- Where a split is not good, the two ranges overrun one width. -/
theorem not_orderly_of_bad (hc : Crossing w h x) (hs : Sorted (pre ++ h :: x :: post)) (hn : ByNumber h x)
    (hbad : ¬ Good (widths (pre ++ h :: x :: post) h.pfx) h x) : ¬ Orderly (pre ++ h :: x :: post) := by
  unfold Good at hbad
  push Not at hbad
  obtain ⟨u, hu, hlt, hdigits⟩ := hbad
  -- the next width above `x`
  have hex : ∃ v, v ∈ widths (pre ++ h :: x :: post) h.pfx ∧ x.field < v := ⟨u, hu, hlt⟩
  obtain ⟨hv, hltv⟩ := Nat.find_spec hex
  have hleast := fun u hu => @Nat.find_min' _ _ hex u hu
  generalize Nat.find hex = v at hv hltv hleast
  have hvu := hleast u ⟨hu, hlt⟩
  have hfield : h.field ≤ x.field := by
    obtain ⟨h₁, h₂⟩ := hc.fields
    have := numDigits_mono hc.lo_le
    omega
  have hmin := numDigits_mono (Nat.min_le_left h.hi.toNat x.hi.toNat)
  have hmin' := numDigits_mono (Nat.min_le_right h.hi.toNat x.hi.toNat)
  have hoverh : Overruns (widths (pre ++ h :: x :: post) h.pfx) h.pfx v h :=
    ⟨hc.left, rfl, by omega, by omega,
      fun u hu hlt' => hleast u ⟨hu, no_width_between hs hc.left hn hu hlt'⟩⟩
  have hoverx : Overruns (widths (pre ++ h :: x :: post) h.pfx) h.pfx v x :=
    ⟨hc.right, hc.pfx.symm, hltv, by omega, fun u hu hlt' => hleast u ⟨hu, hlt'⟩⟩
  intro hord
  have hcount := orderly_iff.mp hord h.pfx v hv
  rw [List.countP_append, List.countP_cons, List.countP_cons, if_pos (decide_eq_true hoverh),
    if_pos (decide_eq_true hoverx)] at hcount
  omega

/-! ## The order behind a split -/

/-- The next range stays behind the pieces of a good split. -/
theorem pieces_le {ws : List Nat} (hc : Crossing w h x) (hgood : Good ws h x) (hle : x.Le y) (hq : Quiet x y)
    (hws : y.Padded → y.pfx = h.pfx → y.field ∈ ws) : ∀ r ∈ pieces w h x, r.Le y := by
  intro r hr
  obtain ⟨d, hd, rfl⟩ := List.mem_map.mp hr
  obtain ⟨-, -, hmin, h₁, h₂⟩ := hc.below_of_mem hd
  obtain ⟨-, hfieldx⟩ := hc.fields
  have hkind : hostrangePrefixCmp (piece h.pfx w d) y = hostrangePrefixCmp x y := by
    have hpfx : (piece h.pfx w d).pfx = x.pfx := hc.pfx
    have hs : (piece h.pfx w d).singlehost = x.singlehost := hc.right.symm
    simp only [hostrangePrefixCmp, hpfx, hs]
  have hydigits : numDigits y.lo.toNat ≤ y.field := Nat.le_max_right ..
  have hdmin := numDigits_mono hmin
  unfold Hostrange.Le at hle ⊢
  rw [hkind, piece_field h₁ h₂, (piece_bounds h₁ h₂).1]
  rcases hle with hlt | ⟨hk, hle⟩
  · exact .inl hlt
  · refine .inr ⟨hk, ?_⟩
    obtain ⟨hpfx, hsame⟩ := hostrangePrefixCmp_eq_zero_iff.mp hk
    by_cases hcomb : Combines x y
    · -- `y` begins where `x` ends, or behind it
      have hlo : ¬ y.lo.toNat < x.hi.toNat := fun hlt => hq ⟨hc.right, ⟨hk, hcomb⟩, hlt⟩
      have := numDigits_mono (by omega : d.1 ≤ y.lo.toNat)
      omega
    · have hnot := mt combines_iff.mpr hcomb
      have hpad : y.Padded := ⟨hsame.symm.trans hc.right, by omega⟩
      have := hgood y.field (hws hpad (hpfx.symm.trans hc.pfx.symm)) (by omega)
      omega

theorem ready_split (hc : Crossing w h x) (hr : Ready (pre ++ h :: x :: post))
    (hgood : Good (widths (pre ++ h :: x :: post) h.pfx) h x) (hq : (x :: post).IsChain Quiet) :
    Ready (pre ++ pieces w h x ++ post) := by
  obtain ⟨hspre, hsrest, hcross⟩ := List.pairwise_append.mp hr.sorted
  obtain ⟨-, hsx⟩ := List.pairwise_cons.mp hsrest
  obtain ⟨hx, hspost⟩ := List.pairwise_cons.mp hsx
  have hpost : ∀ r ∈ pieces w h x, ∀ y ∈ post, r.Le y := by
    cases post with
    | nil => exact fun _ _ y hy => absurd hy List.not_mem_nil
    | cons z post =>
        have hz : ∀ r ∈ pieces w h x, r.Le z :=
          pieces_le hc hgood (hx z List.mem_cons_self) (List.isChain_cons_cons.mp hq).1
            fun hpad hpfx => mem_widths.mpr ⟨z, by simp, hpad, hpfx, rfl⟩
        intro r hmem y hy
        rcases List.mem_cons.mp hy with rfl | hy
        · exact hz r hmem
        · exact (hz r hmem).trans ((List.pairwise_cons.mp hspost).1 y hy)
  have hmem : ∀ r ∈ pre ++ pieces w h x ++ post, r ∈ pre ++ h :: x :: post ∨ r ∈ pieces w h x := by
    intro r hmem
    simp only [List.mem_append, List.mem_cons] at hmem ⊢
    tauto
  refine ⟨List.pairwise_append.mpr ⟨List.pairwise_append.mpr ⟨hspre, pieces_sorted hc, ?_⟩, hspost, ?_⟩, ?_, ?_⟩
  · intro a ha r hmem
    exact (hcross a ha h List.mem_cons_self).trans (le_pieces hc r hmem)
  · intro a ha y hy
    rcases List.mem_append.mp ha with ha | ha
    · exact hcross a ha y (by simp [hy])
    · exact hpost a ha y hy
  · intro r hrmem
    rcases hmem r hrmem with hrmem | hrmem
    · exact hr.wf r hrmem
    · exact (pieces_wf hc r hrmem).1
  · intro r hrmem
    rcases hmem r hrmem with hrmem | hrmem
    · exact hr.below r hrmem
    · exact (pieces_wf hc r hrmem).2

/-- Behind a split that is not good stands a range that is below the last piece. -/
theorem below_last_piece (hc : Crossing w h x) (hr : Ready (pre ++ h :: x :: post))
    (hbad : ¬ Good (widths (pre ++ h :: x :: post) h.pfx) h x) :
    ∃ y post', post = y :: post' ∧
      ByNumber (piece h.pfx w (min h.hi.toNat x.hi.toNat, max h.hi.toNat x.hi.toNat)) y ∧
      y.lo.toNat < min h.hi.toNat x.hi.toNat := by
  unfold Good at hbad
  push Not at hbad
  obtain ⟨u, hu, hlt, hdigits⟩ := hbad
  obtain ⟨c, hcmem, ⟨hcs, hpad⟩, hpfx, rfl⟩ := mem_widths.mp hu
  obtain ⟨-, hsrest, hcross⟩ := List.pairwise_append.mp hr.sorted
  obtain ⟨hh, hsx⟩ := List.pairwise_cons.mp hsrest
  obtain ⟨hx, hspost⟩ := List.pairwise_cons.mp hsx
  have hhx := hh x List.mem_cons_self
  have hxc : hostrangePrefixCmp x c = 0 :=
    hostrangePrefixCmp_eq_zero_iff.mpr ⟨hc.pfx.symm.trans hpfx.symm, hc.right.trans hcs.symm⟩
  -- the padded range is behind `x`
  have hbehind : c ∈ post := by
    have hnot : ¬ c.Le x := by
      have hswap := hostrangePrefixCmp_swap x c
      unfold Hostrange.Le
      omega
    rcases List.mem_append.mp hcmem with hcmem | hcmem
    · exact absurd (hcross c hcmem x (by simp)) hnot
    · rcases List.mem_cons.mp hcmem with rfl | hcmem
      · exact absurd hhx hnot
      · rcases List.mem_cons.mp hcmem with rfl | hcmem
        · exact absurd (.refl c) hnot
        · exact hcmem
  cases post with
  | nil => exact absurd hbehind List.not_mem_nil
  | cons y post =>
      have hxy := hx y List.mem_cons_self
      have hyc : y.Le c := by
        rcases List.mem_cons.mp hbehind with rfl | hbehind
        · exact .refl c
        · exact (List.pairwise_cons.mp hspost).1 c hbehind
      obtain ⟨hk, hk', hf, hf'⟩ := prefixCmp_between hxy hyc hxc
      obtain ⟨hypfx, hys⟩ := hostrangePrefixCmp_eq_zero_iff.mp hk
      have hydigits : numDigits y.lo.toNat ≤ y.field := Nat.le_max_right ..
      obtain ⟨-, hfieldx⟩ := hc.fields
      obtain ⟨hlo, -, hfield⟩ := last_piece hc
      have hlow : numDigits y.lo.toNat < numDigits (min h.hi.toNat x.hi.toNat) := by
        by_contra hge
        -- then `y` is as wide as `c`, and holds no zeros, but `c` is no lower in number
        have hle' : y.lo.toNat ≤ c.lo.toNat := by
          unfold Hostrange.Le at hyc
          omega
        have := numDigits_mono hle'
        omega
      refine ⟨y, post, rfl, ⟨?_, ?_⟩, ?_⟩
      · exact hostrangePrefixCmp_eq_zero_iff.mpr ⟨hc.pfx.trans hypfx, hc.right.symm.trans hys⟩
      · rw [combines_iff, hfield, hlo]
        omega
      · by_contra hge
        have := numDigits_mono (Nat.le_of_not_lt hge)
        omega

/-! ## The loop -/

/-- The scan from the end has the outcome `out`, given enough rounds. -/
def Settles (ndebug : Bool) (hl : Hostlist) (out : Run Fault Hostlist) : Prop :=
  ∃ fuel₀, ∀ fuel ≥ fuel₀, hostlistCoalesceLoop ndebug fuel (hl.nranges - 1) hl = out

/-- What the scan leaves: the same names, in ranges below `2^31`. -/
structure Kept (hl hl' : Hostlist) : Prop where
  names : hl'.names.Perm hl.names
  nhosts : hl'.nhosts = hl.nhosts
  wf : ∀ r ∈ hl'.hr, r.Wf
  below : hl'.Below (2 ^ 31)

theorem quiet_or_last (l : List Hostrange) : l.IsChain Quiet ∨
    ∃ pre h x post, l = pre ++ h :: x :: post ∧ ¬ Quiet h x ∧ (x :: post).IsChain Quiet := by
  induction l with
  | nil => exact .inl .nil
  | cons a l ih =>
      rcases ih with hq | ⟨pre, h, x, post, rfl, hnot, hq⟩
      · cases l with
        | nil => exact .inl (.singleton a)
        | cons b l =>
            by_cases hab : Quiet a b
            · exact .inl (.cons_cons hab hq)
            · exact .inr ⟨[], a, b, l, rfl, hab, hq⟩
      · exact .inr ⟨a :: pre, h, x, post, rfl, hnot, hq⟩

theorem isChain_rewidth (hall : List.Forall₂ Hostrange.Rewidth l l') (hq : l.IsChain Quiet) :
    l'.IsChain Quiet := by
  induction hall with
  | nil => exact .nil
  | cons hr hrest ih =>
      cases hrest with
      | nil => exact .singleton _
      | cons hr' _ =>
          obtain ⟨hab, hl⟩ := List.isChain_cons_cons.mp hq
          exact .cons_cons ((hr.quiet_iff hr').mpr hab) (ih hl)

/-- How many numbers a range holds, but one. -/
def Hostrange.span (r : Hostrange) : Nat := r.hi.toNat - r.lo.toNat

theorem span_rewidth (hall : List.Forall₂ Hostrange.Rewidth l l') : l'.map Hostrange.span = l.map Hostrange.span := by
  induction hall with
  | nil => rfl
  | cons hr _ ih =>
      unfold Hostrange.span at ih ⊢
      rw [List.map_cons, List.map_cons, ih, hr.bounds.1, hr.bounds.2]

theorem pieces_descend (hc : Crossing w h x) :
    Descends Hostrange.span (pre ++ pieces w h x ++ post) (pre ++ h :: x :: post) := by
  refine divide_descends (fun d hd => ?_) rfl rfl hc.lo_le hc.lo_lt hc.wf.2.le
  obtain ⟨-, -, -, h₁, h₂⟩ := hc.below_of_mem hd
  unfold Hostrange.span
  rw [(piece_bounds h₁ h₂).1, (piece_bounds h₁ h₂).2]

/-- From an array that is not all quiet, the scan gets to the last split. -/
theorem coalesceLoop_next_split (ndebug : Bool) (hhr : hl.hr = pre ++ h :: x :: post)
    (hn : hl.nranges = hl.hr.length) (hr : Ready hl.hr) (hnot : ¬ Quiet h x) (hq : (x :: post).IsChain Quiet) :
    ∃ w h' x' post', Crossing w h' x' ∧ h.Rewidth h' ∧ x.Rewidth x' ∧ List.Forall₂ Hostrange.Rewidth post post' ∧
      ∀ out, Settles ndebug { hr := pre ++ pieces w h' x' ++ post', nhosts := hl.nhosts,
                              nranges := (pre ++ pieces w h' x' ++ post').length } out → Settles ndebug hl out := by
  have hr' := hr
  rw [hhr] at hr'
  have hrest : Ready (h :: x :: post) := hr'.suffix
  have hrestx : Ready (x :: post) := @Ready.suffix [h] _ hrest
  obtain ⟨x₁, post', hx₁, hpost, hscan⟩ := @coalesceLoop_scan x post hl (pre ++ [h]) ndebug (by rw [hhr]; simp)
    hrestx.sorted hrestx.lo_lt hq
  have hle : h.Le x₁ :=
    (Hostrange.Rewidth.le_iff (.refl h) hx₁).mpr ((List.pairwise_cons.mp hrest.sorted).1 x List.mem_cons_self)
  have hnot₁ : ¬ Quiet h x₁ := fun hq₁ => hnot ((Hostrange.Rewidth.quiet_iff (.refl h) hx₁).mp hq₁)
  have hbx : x₁.hi.toNat < 2 ^ 31 := by
    rw [hx₁.bounds.2]
    exact hrest.below x (by simp)
  obtain ⟨w, h', x', hh', hx', hc, hsplit⟩ := @coalesceLoop_split h x₁ post'
    { hl with hr := (pre ++ [h]) ++ x₁ :: post' } pre ndebug (by simp)
    (by simp only [hn, hhr, List.length_append, List.length_cons, List.length_nil, hpost.length_eq]; omega)
    ⟨hrest.wf h (by simp), hx₁.wf (hrest.wf x (by simp))⟩ ⟨hrest.below h (by simp), hbx⟩ hle hnot₁
  refine ⟨w, h', x', post', hc, hh', hx₁.trans hx', hpost, ?_⟩
  rintro out ⟨fuel₀, hout⟩
  refine ⟨fuel₀ + 1 + post.length, fun fuel hfuel => ?_⟩
  obtain ⟨k, rfl⟩ := Nat.exists_eq_add_of_le hfuel
  have hindex : hl.nranges - 1 = (pre ++ [h]).length + post.length := by
    rw [hn, hhr]
    simp only [List.length_append, List.length_cons, List.length_nil]
    omega
  have hrounds : fuel₀ + 1 + post.length + k = (fuel₀ + k + 1) + post.length := by omega
  rw [hindex, hrounds, hscan, List.length_append, List.length_singleton, hsplit]
  exact hout (fuel₀ + k) (by omega)

/-- Where all pairs are quiet, the scan comes to its end. -/
theorem settles_of_quiet (ndebug : Bool) (hn : hl.nranges = hl.hr.length) (hr : Ready hl.hr) (hne : hl.hr ≠ [])
    (hq : hl.hr.IsChain Quiet) : ∃ hl', Settles ndebug hl (.ret hl') ∧ Kept hl hl' := by
  obtain ⟨z, l, hhr⟩ := List.exists_cons_of_ne_nil hne
  rw [hhr] at hr hq
  obtain ⟨z', l', hz, hall, hscan⟩ := @coalesceLoop_scan z l hl [] ndebug hhr hr.sorted hr.lo_lt hq
  have hall' : List.Forall₂ Hostrange.Rewidth (z :: l) (z' :: l') := .cons hz hall
  have hr' := hr.rewidth hall'
  refine ⟨{ hl with hr := z' :: l' }, ⟨1 + l.length, fun fuel hfuel => ?_⟩, ?_, rfl, hr'.wf, hr'.below⟩
  · obtain ⟨k, rfl⟩ := Nat.exists_eq_add_of_le hfuel
    have hindex : hl.nranges - 1 = ([] : List Hostrange).length + l.length := by
      rw [hn, hhr]
      simp
    have hrounds : 1 + l.length + k = (k + 1) + l.length := by omega
    rw [hindex, hrounds, hscan]
    rfl
  · unfold Hostlist.names
    rw [hhr, rewidth_names hall']

/-- Behind a split that is not good, the scan runs into the last piece. -/
theorem settles_of_bad (ndebug : Bool) (hc : Crossing w h x) (hr : Ready (pre ++ h :: x :: post))
    (hbad : ¬ Good (widths (pre ++ h :: x :: post) h.pfx) h x) (hq : (x :: post).IsChain Quiet)
    (hhr : hl.hr = pre ++ pieces w h x ++ post) (hn : hl.nranges = hl.hr.length) :
    ∃ e, Settles ndebug hl (.exit e) := by
  obtain ⟨y, post', rfl, hnum, hlow⟩ := below_last_piece hc hr hbad
  obtain ⟨front, heq, -⟩ := pieces_front hc
  obtain ⟨hlo, -, -⟩ := last_piece hc
  have hkind : (piece h.pfx w (min h.hi.toNat x.hi.toNat, max h.hi.toNat x.hi.toNat)).singlehost = false := rfl
  generalize piece h.pfx w (min h.hi.toNat x.hi.toNat, max h.hi.toNat x.hi.toNat) = last at heq hnum hlo hkind
  have hwlast := pieces_wf hc last (by rw [heq]; simp)
  have hrest : Ready (y :: post') := @Ready.suffix (pre ++ [h, x]) _ (by simpa using hr)
  obtain ⟨y', l', hy, hall, hscan⟩ := @coalesceLoop_scan y post' hl (pre ++ front ++ [last]) ndebug
    (by rw [hhr, heq]; simp) hrest.sorted hrest.lo_lt hq.tail
  have hlow' : y'.lo.toNat < last.lo.toNat := by
    rw [hy.bounds.1, hlo]
    exact hlow
  have hby : y'.hi.toNat < 2 ^ 31 := by
    rw [hy.bounds.2]
    exact hrest.below y (by simp)
  have hfault := @coalesceLoop_fault last y' l' { hl with hr := pre ++ front ++ [last] ++ y' :: l' }
    (pre ++ front) ndebug (by simp) hkind ((Hostrange.Rewidth.byNumber (.refl last) hy).mpr hnum)
    ⟨hwlast.1, hy.wf (hrest.wf y (by simp))⟩ ⟨hwlast.2, hby⟩ hlow'
  refine ⟨if ndebug then .freed else .assertion, 1 + post'.length, fun fuel hfuel => ?_⟩
  obtain ⟨k, rfl⟩ := Nat.exists_eq_add_of_le hfuel
  have hindex : hl.nranges - 1 = (pre ++ front ++ [last]).length + post'.length := by
    rw [hn, hhr, heq]
    simp only [List.length_append, List.length_cons, List.length_nil]
    omega
  have hrounds : 1 + post'.length + k = (k + 1) + post'.length := by omega
  rw [hindex, hrounds, hscan, List.length_append, List.length_singleton, hfault]

/-- The scan returns, with the same names, or runs into a fault, and `Orderly` says which. -/
theorem coalesceLoop_settles (ndebug : Bool) (l : List Hostrange) : ∀ hl : Hostlist, hl.hr = l →
    hl.nranges = hl.hr.length → l ≠ [] → Ready l →
      (Orderly l ∧ ∃ hl', Settles ndebug hl (.ret hl') ∧ Kept hl hl') ∨
        (¬ Orderly l ∧ ∃ e, Settles ndebug hl (.exit e)) := by
  induction l using @descent _ Hostrange.span with
  | step l ih =>
      rintro hl rfl hn hne hr
      rcases quiet_or_last hl.hr with hq | ⟨pre, h, x, post, hhr, hnot, hq⟩
      · exact .inl ⟨orderly_of_quiet hr.sorted hq, settles_of_quiet ndebug hn hr hne hq⟩
      · obtain ⟨w, h', x', post', hc, hh', hx', hpost, hsettles⟩ :=
          coalesceLoop_next_split ndebug hhr hn hr hnot hq
        have hall : List.Forall₂ Hostrange.Rewidth hl.hr (pre ++ h' :: x' :: post') := by
          rw [hhr]
          exact List.rel_append (List.forall₂_same.mpr fun r _ => .refl r) (.cons hh' (.cons hx' hpost))
        have hr' := hr.rewidth hall
        have hq' : (x' :: post').IsChain Quiet := isChain_rewidth (.cons hx' hpost) hq
        have hnum : ByNumber h' x' := (hh'.byNumber hx').mpr (not_not.mp hnot).2.1
        by_cases hgood : Good (widths (pre ++ h' :: x' :: post') h'.pfx) h' x'
        · -- the scan goes on with an array that is as good
          have hready := ready_split hc hr' hgood hq'
          have hdesc : Descends Hostrange.span (pre ++ pieces w h' x' ++ post') hl.hr :=
            (pieces_descend hc).congr (span_rewidth hall)
          have hsame := (orderly_split hc hr'.sorted hnum hgood).trans (orderly_rewidth hall)
          have hnonempty : pre ++ pieces w h' x' ++ post' ≠ [] := by
            simp [pieces, divide]
          rcases ih _ hdesc { hr := pre ++ pieces w h' x' ++ post', nhosts := hl.nhosts,
                              nranges := (pre ++ pieces w h' x' ++ post').length } rfl rfl hnonempty hready with
            ⟨hord, hl', hset, hkept⟩ | ⟨hnord, e, hset⟩
          · refine .inl ⟨hsame.mp hord, hl', hsettles _ hset, ?_, hkept.nhosts, hkept.wf, hkept.below⟩
            refine hkept.names.trans ?_
            have hmiddle : hl.names = (pre ++ h' :: x' :: post').flatMap Hostrange.names :=
              (rewidth_names hall).symm
            rw [hmiddle]
            unfold Hostlist.names
            simp only [List.flatMap_append, List.flatMap_cons, List.append_assoc]
            have hperm := (pieces_names hc).append_right (post'.flatMap Hostrange.names)
            rw [List.append_assoc] at hperm
            exact hperm.append_left _
          · exact .inr ⟨fun hord => hnord (hsame.mpr hord), e, hsettles _ hset⟩
        · have hnord := not_orderly_of_bad hc hr'.sorted hnum hgood
          obtain ⟨e, hset⟩ := @settles_of_bad h' x' pre post'
            { hr := pre ++ pieces w h' x' ++ post', nhosts := hl.nhosts,
              nranges := (pre ++ pieces w h' x' ++ post').length } w ndebug hc hr' hgood hq' rfl rfl
          exact .inr ⟨fun hord => hnord ((orderly_rewidth hall).mpr hord), e, hsettles _ hset⟩

/-! ## The whole sort -/

theorem neighbours_of_getElem? {i : Nat} (hleft : l[i]? = some h) (hright : l[i + 1]? = some x) :
    ∃ pre post, l = pre ++ h :: x :: post ∧ pre.length = i := by
  induction l generalizing i with
  | nil => simp at hleft
  | cons a l ih =>
      cases i with
      | zero =>
          obtain rfl : a = h := by simpa using hleft
          cases l with
          | nil => simp at hright
          | cons b l =>
              obtain rfl : b = x := by simpa using hright
              exact ⟨[], l, rfl, rfl⟩
      | succ i =>
          obtain ⟨pre, post, rfl, rfl⟩ := ih (by simpa using hleft) (by simpa using hright)
          exact ⟨a :: pre, post, rfl, rfl⟩

/-- Collapsing changes no name. -/
theorem hostlistCollapseLoop_names (i : Nat) (hw : ∀ r ∈ hl.hr, r.Wf) (hb : hl.Below (2 ^ 31)) :
    (hostlistCollapseLoop i hl).names = hl.names ∧ (hostlistCollapseLoop i hl).nhosts = hl.nhosts := by
  induction i generalizing hl with
  | zero => exact ⟨rfl, rfl⟩
  | succ i ih =>
      rw [hostlistCollapseLoop]
      split
      case h_2 => exact ih hw hb
      case h_1 hprev hnext hleft hright =>
        split
        case isFalse => exact ih hw hb
        case isTrue hmeet =>
          split
          case h_2 => exact ih hw hb
          case h_1 h' x' hcomb =>
            obtain ⟨pre, post, hhr, rfl⟩ := neighbours_of_getElem? hleft hright
            obtain ⟨w, heq, -, hpad, hpadx⟩ := hostrangeWidthCombine_some hcomb
            obtain ⟨rfl, rfl⟩ := Prod.mk.inj heq
            have hwp := hw hprev (by simp [hhr])
            have hwn := hw hnext (by simp [hhr])
            have hbp := hb hprev (by simp [hhr])
            have hbn := hb hnext (by simp [hhr])
            obtain ⟨hpfx, hkind⟩ := hostrangePrefixCmp_eq_zero_iff.mp hmeet.1
            obtain ⟨hsn, hnumber⟩ := next_of_tail hwn (by have := ULONG_MAX_toNat; omega) hmeet.2
            have hsp : hprev.singlehost = false := hkind.trans hsn
            have hwp' : Hostrange.Wf { hprev with width := w } := ⟨hwp.le, by simp [hsp]⟩
            have hwn' : Hostrange.Wf { hnext with width := w } := ⟨hwn.le, by simp [hsn]⟩
            have hmerge := names_merge hwp' hwn' hpfx hsp hsn rfl hnumber
            rw [Hostrange.names_width hpad, Hostrange.names_width hpadx] at hmerge
            simp only at hmerge ⊢
            have hdeleted : hostlistDeleteRange { hl with
                hr := (hl.hr.set pre.length { hprev with width := w, hi := hnext.hi }).set (pre.length + 1)
                  { hnext with width := w } } (pre.length + 1) =
                ⟨pre ++ { hprev with width := w, hi := hnext.hi } :: post, hl.nranges - 1, hl.nhosts⟩ := by
              unfold hostlistDeleteRange
              simp only
              rw [hhr, set_neighbours, eraseIdx_second]
            rw [hdeleted]
            have hnames : (⟨pre ++ { hprev with width := w, hi := hnext.hi } :: post, hl.nranges - 1,
                hl.nhosts⟩ : Hostlist).names = hl.names := by
              unfold Hostlist.names
              simp [hhr, hmerge]
            rw [← hnames]
            have hmem : ∀ r ∈ pre ++ { hprev with width := w, hi := hnext.hi } :: post,
                r ∈ hl.hr ∨ r = { hprev with width := w, hi := hnext.hi } := by
              intro r hr
              rw [hhr]
              simp only [List.mem_append, List.mem_cons] at hr ⊢
              tauto
            refine ih ?_ ?_
            · intro r hr
              rcases hmem r hr with hr | rfl
              · exact hw r hr
              · exact ⟨by have := hwp.le; have := hwn.le; simp only; omega, by simp [hsp]⟩
            · intro r hr
              rcases hmem r hr with hr | rfl
              · exact hb r hr
              · exact hbn

/-- `hostlist_sort` ends with the same names and the same `nhosts` if and only if at most one
range overruns each padded width. -/
theorem hostlist_sort_iff (ndebug : Bool) {qsort : List Hostrange → List Hostrange} (hw : hl.Wf)
    (hb : hl.Below (2 ^ 31)) (hq : Qsorted hl.hr (qsort hl.hr)) :
    (∃ hl' fuel₀, (∀ fuel ≥ fuel₀, hostlistSort ndebug qsort fuel hl = .ret hl') ∧
        hl'.names.Perm hl.names ∧ hl'.nhosts = hl.nhosts) ↔
      Orderly hl.hr := by
  by_cases hone : hl.nranges ≤ 1
  · have hret (fuel : Nat) : hostlistSort ndebug qsort fuel hl = .ret hl := by
      unfold hostlistSort
      rw [if_pos hone]
      rfl
    refine ⟨fun _ => ?_, fun _ => ⟨hl, 0, fun fuel _ => hret fuel, .refl _, rfl⟩⟩
    intro c hc v hv
    rw [hw.nranges] at hone
    exact le_trans List.countP_le_length hone
  · have hord := hq.inOrder hw.ranges hb
    have hready : Ready (qsort hl.hr) := ⟨hord.sorted, hord.wf, hord.below⟩
    have hsame : Orderly (qsort hl.hr) ↔ Orderly hl.hr := by
      obtain ⟨l', hall, hperm⟩ := hord.rewidth
      exact (orderly_perm hperm).trans (orderly_rewidth hall)
    have hnonempty : qsort hl.hr ≠ [] := by
      intro h0
      have hlength := hord.length
      rw [h0, ← hw.nranges] at hlength
      simp at hlength
      omega
    have hsort (fuel : Nat) : hostlistSort ndebug qsort fuel hl =
        hostlistCoalesce ndebug fuel { hl with hr := qsort hl.hr } := by
      unfold hostlistSort
      rw [if_neg hone]
    rw [← hsame]
    rcases coalesceLoop_settles ndebug (qsort hl.hr) { hl with hr := qsort hl.hr } rfl
        (by simp only [hw.nranges, hord.length]) hnonempty hready with
      ⟨horderly, hl', ⟨fuel₀, hset⟩, hkept⟩ | ⟨hnot, e, fuel₀, hset⟩
    · obtain ⟨hnames, hnhosts⟩ := hostlistCollapseLoop_names (hl'.nranges - 1) hkept.wf hkept.below
      refine ⟨fun _ => horderly, fun _ => ⟨hostlistCollapse hl', fuel₀, fun fuel hfuel => ?_, ?_, ?_⟩⟩
      · rw [hsort, hostlistCoalesce, hset fuel hfuel]
        rfl
      · rw [hostlistCollapse, hnames]
        exact hkept.names.trans hord.names
      · rw [hostlistCollapse, hnhosts]
        exact hkept.nhosts
    · refine ⟨?_, fun horderly => absurd horderly hnot⟩
      rintro ⟨hl', fuel₁, hret, -⟩
      have hboth := hret (max fuel₀ fuel₁) (le_max_right _ _)
      rw [hsort, hostlistCoalesce, hset _ (le_max_left _ _)] at hboth
      cases hboth

/-- Two ranges that overlap and one that is padded to the width they stay below. -/
theorem hostlist_sort_overlap :
    ∃ hl' fuel₀, (∀ fuel ≥ fuel₀, hostlistSort false (List.insertionSort fun a b => cmp a b ≤ 0) fuel
        ⟨[hostrangeCreate "n".toList 3 12 1, hostrangeCreate "n".toList 1 4 1, hostrangeCreate "n".toList 1 5 2],
          3, 19⟩ = .ret hl') ∧
      hl'.names.Perm (⟨[hostrangeCreate "n".toList 3 12 1, hostrangeCreate "n".toList 1 4 1,
        hostrangeCreate "n".toList 1 5 2], 3, 19⟩ : Hostlist).names ∧ hl'.nhosts = 19 := by
  refine (@hostlist_sort_iff
    ⟨[hostrangeCreate "n".toList 3 12 1, hostrangeCreate "n".toList 1 4 1, hostrangeCreate "n".toList 1 5 2], 3, 19⟩
    false (List.insertionSort fun a b => cmp a b ≤ 0) ⟨?_, rfl, by decide⟩ ?_ ⟨⟨_, .refl, by decide⟩, by decide⟩).mpr
    (by decide)
  · intro hr hmem
    simp only [List.mem_cons, List.not_mem_nil, or_false] at hmem
    rcases hmem with rfl | rfl | rfl <;> exact hostrangeCreate_wf (by decide)
  · intro hr hmem
    simp only [List.mem_cons, List.not_mem_nil, or_false] at hmem
    rcases hmem with rfl | rfl | rfl <;> decide

/-- The shared numbers end with `n10`, which does not go in front of `n01`: the assertion fails,
and without it a range is read that was destroyed. -/
theorem hostlist_sort_padded :
    hostlistCreate [] "n[1-10,2-10,01-05]".toList = .ret (some ⟨[hostrangeCreate "n".toList 1 10 1,
        hostrangeCreate "n".toList 2 10 1, hostrangeCreate "n".toList 1 5 2], 3, 24⟩) ∧
      Qsorted [hostrangeCreate "n".toList 1 10 1, hostrangeCreate "n".toList 2 10 1,
        hostrangeCreate "n".toList 1 5 2] [hostrangeCreate "n".toList 1 10 1,
        hostrangeCreate "n".toList 2 10 1, hostrangeCreate "n".toList 1 5 2] ∧
      (hostlistSort false id 4 ⟨[hostrangeCreate "n".toList 1 10 1, hostrangeCreate "n".toList 2 10 1,
        hostrangeCreate "n".toList 1 5 2], 3, 24⟩ = .exit .assertion ∧
      hostlistSort true id 4 ⟨[hostrangeCreate "n".toList 1 10 1, hostrangeCreate "n".toList 2 10 1,
        hostrangeCreate "n".toList 1 5 2], 3, 24⟩ = .exit .freed) ∧
      ∀ ndebug, ¬ ∃ hl' fuel₀, ∀ fuel ≥ fuel₀, hostlistSort ndebug id fuel ⟨[hostrangeCreate "n".toList 1 10 1,
        hostrangeCreate "n".toList 2 10 1, hostrangeCreate "n".toList 1 5 2], 3, 24⟩ = .ret hl' := by
  have hq : Qsorted [hostrangeCreate "n".toList 1 10 1, hostrangeCreate "n".toList 2 10 1,
      hostrangeCreate "n".toList 1 5 2] [hostrangeCreate "n".toList 1 10 1,
      hostrangeCreate "n".toList 2 10 1, hostrangeCreate "n".toList 1 5 2] := ⟨⟨_, .refl, .refl _⟩, by decide⟩
  refine ⟨by decide +kernel, hq, ⟨by decide +kernel, by decide +kernel⟩, ?_⟩
  rintro ndebug ⟨hl', fuel₀, hret⟩
  have hord := hq.inOrder
    (by intro hr hmem
        simp only [List.mem_cons, List.not_mem_nil, or_false] at hmem
        rcases hmem with rfl | rfl | rfl <;> exact hostrangeCreate_wf (by decide))
    (by intro hr hmem
        simp only [List.mem_cons, List.not_mem_nil, or_false] at hmem
        rcases hmem with rfl | rfl | rfl <;> decide)
  rcases coalesceLoop_settles ndebug _ ⟨_, 3, 24⟩ rfl rfl (List.cons_ne_nil _ _)
      ⟨hord.sorted, hord.wf, hord.below⟩ with ⟨horderly, -⟩ | ⟨-, e, fuel₁, hset⟩
  · exact absurd horderly (by decide)
  · have hboth := hret (max fuel₁ fuel₀) (le_max_right _ _)
    unfold hostlistSort hostlistCoalesce at hboth
    rw [if_neg (by decide)] at hboth
    simp only [id] at hboth
    rw [hset _ (le_max_left _ _)] at hboth
    cases hboth

end Pdsh
