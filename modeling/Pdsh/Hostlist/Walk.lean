import Pdsh.Hostlist.Enumerate
import Pdsh.Hostlist.Remove
import Pdsh.Lib.Cursor

/-!
# Removing hosts on a walk

An iterator is a cursor in the list of the ranges, `hostlist_next` is its step, and
`hostlist_remove` takes out the host it passed last (`Tracks`). When that was the only host of its
range, the iterator goes back by one range and keeps its depth, which is 0: it now stands on the
first host of the range before, whose other hosts `hostlist_next` returns once more.
-/

namespace Pdsh

open Lib Lib.Decimal

variable {hl hl' : Hostlist} {hr c : Hostrange} {i : Iterator} {q rest l : List CStr} {x : CStr} {n : UInt64}
  {S : Nat → Bool} {j : Nat}

/-! ## The hosts of a list -/

/-- A host of a range: the prefix and what stands behind it. -/
structure Entry where
  pfx : CStr
  digits : CStr

/-- The name of the host. -/
def Entry.name (e : Entry) : CStr := e.pfx ++ e.digits

/-- The name as `hostlist_next` writes it, with at most 14 digits. -/
def Entry.shown (e : Entry) : CStr := e.pfx ++ e.digits.take 14

def Hostrange.entries (hr : Hostrange) : List Entry := hr.digits.map (Entry.mk hr.pfx)

def Hostlist.entries (hl : Hostlist) : List Entry := hl.hr.flatMap Hostrange.entries

theorem Hostrange.entries_name (hr : Hostrange) : hr.entries.map Entry.name = hr.names := by
  rw [Hostrange.names_eq_digits, Hostrange.entries, List.map_map]
  rfl

theorem Hostlist.entries_name (hl : Hostlist) : hl.entries.map Entry.name = hl.names := by
  rw [Hostlist.entries, Hostlist.names, List.map_flatMap]
  simp only [Hostrange.entries_name]

theorem Hostrange.length_entries (hr : Hostrange) : hr.entries.length = hr.names.length := by
  rw [← hr.entries_name, List.length_map]

theorem Hostlist.length_entries (hl : Hostlist) : hl.entries.length = hl.names.length := by
  rw [← hl.entries_name, List.length_map]

theorem Hostrange.pfx_of_mem {e : Entry} (h : e ∈ hr.entries) : e.pfx = hr.pfx := by
  obtain ⟨d, -, rfl⟩ := List.mem_map.mp h
  rfl

/-- The prefix and the names tell the hosts of a range. -/
theorem Hostrange.entries_of_names {l : List Entry} (hpfx : ∀ e ∈ l, e.pfx = hr.pfx)
    (h : hr.names = l.map Entry.name) : hr.entries = l := by
  have hsame : l.map Entry.name = (l.map Entry.digits).map (hr.pfx ++ ·) := by
    rw [List.map_map]
    refine List.map_congr_left fun e he => ?_
    show e.pfx ++ e.digits = hr.pfx ++ e.digits
    rw [hpfx e he]
  rw [hr.names_eq_digits, hsame] at h
  have hdigits := List.map_injective_iff.mpr (fun _ _ => List.append_cancel_left) h
  rw [Hostrange.entries, hdigits, List.map_map]
  refine (List.map_congr_left fun e he => ?_).trans (List.map_id l)
  show Entry.mk hr.pfx e.digits = e
  rw [← hpfx e he]

theorem Hostrange.Wf.entries_ne_nil (hw : hr.Wf) : hr.entries ≠ [] := by
  rw [← List.length_pos_iff, hr.length_entries]
  exact hw.length_pos

/-- Every number is printed with at most 14 digits. -/
def Hostlist.Narrow (hl : Hostlist) : Prop :=
  ∀ hr ∈ hl.hr, hr.singlehost = false → hr.width ≤ 14 ∧ hr.hi.toNat < 10 ^ 14

instance (hl : Hostlist) : Decidable hl.Narrow := inferInstanceAs (Decidable (∀ hr ∈ hl.hr, _))

theorem Hostrange.length_digits_le (hnarrow : hr.singlehost = false → hr.width ≤ 14 ∧ hr.hi.toNat < 10 ^ 14)
    {d : CStr} (hd : d ∈ hr.digits) : d.length ≤ 14 := by
  unfold Hostrange.digits at hd
  cases hs : hr.singlehost with
  | true =>
      rw [hs, if_pos rfl, List.mem_singleton] at hd
      rw [hd]
      exact Nat.zero_le 14
  | false =>
      rw [hs, if_neg Bool.false_ne_true] at hd
      obtain ⟨n, hn, rfl⟩ := List.mem_map.mp hd
      rw [List.mem_range'_1] at hn
      obtain ⟨hwidth, hhi⟩ := hnarrow hs
      rw [length_pad]
      exact Nat.max_le.mpr ⟨hwidth, (numDigits_le_iff (by decide)).mpr (by omega)⟩

/-- `hostlist_next` writes the names of a list in full exactly when its numbers have at most 14 digits. -/
theorem Hostlist.shown_iff (hw : hl.Wf) : hl.entries.map Entry.shown = hl.names ↔ hl.Narrow := by
  have hfull (e : Entry) : e.shown = e.name ↔ e.digits.length ≤ 14 := by
    rw [Entry.shown, Entry.name, List.append_cancel_left_eq, List.take_eq_self_iff]
  rw [← hl.entries_name, List.map_inj_left]
  constructor
  · -- the last number of a range is the longest, and shows its width
    intro h hr hmem hs
    have hdigits : ∀ d ∈ hr.digits, d.length ≤ 14 := by
      intro d hd
      have he : Entry.mk hr.pfx d ∈ hl.entries := List.mem_flatMap.mpr ⟨hr, hmem, List.mem_map_of_mem hd⟩
      exact (hfull _).mp (h _ he)
    have hle := (hw.ranges hr hmem).le
    refine ⟨?_, hi_lt_of_digits (hw.ranges hr hmem) hdigits⟩
    have hlast : pad hr.width hr.hi.toNat ∈ hr.digits := by
      unfold Hostrange.digits
      rw [hs, if_neg Bool.false_ne_true]
      apply List.mem_map_of_mem
      rw [List.mem_range'_1]
      omega
    have hlen := hdigits _ hlast
    rw [length_pad] at hlen
    exact Nat.le_trans (Nat.le_max_left _ _) hlen
  · intro h e he
    obtain ⟨hr, hmem, he⟩ := List.mem_flatMap.mp he
    obtain ⟨d, hd, rfl⟩ := List.mem_map.mp he
    exact (hfull _).mpr (Hostrange.length_digits_le (h hr hmem) hd)

/-! ## A range without one host -/

/-- A part of a range. -/
structure Part (c : Hostrange) (names : List CStr) (x : Hostrange) : Prop where
  wf : x.Wf
  le : x.hi.toNat ≤ c.hi.toNat
  pfx : x.pfx = c.pfx
  names : x.names = names

theorem Part.copy (h : Part c l hr) : Part c l (hostrangeCopy hr) := by
  refine ⟨h.wf.copy, ?_, (hostrangeCopy_pfx hr).trans h.pfx, ?_⟩
  · rw [(hostrangeCopy_bounds h.wf).2]
    exact h.le
  · rw [hostrangeCopy_names, h.names]

theorem Part.entries {l : List Entry} (h : Part c (l.map Entry.name) hr) (hl : ∀ e ∈ l, e.pfx = c.pfx) :
    hr.entries = l :=
  Hostrange.entries_of_names (fun e he => (hl e he).trans h.pfx.symm) h.names

/-- `hostrange_delete_host` cuts a range in two, makes it shorter, or leaves nothing. -/
theorem hostrangeDeleteHost_cases (hw : c.Wf) (hmax : c.hi.toNat < ULONG_MAX.toNat)
    (hnames : c.names = q ++ x :: rest) (hn : n.toNat = c.lo.toNat + q.length) :
    (q ≠ [] ∧ rest ≠ [] ∧ Part c q (hostrangeDeleteHost c n).1 ∧
      ∃ new, (hostrangeDeleteHost c n).2 = some new ∧ Part c rest new) ∨
    ((q = [] ↔ rest ≠ []) ∧ (hostrangeDeleteHost c n).2 = none ∧
      hostrangeEmpty (hostrangeDeleteHost c n).1 = false ∧ Part c (q ++ rest) (hostrangeDeleteHost c n).1) ∨
    (q = [] ∧ rest = [] ∧ (hostrangeDeleteHost c n).2 = none ∧
      hostrangeEmpty (hostrangeDeleteHost c n).1 = true) := by
  have hle := hw.le
  have hlen := congrArg List.length hnames
  rw [List.length_append, List.length_cons] at hlen
  by_cases hq : q = []
  · -- the first host
    subst hq
    have hlo : n = c.lo := UInt64.toNat_inj.mp hn
    have hdel : hostrangeDeleteHost c n = ({ c with lo := c.lo + 1 }, none) := by
      rw [hostrangeDeleteHost, if_pos hlo]
    have hshrunk := shrunk_lo hw hmax
    rw [hnames, List.nil_append, List.tail_cons] at hshrunk
    rw [hdel]
    by_cases hrest : rest = []
    · exact .inr (.inr ⟨rfl, hrest, rfl, hshrunk.empty.mpr hrest⟩)
    · refine .inr (.inl ⟨iff_of_true rfl hrest, rfl, ?_, ?_⟩)
      · rw [← Bool.not_eq_true, hshrunk.empty]
        exact hrest
      · exact ⟨hshrunk.wf hrest, hshrunk.below hrest, rfl, hshrunk.names hrest⟩
  · have hpos := List.length_pos_iff.mpr hq
    have hs : c.singlehost = false := by
      by_contra hs
      rw [Hostrange.names_single (by simpa using hs)] at hlen
      simp only [List.length_singleton] at hlen
      omega
    have hblock := Hostrange.names_block hs
    have hsize : c.names.length = c.hi.toNat + 1 - c.lo.toNat := by rw [hblock, length_block]
    have hlo : n ≠ c.lo := by
      rintro rfl
      omega
    by_cases hrest : rest = []
    · -- the last host
      subst hrest
      rw [List.length_nil] at hlen
      have hhi : n = c.hi := UInt64.toNat_inj.mp (by omega)
      have hdel : hostrangeDeleteHost c n = ({ c with hi := c.hi - 1 }, none) := by
        rw [hostrangeDeleteHost, if_neg hlo, if_pos hhi]
      have hshrunk := shrunk_hi hw hmax hs
      rw [hnames, List.dropLast_concat] at hshrunk
      rw [hdel]
      refine .inr (.inl ⟨iff_of_false hq (fun h => h rfl), rfl, ?_, ?_⟩)
      · rw [← Bool.not_eq_true, hshrunk.empty]
        exact hq
      · rw [List.append_nil]
        exact ⟨hshrunk.wf hq, hshrunk.below hq, rfl, hshrunk.names hq⟩
    · have hrpos := List.length_pos_iff.mpr hrest
      have hhi : n ≠ c.hi := by
        rintro rfl
        omega
      rcases hostrangeDeleteHost_spec hw hmax hs (k := q.length) (by omega) hn with
        ⟨hnone, -⟩ | ⟨new, hsome, hcat, hparts⟩
      · rw [hostrangeDeleteHost, if_neg hlo, if_neg hhi] at hnone
        cases hnone
      · have hfst : (hostrangeDeleteHost c n).1 = { c with hi := n - 1 } := by
          rw [hostrangeDeleteHost, if_neg hlo, if_neg hhi]
        have hpred : (n - 1).toNat = n.toNat - 1 := toNat_pred (by omega)
        have hfirst : (hostrangeDeleteHost c n).1.names.length = q.length := by
          rw [hfst, Hostrange.names_block (by exact hs), length_block]
          dsimp only
          omega
        have herase : (q ++ x :: rest).eraseIdx q.length = q ++ rest := by
          rw [List.eraseIdx_append_of_length_le (Nat.le_refl _), Nat.sub_self, List.eraseIdx_cons_zero]
        rw [hnames, herase] at hcat
        obtain ⟨hone, htwo⟩ := List.append_inj hcat hfirst
        obtain ⟨hwf, hbelow⟩ := hparts _ List.mem_cons_self
        obtain ⟨hwf', hbelow'⟩ := hparts new (List.mem_cons_of_mem _ List.mem_cons_self)
        refine .inl ⟨hq, hrest, ⟨hwf, hbelow, ?_, hone⟩, new, hsome, hwf', hbelow', ?_, htwo⟩
        · rw [hfst]
        · rw [hostrangeDeleteHost, if_neg hlo, if_neg hhi] at hsome
          cases hsome
          exact hostrangeCopy_pfx c

/-! ## The iterator as a cursor -/

variable {s s' e : Cursor Entry} {a : Entry} {w : List Entry}

/-- The iterator stands at the place of the cursor. -/
inductive Place (hl : Hostlist) (i : Iterator) (s : Cursor Entry) : Prop
  | none (hhr : hl.hr = []) (hi : i = hostlistIteratorCreate) (hs : s = Cursor.start [])
  | range (pre : List Hostrange) (c : Hostrange) (post : List Hostrange) (hhr : hl.hr = pre ++ c :: post)
      (hidx : i.idx = pre.length) (hdepth : i.depth + 1 = Int32.ofNat s.past.length)
      (hbefore : s.before = (pre.map Hostrange.entries).reverse) (hhere : s.past ++ s.rest = c.entries)
      (hafter : s.after = post.map Hostrange.entries)

/-- The list and the iterator are what a cursor in the list of the ranges says. -/
structure Tracks (hl : Hostlist) (i : Iterator) (s : Cursor Entry) : Prop where
  wf : hl.Wf
  below : hl.Below ULONG_MAX.toNat
  place : Place hl i s

theorem Tracks.entries (h : Tracks hl i s) : hl.entries = s.content := by
  cases h.place with
  | none hhr hi hs =>
      rw [hs, Hostlist.entries, hhr]
      rfl
  | range pre c post hhr hidx hdepth hbefore hhere hafter =>
      rw [Cursor.content, Cursor.behind, Cursor.ahead, hbefore, hafter, List.reverse_reverse, List.append_assoc,
        ← List.append_assoc s.past, hhere, Hostlist.entries, hhr, List.flatMap_append, List.flatMap_cons,
        List.flatMap_def, List.flatMap_def]

theorem Tracks.names (h : Tracks hl i s) : hl.names = s.content.map Entry.name := by
  rw [← hl.entries_name, h.entries]

theorem fresh_depth : (-1 : Int32) + 1 = Int32.ofNat 0 := by decide

/-- A fresh iterator. -/
theorem tracks_create (hw : hl.Wf) (hb : hl.Below ULONG_MAX.toNat) :
    Tracks hl hostlistIteratorCreate (Cursor.start (hl.hr.map Hostrange.entries)) := by
  refine ⟨hw, hb, ?_⟩
  cases hhr : hl.hr with
  | nil => exact .none hhr rfl rfl
  | cons c post => exact .range [] c post hhr rfl fresh_depth rfl rfl rfl

/-- A name as `hostlist_next` writes it. -/
theorem shown_at {q rest : List Entry} (hentries : c.entries = q ++ a :: rest) :
    c.pfx ++ (c.digitsAt q.length).take 14 = a.shown := by
  have hlt : q.length < c.names.length := by
    rw [← c.length_entries, hentries, List.length_append, List.length_cons]
    omega
  have hget : c.entries[q.length]? = some a := by
    rw [hentries, List.getElem?_append_right (Nat.le_refl _), Nat.sub_self, List.getElem?_cons_zero]
  rw [Hostrange.entries, List.getElem?_map, Hostrange.getElem?_digits hlt] at hget
  obtain rfl := Option.some.inj hget
  rfl

/-- `hostlist_next` is the step of the cursor. -/
theorem Tracks.next (h : Tracks hl i s) (hlt : s.past.length < 2 ^ 31) :
    (s.next = none ∧ (hostlistNext hl i).1 = none) ∨
      ∃ a s', s.next = some (a, s') ∧ (hostlistNext hl i).1 = some a.shown ∧
        Tracks hl (hostlistNext hl i).2 s' := by
  have hn := h.wf.nranges
  cases h.place with
  | none hhr hi hs =>
      left
      rw [hhr, List.length_nil] at hn
      rw [hs, hostlistNext, iteratorAdvance, hn]
      exact ⟨rfl, rfl⟩
  | range pre c post hhr hidx hdepth hbefore hhere hafter =>
      have hc : c ∈ hl.hr := by
        rw [hhr]
        exact List.mem_append_right _ List.mem_cons_self
      have hwc := h.wf.ranges c hc
      have hone := int32_ofNat_add s.past.length 1
      cases hrest : s.rest with
      | cons a rest =>
          -- inside the range
          rw [hrest] at hhere
          have hname := shown_at hhere.symm
          have hinside := hostlistNext_inside hn hhr hwc hidx hdepth hlt (by
            rw [← c.length_entries, ← hhere, List.length_append, List.length_cons]
            omega)
          rw [hname] at hinside
          refine .inr ⟨a, ⟨s.before, s.past ++ [a], rest, s.after⟩, ?_, by rw [hinside], h.wf, h.below, ?_⟩
          · rw [Cursor.next, hrest]
          · rw [hinside]
            refine .range pre c post hhr rfl ?_ hbefore ?_ hafter
            · rw [List.length_append, List.length_singleton]
              exact hone
            · rw [List.append_assoc]
              exact hhere
      | nil =>
          rw [hrest, List.append_nil] at hhere
          have hend : c.names.length ≤ s.past.length := by rw [hhere, c.length_entries]
          cases post with
          | nil =>
              refine .inl ⟨?_, hostlistNext_last hn hhr hwc hidx hdepth hlt hend⟩
              rw [Cursor.next, hrest, hafter]
              rfl
          | cons d post =>
              -- on to the next range
              have hd : d ∈ hl.hr := by
                rw [hhr]
                exact List.mem_append_right _ (List.mem_cons_of_mem _ List.mem_cons_self)
              have hwd := h.wf.ranges d hd
              obtain ⟨a, rest, hentries⟩ := List.exists_cons_of_ne_nil hwd.entries_ne_nil
              have hname := shown_at (q := []) hentries
              have hnew := hostlistNext_after hn hhr hwc hwd hidx hdepth hlt hend
              rw [List.length_nil] at hname
              rw [hname] at hnew
              refine .inr ⟨a, ⟨s.past :: s.before, [a], rest, post.map Hostrange.entries⟩, ?_, by rw [hnew],
                h.wf, h.below, ?_⟩
              · rw [Cursor.next, hrest, hafter, List.map_cons, hentries]
              · rw [hnew]
                refine .range (pre ++ [c]) d post ?_ ?_ rfl ?_ hentries.symm rfl
                · rw [hhr, List.append_assoc]
                  rfl
                · rw [List.length_append, List.length_singleton]
                · rw [hbefore, hhere, List.map_append, List.map_singleton, List.reverse_append,
                    List.reverse_singleton]
                  rfl

/-- The number `hostlist_remove` deletes. -/
theorem number_removed (hw : c.Wf) (hnames : c.names = q ++ x :: rest) (hlt : q.length < 2 ^ 31) :
    (c.lo + ulongOfInt (Int32.ofNat q.length)).toNat = c.lo.toNat + q.length := by
  have hlen := congrArg List.length hnames
  rw [List.length_append, List.length_cons] at hlen
  cases hs : c.singlehost with
  | true =>
      rw [Hostrange.names_single hs, List.length_singleton] at hlen
      have hzero : q.length = 0 := by omega
      have hnone : ulongOfInt (Int32.ofNat 0) = 0 := by decide
      rw [hzero, hnone, UInt64.add_zero]
      rfl
  | false => exact c.number_at hw hs hlt (by omega)

/-- `hostlist_remove` puts the parts that are left of a range in its place. -/
theorem hostlistRemove_parts {pre post : List Hostrange} (mid : List Hostrange) (h : Tracks hl i s)
    (hhr : hl.hr = pre ++ c :: post) (hnames : c.names = q ++ x :: rest) (hmid : ∀ y ∈ mid, ∃ l, Part c l y)
    (hcat : mid.flatMap Hostrange.names = q ++ rest) :
    Hostlist.Wf ⟨pre ++ mid ++ post, (pre ++ mid ++ post).length, hl.nhosts - 1⟩ ∧
      Hostlist.Below ULONG_MAX.toNat ⟨pre ++ mid ++ post, (pre ++ mid ++ post).length, hl.nhosts - 1⟩ := by
  have hparts : ∀ y ∈ mid, y.Wf ∧ y.hi.toNat ≤ c.hi.toNat := by
    intro y hy
    obtain ⟨l, hpart⟩ := hmid y hy
    exact ⟨hpart.wf, hpart.le⟩
  have hcount : (mid.flatMap Hostrange.names).length + 1 = c.names.length := by
    rw [hcat, hnames]
    simp only [List.length_append, List.length_cons]
    omega
  have hremoved : Removed hl _ ⟨pre ++ mid ++ post, (pre ++ mid ++ post).length, hl.nhosts - 1⟩ :=
    removed_replace pre post h.wf hhr hparts hcount rfl rfl rfl
  exact ⟨hremoved.wf, hremoved.below _ h.below⟩

/-- What `hostlist_remove` does to a list and an iterator on range `c`. -/
theorem hostlistRemove_eq {pre post : List Hostrange} (hw : hl.Wf) (hhr : hl.hr = pre ++ c :: post)
    (hidx : i.idx = pre.length) :
    hostlistRemove hl i =
      match hostrangeDeleteHost c (c.lo + ulongOfInt i.depth) with
      | (part, some new) =>
          (⟨pre ++ [part, hostrangeCopy new] ++ post, (pre ++ [part, hostrangeCopy new] ++ post).length,
            hl.nhosts - 1⟩, ⟨pre.length + 1, -1⟩)
      | (part, none) =>
          if hostrangeEmpty part then
            (⟨pre ++ [] ++ post, (pre ++ [] ++ post).length, hl.nhosts - 1⟩, shiftIterator i pre.length)
          else
            (⟨pre ++ [part] ++ post, (pre ++ [part] ++ post).length, hl.nhosts - 1⟩,
              { i with depth := i.depth - 1 }) := by
  have hget : hl.hr[pre.length]? = some c := by rw [hhr]; simp
  have hlen : hl.nranges = (pre ++ c :: post).length := by rw [hw.nranges, hhr]
  unfold hostlistRemove
  rw [hidx, hget]
  dsimp only
  rw [hhr, storeRange_mid, hlen]
  rcases hostrangeDeleteHost c (c.lo + ulongOfInt i.depth) with ⟨part, new⟩
  cases new with
  | some new => simp [hostlistInsertRange, insertIdx_mid, Nat.add_assoc]
  | none =>
      dsimp only
      split
      · simp [hostlistDeleteRange, List.eraseIdx_append_of_length_le]
      · simp

/-- `hostlist_remove` takes out the host the cursor passed last. -/
theorem Tracks.remove {q : List Entry} (h : Tracks hl i s) (hsound : s.Sound) (hpast : s.past = q ++ [a])
    (hlt : q.length < 2 ^ 31) : Tracks (hostlistRemove hl i).1 (hostlistRemove hl i).2 s.remove := by
  cases h.place with
  | none hhr hi hs =>
      rw [hs] at hpast
      exact absurd hpast.symm (by simp [Cursor.start])
  | range pre c post hhr hidx hdepth hbefore hhere hafter =>
      have hwc : c.Wf := h.wf.ranges c (by rw [hhr]; exact List.mem_append_right _ List.mem_cons_self)
      have hmax : c.hi.toNat < ULONG_MAX.toNat :=
        h.below c (by rw [hhr]; exact List.mem_append_right _ List.mem_cons_self)
      have hentries : c.entries = q ++ a :: s.rest := by
        rw [← hhere, hpast, List.append_assoc]
        rfl
      have hnames : c.names = q.map Entry.name ++ a.name :: s.rest.map Entry.name := by
        rw [← c.entries_name, hentries, List.map_append, List.map_cons]
      have hpfx : ∀ b ∈ q, b.pfx = c.pfx := fun b hb =>
        Hostrange.pfx_of_mem (by rw [hentries]; exact List.mem_append_left _ hb)
      have hpfx' : ∀ b ∈ s.rest, b.pfx = c.pfx := fun b hb =>
        Hostrange.pfx_of_mem (by rw [hentries]; exact List.mem_append_right _ (List.mem_cons_of_mem _ hb))
      -- the number that is deleted is that of the host passed last
      have hat : i.depth = Int32.ofNat q.length := by
        have hadd := int32_ofNat_add q.length 1
        rw [hpast, List.length_append, List.length_singleton, ← hadd] at hdepth
        exact (Int32.add_left_inj _).mp hdepth
      have hnum := number_removed hwc hnames (by rw [List.length_map]; exact hlt)
      rw [List.length_map, ← hat, ← List.length_map Entry.name] at hnum
      have hremove := hostlistRemove_eq h.wf hhr hidx
      rcases hdel : hostrangeDeleteHost c (c.lo + ulongOfInt i.depth) with ⟨part, new⟩
      have hcases := hostrangeDeleteHost_cases hwc hmax hnames hnum
      rw [hdel] at hremove hcases
      simp only [ne_eq, List.map_eq_nil_iff, ← List.map_append] at hcases
      rcases hcases with ⟨hq, hrest, hpart, new, rfl, hnew⟩ | ⟨hone, rfl, hfull, hpart⟩ | ⟨hq, hrest, rfl, hempty⟩
      · -- cut in two
        have hcut : s.remove = ⟨q :: s.before, [], s.rest, s.after⟩ := by
          rcases Cursor.remove_cases hsound hpast with
            ⟨-, -, heq⟩ | ⟨hone, -⟩ | ⟨hnil, -⟩ | ⟨hnil, -⟩
          · exact heq
          · exact absurd (hone.mpr hrest) hq
          · exact absurd hnil hq
          · exact absurd hnil hq
        dsimp only at hremove
        rw [hremove, hcut]
        have hmid : ∀ y ∈ [part, hostrangeCopy new], ∃ l, Part c l y := by
          intro y hy
          rcases List.mem_pair.mp hy with rfl | rfl
          · exact ⟨_, hpart⟩
          · exact ⟨_, hnew.copy⟩
        obtain ⟨hwf, hbelow⟩ := hostlistRemove_parts _ h hhr hnames hmid (by simp [hpart.names, hnew.names])
        refine ⟨hwf, hbelow, .range (pre ++ [part]) (hostrangeCopy new) post ?_ ?_ fresh_depth ?_ ?_ hafter⟩
        · simp
        · simp
        · simp [hbefore, hpart.entries hpfx]
        · exact (hnew.copy.entries hpfx').symm
      · -- shorter
        have hless : s.remove = ⟨s.before, q, s.rest, s.after⟩ := by
          rcases Cursor.remove_cases hsound hpast with
            ⟨hq, hrest, -⟩ | ⟨-, heq⟩ | ⟨hq, hrest, -⟩ | ⟨hq, hrest, -⟩
          · exact absurd (hone.mpr hrest) hq
          · exact heq
          · exact absurd hrest (hone.mp hq)
          · exact absurd hrest (hone.mp hq)
        dsimp only at hremove hfull hpart
        rw [hfull, if_neg Bool.false_ne_true] at hremove
        rw [hremove, hless]
        have hmid : ∀ y ∈ [part], ∃ l, Part c l y := by
          intro y hy
          rw [List.mem_singleton.mp hy]
          exact ⟨_, hpart⟩
        have hboth : ∀ b ∈ q ++ s.rest, b.pfx = c.pfx := by
          intro b hb
          rcases List.mem_append.mp hb with hb | hb
          · exact hpfx b hb
          · exact hpfx' b hb
        obtain ⟨hwf, hbelow⟩ := hostlistRemove_parts _ h hhr hnames hmid (by simp [hpart.names])
        refine ⟨hwf, hbelow, .range pre part post ?_ hidx ?_ hbefore (hpart.entries hboth).symm hafter⟩
        · simp
        · show i.depth - 1 + 1 = _
          rw [Int32.sub_add_cancel, hat]
      · -- gone
        dsimp only at hremove hempty
        rw [hempty, if_pos rfl] at hremove
        rw [hremove]
        obtain ⟨hwf, hbelow⟩ := hostlistRemove_parts [] h hhr hnames (fun y hy => absurd hy List.not_mem_nil)
          (by rw [hq, hrest]; rfl)
        refine ⟨hwf, hbelow, ?_⟩
        rcases Cursor.remove_cases hsound hpast with
          ⟨hne, -⟩ | ⟨hone, -⟩ | ⟨-, -, hnil, heq⟩ | ⟨-, -, b, bs, before, hcons, heq⟩
        · exact absurd hq hne
        · exact absurd hrest (hone.mp hq)
        · -- there is none in front: the iterator starts afresh
          have hpre : pre = [] := by
            rw [hbefore, List.reverse_eq_nil_iff, List.map_eq_nil_iff] at hnil
            exact hnil
          subst hpre
          have hshift : shiftIterator i 0 = hostlistIteratorCreate := by
            unfold shiftIterator
            rw [hidx]
            rfl
          rw [heq, hafter]
          show Place ⟨post, post.length, hl.nhosts - 1⟩ (shiftIterator i 0) _
          rw [hshift]
          cases post with
          | nil => exact .none rfl rfl rfl
          | cons d post => exact .range [] d post rfl rfl fresh_depth rfl rfl rfl
        · -- the cursor turns back to the range in front, with the depth it had
          rw [hbefore] at hcons
          have hmap := congrArg List.reverse hcons
          rw [List.reverse_reverse, List.reverse_cons] at hmap
          obtain ⟨pre', last, rfl, hpre, hlast⟩ := List.map_eq_append_iff.mp hmap
          obtain ⟨d, rfl, hd⟩ := List.map_eq_singleton_iff.mp hlast
          have hshift : shiftIterator i (pre' ++ [d]).length = ⟨pre'.length, i.depth⟩ := by
            unfold shiftIterator
            rw [hidx, if_pos (Nat.le_refl _), List.length_append, List.length_singleton,
              if_pos (Nat.le_add_left 1 _), Nat.add_sub_cancel]
          rw [heq, hshift]
          refine .range pre' d post (by simp) rfl ?_ ?_ hd.symm hafter
          · show i.depth + 1 = Int32.ofNat 1
            rw [hat, hq]
            rfl
          · rw [hpre, List.reverse_reverse]

/-! ## Walks -/

/-- A walk with `hostlist_next` from call `j` on, with a `hostlist_remove` after the calls of `S`:
the hosts that are returned and the list that is left. -/
def walkRemoving (S : Nat → Bool) : (fuel : Nat) → (j : Nat) → Hostlist → Iterator → Proc (List CStr × Hostlist)
  | 0, _, _, _ => .hang
  | fuel + 1, j, hl, i =>
      match hostlistNext hl i with
      | (none, _) => .ret ([], hl)
      | (some host, i) => do
          let removed := if S j then hostlistRemove hl i else (hl, i)
          let walked ← walkRemoving S fuel (j + 1) removed.1 removed.2
          pure (host :: walked.1, walked.2)

/-- One call, and the removal behind it. -/
theorem Tracks.step (h : Tracks hl i s) (hsound : s.Sound) (hwithin : s.Within (2 ^ 31)) (S : Nat → Bool) (j : Nat) :
    (s.next = none ∧ (hostlistNext hl i).1 = none) ∨
      ∃ a s', s.next = some (a, s') ∧ hostlistNext hl i = (some a.shown, (hostlistNext hl i).2) ∧
        ∃ s'', (s'' = if S j then s'.remove else s') ∧ s''.Sound ∧ s''.Within (2 ^ 31) ∧
          Tracks (if S j then hostlistRemove hl (hostlistNext hl i).2 else (hl, (hostlistNext hl i).2)).1
            (if S j then hostlistRemove hl (hostlistNext hl i).2 else (hl, (hostlistNext hl i).2)).2 s'' := by
  rcases h.next hwithin.past with hstop | ⟨a, s', hnext, hsome, htracks⟩
  · exact .inl hstop
  · obtain ⟨hsound', hpast, -, -⟩ := Cursor.next_some hsound hnext
    have hwithin' := hwithin.next hnext
    refine .inr ⟨a, s', hnext, Prod.ext hsome rfl, _, rfl, ?_⟩
    cases hS : S j with
    | false =>
        simp only [Bool.false_eq_true, if_false]
        exact ⟨hsound', hwithin', htracks⟩
    | true =>
        simp only [if_true]
        have hsplit := (List.dropLast_append_getLast hpast).symm
        refine ⟨(Cursor.remove_spec hsound' hsplit).1, hwithin'.remove hsound' hsplit,
          htracks.remove hsound' hsplit ?_⟩
        have hlt := hwithin'.past
        rw [List.length_dropLast]
        omega

/-- A walk that comes to its end is a walk of the cursor. -/
theorem walk_of_walkRemoving (h : Tracks hl i s) (hsound : s.Sound) (hwithin : s.Within (2 ^ 31)) {fuel : Nat}
    (hret : walkRemoving S fuel j hl i = .ret (l, hl')) :
    ∃ w e, Cursor.Walk S j s w e ∧ l = w.map Entry.shown ∧ hl'.names = e.content.map Entry.name := by
  induction fuel generalizing hl i s j l with
  | zero => cases hret
  | succ fuel ih =>
      unfold walkRemoving at hret
      rcases h.step hsound hwithin S j with
        ⟨hstop, hnone⟩ | ⟨a, s', hnext, hsome, s'', hs'', hsound', hwithin', htracks⟩
      · split at hret
        · cases hret
          exact ⟨[], s, .stop hstop, rfl, h.names⟩
        · rename_i host i' heq
          rw [heq] at hnone
          cases hnone
      · rw [hsome] at hret
        obtain ⟨walked, hwalked, hpair⟩ := Run.bind_eq_ret_iff.mp hret
        cases hpair
        obtain ⟨w, e, hwalk, hshown, hnames⟩ := ih htracks hsound' hwithin' hwalked
        refine ⟨a :: w, e, ?_, by rw [hshown, List.map_cons], hnames⟩
        subst hs''
        cases hS : S j with
        | false =>
            rw [hS] at hwalk
            exact .keep hnext hS hwalk
        | true =>
            rw [hS] at hwalk
            exact .drop hnext hS hwalk

/-- A walk from behind a host is a walk from in front of it, with one more call. -/
theorem walkRemoving_call {names : List CStr} (h : Tracks hl i s) (hsound : s.Sound) (hwithin : s.Within (2 ^ 31))
    (hnext : s.next = some (a, s')) (hmore : ∀ hl' i' s'', (s'' = if S j then s'.remove else s') → s''.Sound →
      s''.Within (2 ^ 31) → Tracks hl' i' s'' → ∃ fuel left,
        walkRemoving S fuel (j + 1) hl' i' = .ret (w.map Entry.shown, left) ∧ left.names = names) :
    ∃ fuel left, walkRemoving S fuel j hl i = .ret ((a :: w).map Entry.shown, left) ∧ left.names = names := by
  rcases h.step hsound hwithin S j with
    ⟨hstop, -⟩ | ⟨a', t, hnext', hsome, s'', hs'', hsound', hwithin', htracks⟩
  · rw [hnext] at hstop
    cases hstop
  · rw [hnext] at hnext'
    cases hnext'
    obtain ⟨fuel, left, hret, hnames⟩ := hmore _ _ s'' hs'' hsound' hwithin' htracks
    refine ⟨fuel + 1, left, ?_, hnames⟩
    unfold walkRemoving
    rw [hsome]
    dsimp only
    rw [hret]
    rfl

/-- Each walk of the cursor is one of the iterator. -/
theorem walkRemoving_of_walk (h : Tracks hl i s) (hsound : s.Sound) (hwithin : s.Within (2 ^ 31))
    (hwalk : Cursor.Walk S j s w e) :
    ∃ fuel hl', walkRemoving S fuel j hl i = .ret (w.map Entry.shown, hl') ∧
      hl'.names = e.content.map Entry.name := by
  induction hwalk generalizing hl i with
  | stop hstop =>
      rcases h.step hsound hwithin S 0 with ⟨-, hnone⟩ | ⟨a, s', hnext, -⟩
      · refine ⟨1, hl, ?_, h.names⟩
        unfold walkRemoving
        split
        · rfl
        · rename_i host i' heq
          rw [heq] at hnone
          cases hnone
      · rw [hnext] at hstop
        cases hstop
  | keep hnext hS _ ih =>
      refine walkRemoving_call h hsound hwithin hnext ?_
      intro hl' i' s'' hs'' hsound' hwithin' htracks
      rw [hS] at hs''
      subst hs''
      exact ih htracks hsound' hwithin'
  | drop hnext hS _ ih =>
      refine walkRemoving_call h hsound hwithin hnext ?_
      intro hl' i' s'' hs'' hsound' hwithin' htracks
      rw [hS] at hs''
      subst hs''
      exact ih htracks hsound' hwithin'

/-- The walk returns each host of the list exactly once, in order, and leaves the others in order. -/
def WalksOnce (S : Nat → Bool) (hl : Hostlist) : Prop :=
  ∃ fuel hl', walkRemoving S fuel 0 hl hostlistIteratorCreate = .ret (hl.names, hl') ∧
    hl'.names = Cursor.kept S 0 hl.names

/-- The ranges as chunks of hosts. -/
theorem chunks_eq (hl : Hostlist) :
    (hl.hr.map Hostrange.entries).flatten = hl.entries ∧
      (hl.hr.map Hostrange.entries).map (List.map Entry.name) = hl.hr.map Hostrange.names := by
  refine ⟨List.flatMap_def.symm, ?_⟩
  rw [List.map_map]
  exact List.map_congr_left fun hr _ => hr.entries_name

theorem chunks_ne_nil (hw : hl.Wf) : ∀ c ∈ hl.hr.map Hostrange.entries, c ≠ [] := by
  intro c hc
  obtain ⟨hr, hmem, rfl⟩ := List.mem_map.mp hc
  exact (hw.ranges hr hmem).entries_ne_nil

/-- Removing the hosts at the positions of `S` on a walk goes well exactly when the names are written in full
and the iterator nowhere turns back. -/
theorem walk_removing_iff (hw : hl.Wf) (hb : hl.Below ULONG_MAX.toNat)
    (hs : ∀ hr ∈ hl.hr, hr.names.length < 2 ^ 31) (S : Nat → Bool) :
    WalksOnce S hl ↔ hl.Narrow ∧ ∀ j, ¬ Cursor.TurnsBack (hl.hr.map Hostrange.names) S j := by
  have htracks := tracks_create hw hb
  have hne := chunks_ne_nil hw
  have hsound := Cursor.start_sound hne
  obtain ⟨hflat, hchunks⟩ := chunks_eq hl
  have hwithin : (Cursor.start (hl.hr.map Hostrange.entries)).Within (2 ^ 31) := by
    refine Cursor.start_within (by decide) ?_
    intro c hc
    obtain ⟨hr, hmem, rfl⟩ := List.mem_map.mp hc
    rw [hr.length_entries]
    exact hs hr hmem
  simp only [← hchunks, Cursor.turnsBack_map]
  rw [← Cursor.walk_once_iff hne]
  constructor
  · rintro ⟨fuel, hl', hret, -⟩
    obtain ⟨w, e, hwalk, hshown, -⟩ := walk_of_walkRemoving htracks hsound hwithin hret
    -- as many hosts are returned as there are, so none comes twice
    have hlen : w.length = hl.entries.length := by
      rw [hl.length_entries, hshown, List.length_map]
    have hle : w.length ≤ (hl.hr.map Hostrange.entries).flatten.length := by rw [hflat, hlen]
    obtain ⟨rfl, -⟩ := hwalk.once hne hle
    rw [hflat] at hshown
    exact ⟨(Hostlist.shown_iff hw).mp hshown.symm, _, e, hwalk, hle⟩
  · rintro ⟨hnarrow, w, e, hwalk, hle⟩
    obtain ⟨rfl, hleft⟩ := hwalk.once hne hle
    obtain ⟨fuel, hl', hret, hcontent⟩ := walkRemoving_of_walk htracks hsound hwithin hwalk
    rw [hflat] at hret hleft
    rw [(Hostlist.shown_iff hw).mpr hnarrow] at hret
    refine ⟨fuel, hl', hret, ?_⟩
    rw [hcontent, hleft, Cursor.kept_map, hl.entries_name]

/-- `foo[1-3],bar`. -/
def fooAndBar : Hostlist := ⟨[⟨"foo".toList, 1, 3, 1, false⟩, ⟨"bar".toList, 0, 0, 0, true⟩], 2, 4⟩

theorem fooAndBar_wf : fooAndBar.Wf := by
  refine ⟨?_, rfl, by decide⟩
  intro hr hmem
  rcases List.mem_pair.mp hmem with rfl | rfl
  · exact ⟨by decide, fun hs => nomatch hs⟩
  · exact ⟨by decide, fun _ => ⟨rfl, rfl⟩⟩

theorem fooAndBar_below : fooAndBar.Below ULONG_MAX.toNat := by
  unfold Hostlist.Below
  decide

/-- Without `foo2`, the last host that is kept has none in front of it. -/
theorem walk_removing_two : WalksOnce (fun j => j = 1 ∨ j = 3) fooAndBar := by
  refine (walk_removing_iff fooAndBar_wf fooAndBar_below (by decide) _).mpr ⟨by decide, ?_⟩
  rintro j ⟨hS, -, -, k, hk, hkept, hall, hb, hprev⟩
  rcases of_decide_eq_true hS with rfl | rfl
  · have hzero : k = 0 := by omega
    subst hzero
    exact hb (Cursor.boundary_zero _)
  · -- `foo3` is the last that is kept
    have hlast : k = 2 := by
      by_contra hne
      have htaken := hall 2 (by omega) (by omega)
      exact absurd htaken (by decide)
    subst hlast
    exact absurd hprev (by decide)

theorem walkRemoving_mono {fuel : Nat} {r : List CStr × Hostlist} (h : walkRemoving S fuel j hl i = .ret r)
    (more : Nat) : walkRemoving S (fuel + more) j hl i = .ret r := by
  induction fuel generalizing j hl i r with
  | zero => cases h
  | succ fuel ih =>
      rw [Nat.add_right_comm]
      unfold walkRemoving at h ⊢
      split at h
      · exact h
      · obtain ⟨walked, hwalked, hr⟩ := Run.bind_eq_ret_iff.mp h
        exact Run.bind_eq_ret_iff.mpr ⟨walked, ih hwalked, hr⟩

/-- Removing `bar` puts the iterator back on `foo1`. -/
theorem walk_removing_again : ¬ WalksOnce (fun j => j = 3) fooAndBar := by
  rintro ⟨fuel, hl', hret, -⟩
  have hagain : walkRemoving (fun j => j = 3) 7 0 fooAndBar hostlistIteratorCreate =
      .ret (["foo1", "foo2", "foo3", "bar", "foo2", "foo3"].map String.toList,
        ⟨[⟨"foo".toList, 1, 3, 1, false⟩], 1, 3⟩) := by decide
  have hone := walkRemoving_mono hret 7
  rw [Nat.add_comm, walkRemoving_mono hagain fuel] at hone
  obtain ⟨hnames, -⟩ := Prod.mk.inj (Run.ret.inj hone)
  exact absurd hnames (by decide)

end Pdsh
