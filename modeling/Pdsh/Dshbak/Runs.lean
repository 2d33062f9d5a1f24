import Pdsh.Dshbak.Chains

/-!
# Runs of numbers

Which chains the numbers of a prefix make is said here without the order in which `comp` goes
through them: a chain begins with each number that has none before it (`starts`), and goes on as
long as the next number is there and is put behind the last one (`runFrom`). The texts of a chain
are one number after the other, padded to the width of the first (`Joined.texts`).
-/

namespace Pdsh.Dshbak

open Lib Lib.Decimal

variable {P : Perl} {e : Entry} {l l' c : List CStr} {a m n : CStr} {chains : List (List CStr)}

instance (l : List CStr) (m n : CStr) : Decidable (Joins l m n) := by
  unfold Joins
  infer_instance

/-- The numbers with none before them. -/
def starts (l : List CStr) : List CStr := l.filter fun n => ∀ m ∈ l, ¬ Before m n

/-- The numbers from `a` on, each put behind the one before. -/
def runFrom (l : List CStr) : Nat → CStr → List CStr
  | 0, _ => []
  | fuel + 1, a =>
      let next := pad a.length (value a + 1)
      if next ∈ l ∧ Joins l a next then a :: runFrom l fuel next else [a]

/-- The run that begins with `a`. -/
def run (l : List CStr) (a : CStr) : List CStr := runFrom l l.length a

/-! ## The order does not matter -/

theorem joins_perm (h : l.Perm l') : Joins l m n ↔ Joins l' m n := by
  unfold Joins
  simp only [h.mem_iff]

theorem starts_perm (h : l.Perm l') : (starts l).Perm (starts l') := by
  unfold starts
  simp only [h.mem_iff]
  exact h.filter _

theorem runFrom_perm (h : l.Perm l') (fuel : Nat) (a : CStr) : runFrom l fuel a = runFrom l' fuel a := by
  induction fuel generalizing a with
  | zero => rfl
  | succ fuel ih =>
      rw [runFrom, runFrom]
      simp only [h.mem_iff, joins_perm h, ih]

theorem run_perm (h : l.Perm l') (a : CStr) : run l a = run l' a := by
  unfold run
  rw [runFrom_perm h, h.length_eq]

/-! ## The chains are the runs -/

/-- A member of a chain is the first one, or it has one before it. -/
theorem isChain_mem_behind {R : CStr → CStr → Prop} (h : c.IsChain R) (hn : n ∈ c) :
    c.head? = some n ∨ ∃ m ∈ c, R m n := by
  induction c with
  | nil => cases hn
  | cons a c ih =>
      rcases List.mem_cons.mp hn with rfl | hn
      · exact .inl rfl
      · right
        rcases ih h.tail hn with hhead | ⟨m, hm, hr⟩
        · obtain ⟨c', rfl⟩ := List.head?_eq_some_iff.mp hhead
          exact ⟨a, by simp, (List.isChain_cons_cons.mp h).1⟩
        · exact ⟨m, List.mem_cons_of_mem a hm, hr⟩

theorem Folded.mem (hf : Folded P l e chains) (hc : c ∈ chains) (hn : n ∈ c) : n ∈ l :=
  hf.perm.mem_iff.mp (List.mem_flatten_of_mem hc hn)

/-- Two chains with a number in common are one. -/
theorem Folded.eq_of_mem {c' : List CStr} (hf : Folded P l e chains) (hl : Numbers l)
    (hc : c ∈ chains) (hc' : c' ∈ chains) (hn : n ∈ c) (hn' : n ∈ c') : c = c' := by
  have hnodup := hf.perm.nodup_iff.mpr hl.nodup
  have hdisj := (List.nodup_flatten.mp hnodup).2
  by_contra hne
  have hsymm : Std.Symm (@List.Disjoint CStr) := ⟨fun _ _ h => h.symm⟩
  exact hdisj.forall hc hc' hne hn hn'

/-- A number that is put behind one of a chain is in that chain. -/
theorem Joined.closed (hf : Folded P l e chains) (hl : Numbers l) (hj : Joined l chains)
    (hc : c ∈ chains) (hm : m ∈ c) (hn : n ∈ l) (h : Joins l m n) : n ∈ c := by
  obtain ⟨c', hc', hn'⟩ := List.mem_flatten.mp (hf.perm.mem_iff.mpr hn)
  have hml := hf.mem hc hm
  rcases isChain_mem_behind (hj.chain c' hc') hn' with hhead | ⟨m', hm', h'⟩
  · exact absurd h.1 (hj.heads c' hc' n hhead m hml)
  · have hml' := hf.mem hc' hm'
    have heq := Joins.unique (hl.digits m hml) (hl.digits m' hml') hml hml' h h'
    rw [hf.eq_of_mem hl hc hc' hm (heq ▸ hm')]
    exact hn'

/-- The numbers of a chain grow. -/
theorem isChain_value (h : c.IsChain (Joins l)) : c.Pairwise fun m n => value m < value n := by
  have hlt : c.IsChain fun m n => value m < value n :=
    h.imp fun m n hj => by
      have := hj.1.1
      omega
  have htrans : IsTrans CStr fun m n => value m < value n := ⟨fun _ _ _ => Nat.lt_trans⟩
  exact hlt.pairwise

theorem Joined.runFrom_eq (hf : Folded P l e chains) (hl : Numbers l) (hj : Joined l chains)
    (hc : c ∈ chains) {pre t : List CStr} (heq : c = pre ++ a :: t) {fuel : Nat}
    (hfuel : t.length < fuel) : runFrom l fuel a = a :: t := by
  have hchain := hj.chain c hc
  have hdigits : ∀ n ∈ c, Digits n := fun n hn => hl.digits n (hf.mem hc hn)
  induction t generalizing pre a fuel with
  | nil =>
      obtain ⟨fuel, rfl⟩ := Nat.exists_eq_succ_of_ne_zero (Nat.ne_of_gt hfuel)
      rw [runFrom]
      refine if_neg ?_
      rintro ⟨hn, hjoins⟩
      -- one more number would be in the chain, above all others
      have hmem := hj.closed hf hl hc (by simp [heq]) hn hjoins
      have hlt := isChain_value hchain
      have hv := hjoins.1.1
      rw [heq, List.mem_append, List.mem_singleton] at hmem
      rw [heq, List.pairwise_append] at hlt
      rcases hmem with hmem | hmem
      · have := hlt.2.2 _ hmem a (by simp)
        omega
      · rw [hmem] at hv
        omega
  | cons b t ih =>
      obtain ⟨fuel, rfl⟩ := Nat.exists_eq_succ_of_ne_zero (Nat.ne_of_gt (Nat.zero_lt_of_lt hfuel))
      have hjoins : Joins l a b := by
        rw [heq, List.isChain_append] at hchain
        exact (List.isChain_cons_cons.mp hchain.2.1).1
      have hnext := hjoins.1.next (hdigits a (by simp [heq])) (hdigits b (by simp [heq]))
      have hbl := hf.mem hc (show b ∈ c by simp [heq])
      rw [runFrom]
      simp only [← hnext]
      rw [if_pos ⟨hbl, hjoins⟩, ih (heq.trans (List.append_cons pre a (b :: t)))
        (Nat.lt_of_succ_lt_succ hfuel)]

theorem Joined.run_eq (hf : Folded P l e chains) (hl : Numbers l) (hj : Joined l chains)
    (hc : c ∈ chains) (ha : c.head? = some a) : run l a = c := by
  obtain ⟨t, rfl⟩ := List.head?_eq_some_iff.mp ha
  refine hj.runFrom_eq hf hl hc (List.nil_append _).symm ?_
  have hsub := (List.sublist_flatten_of_mem hc).length_le
  rw [hf.perm.length_eq, List.length_cons] at hsub
  omega

/-- A number has none before it exactly when it is the first one of a chain. -/
theorem Joined.starts_iff (hf : Folded P l e chains) (hj : Joined l chains) (hc : c ∈ chains)
    (hn : n ∈ c) : (∀ m ∈ l, ¬ Before m n) ↔ c.head? = some n := by
  constructor
  · intro h
    refine (isChain_mem_behind (hj.chain c hc) hn).resolve_right ?_
    rintro ⟨m, hm, hjoins⟩
    exact h m (hf.mem hc hm) hjoins.1
  · exact fun hhead m hm => hj.heads c hc n hhead m hm

/-- There are as many chains as there are numbers with none before them. -/
theorem Joined.starts_length (hf : Folded P l e chains) (hj : Joined l chains) :
    (starts l).length = chains.length := by
  have hone : ∀ c ∈ chains, (c.filter fun n => ∀ m ∈ l, ¬ Before m n).length = 1 := by
    intro c hc
    obtain ⟨a, t, rfl⟩ := List.exists_cons_of_ne_nil (hf.ne_nil c hc)
    have hgrow := List.pairwise_cons.mp (isChain_value (hj.chain _ hc))
    have ha := (hj.starts_iff hf hc List.mem_cons_self).mpr rfl
    have ht : (t.filter fun n => ∀ m ∈ l, ¬ Before m n) = [] := by
      rw [List.filter_eq_nil_iff]
      intro n hn hstart
      have hhead := (hj.starts_iff hf hc (List.mem_cons_of_mem a hn)).mp (by simpa using hstart)
      obtain rfl : a = n := Option.some.inj hhead
      exact Nat.lt_irrefl _ (hgrow.1 a hn)
    rw [List.filter_cons_of_pos (by simpa using ha), ht]
    rfl
  unfold starts
  rw [← (hf.perm.filter _).length_eq, List.filter_flatten, List.length_flatten, List.map_map]
  have hmap := List.map_congr_left hone
  simp only [Function.comp_def]
  rw [hmap]
  simp

/-! ## The texts of a run -/

/-- A run is one number after the other, in the width of the first. -/
theorem run_texts {t : List CStr} (hd : ∀ n ∈ a :: t, Digits n) (h : (a :: t).IsChain (Joins l)) :
    a :: t = (List.range' (value a) (t.length + 1)).map (pad a.length) := by
  induction t generalizing a with
  | nil =>
      have ha := hd a (by simp)
      simp [pad_value ha.1 ha.2]
  | cons b t ih =>
      rw [List.isChain_cons_cons] at h
      have ha := hd a (by simp)
      have hb := ih (fun n hn => hd n (List.mem_cons_of_mem a hn)) h.2
      have hnext := h.1.1.next ha (hd b (by simp))
      -- the width of `b` is that of `a`, or what its number needs
      have hwidth : ∀ k, value b ≤ k → pad b.length k = pad a.length k := by
        intro k hk
        refine pad_congr (padding_eq_mono hk ?_)
        have hlen := congrArg List.length hnext
        rw [length_pad, h.1.1.1] at hlen
        rw [hlen]
        unfold padding
        omega
      have hrest : (List.range' (value b) (t.length + 1)).map (pad b.length) =
          (List.range' (value b) (t.length + 1)).map (pad a.length) := by
        refine List.map_congr_left fun k hk => hwidth k ?_
        rw [List.mem_range'_1] at hk
        exact hk.1
      rw [List.length_cons, List.range'_succ, List.map_cons, pad_value ha.1 ha.2, h.1.1.1, ← hrest, ← hb]

/-- The last number of a run. -/
theorem run_last {t : List CStr} (h : (a :: t).IsChain (Joins l)) :
    value ((a :: t).getLast (by simp)) = value a + t.length := by
  induction t generalizing a with
  | nil => rfl
  | cons b t ih =>
      rw [List.isChain_cons_cons] at h
      have hb := ih h.2
      have hv := h.1.1.1
      rw [List.getLast_cons (by simp), hb, List.length_cons]
      omega

end Pdsh.Dshbak
