import Pdsh.Hostlist.Piece
import Pdsh.Lib.Simulation

/-!
# A host list is a list of names

The abstract machine keeps plain lists of names and the commands on them:
append, copy, remove the last, remove the first, erase at a position, count.
The concrete one keeps host lists and calls the functions of `hostlist.c`. One
legal command keeps the two in step (`step_refines`), so every sequence does.

A program has several lists at a time, so a state is an array of them, and a
command names the lists it works on; a new list goes to the end.
-/

namespace Pdsh

open Lib Lib.Decimal Lib.Simulation

/-- The public commands on host lists. -/
inductive Op where
  | create (slack str : CStr)
  | push (i : Nat) (slack str : CStr)
  | pushHost (i : Nat) (str : CStr)
  | pushList (i j : Nat)
  | copy (i : Nat)
  | pop (i : Nat)
  | shift (i : Nat)
  | deleteNth (i : Nat) (n : Int32)
  | count (i : Nat)
deriving DecidableEq, Repr

/-- What a command answers. -/
inductive Answer where
  | null
  | done
  | int (n : Int)
  | name (name : Option CStr)
deriving DecidableEq, Repr

/-- A command on one list of the state. -/
def onList {α : Type} (st : List α) (i : Nat) (f : α → Proc (α × Answer)) :
    Proc (List α × Answer) :=
  match st[i]? with
  | none => pure (st, .null)
  | some l => do
      let r ← f l
      pure (st.set i r.1, r.2)

/-- The concrete machine: the functions of `hostlist.c`. -/
def Op.step : Op → List Hostlist → Proc (List Hostlist × Answer)
  | .create slack str, st => do
      let hl ← hostlistCreate slack str
      match hl with
      | none => pure (st, .null)
      | some hl => pure (st ++ [hl], .done)
  | .push i slack str, st => onList st i fun hl => do
      let r ← hostlistPush slack hl str
      pure (r.2, .int r.1.toInt)
  | .pushHost i str, st => onList st i fun hl => pure (hostlistPushHost hl str, .int 1)
  | .pushList i j, st =>
      match st[i]?, st[j]? with
      | some h1, some h2 =>
          let r := hostlistPushList h1 h2
          pure ((st.set i r.1).set j r.2.1, .done)
      | _, _ => pure (st, .null)
  | .copy i, st =>
      match st[i]? with
      | none => pure (st, .null)
      | some hl => pure (st ++ [hostlistCopy hl], .done)
  | .pop i, st => onList st i fun hl => pure ((hostlistPop hl).2, .name (hostlistPop hl).1)
  | .shift i, st => onList st i fun hl => pure ((hostlistShift hl).2, .name (hostlistShift hl).1)
  | .deleteNth i n, st => onList st i fun hl => pure (hostlistDeleteNth hl n, .int 1)
  | .count i, st => onList st i fun hl => pure (hl, .int (hostlistCount hl).toInt)

/-- The abstract machine: the same commands on lists of names. -/
def Op.absStep : Op → List (List CStr) → Proc (List (List CStr) × Answer)
  | .create slack str, st => do
      let names ← expand slack str
      match names with
      | none => pure (st, .null)
      | some names => pure (st ++ [names], .done)
  | .push i slack str, st => onList st i fun l => do
      let names ← expand slack str
      match names with
      | none => pure (l, .int 0)
      | some names => pure (l ++ names, .int names.length)
  | .pushHost i str, st => onList st i fun l => pure (l ++ [str], .int 1)
  | .pushList i j, st =>
      match st[i]?, st[j]? with
      | some l1, some l2 => pure (st.set i (l1 ++ l2), .done)
      | _, _ => pure (st, .null)
  | .copy i, st =>
      match st[i]? with
      | none => pure (st, .null)
      | some l => pure (st ++ [l], .done)
  | .pop i, st => onList st i fun l => pure (l.dropLast, .name l.getLast?)
  | .shift i, st => onList st i fun l => pure (l.tail, .name l.head?)
  | .deleteNth i n, st => onList st i fun l => pure (l.eraseIdx n.toInt.toNat, .int 1)
  | .count i, st => onList st i fun l => pure (l, .int l.length)

/-- What a command may be given: numbers of brackets below `2^32`, two different
lists, a position inside the list. -/
def Op.Given : Op → List (List CStr) → Prop
  | .create _ str, _ => NumbersBelow (2 ^ 32) str
  | .push _ _ str, _ => NumbersBelow (2 ^ 32) str
  | .pushList i j, _ => i ≠ j
  | .deleteNth i n, st => 0 ≤ n.toInt ∧ ∀ l, st[i]? = some l → n.toInt < l.length
  | _, _ => True

/-- A command is legal when its arguments are and no list becomes too long. -/
def Op.Ok (op : Op) (st : List (List CStr)) : Prop :=
  op.Given st ∧ ∀ r, op.absStep st = .ret r → ∀ l ∈ r.1, l.length < 2 ^ 31

/-- The counters of the list are right and no range of it is empty. -/
structure Hostlist.Tidy (hl : Hostlist) : Prop where
  nhosts : hl.nhosts.toInt = hl.names.length
  nranges : hl.nranges = hl.hr.length
  nonempty : ∀ hr ∈ hl.hr, hostrangeEmpty hr = false ∧ hr.names ≠ []

/-- A state of the machine of lists, and the names in it. -/
def Refines (abs : List (List CStr)) (st : List Hostlist) : Prop :=
  abs = st.map Hostlist.names ∧ ∀ hl ∈ st, hl.Good

theorem Hostlist.Good.tidy {hl : Hostlist} (h : hl.Good) : hl.Tidy := by
  refine ⟨h.wf.nhosts_toInt h.small, h.wf.nranges, fun hr hmem => ⟨?_, ?_⟩⟩
  · have hle := (h.wf.ranges hr hmem).le
    have hne := ne_ulongMax_of_lt (Nat.lt_of_lt_of_le (h.below hr hmem) pow32_le)
    rw [Bool.eq_false_iff, Ne, hostrangeEmpty_iff]
    simp only [hne, or_false]
    omega
  · exact List.length_pos_iff.mp (h.wf.ranges hr hmem).length_pos

/-! ## One command -/

/-- A command on one list lands on the names it should, and if they are not too
many on a good list and the same answer. -/
def Lands (x : List CStr × Answer) (y : Hostlist × Answer) : Prop :=
  x.1 = y.1.names ∧ (x.1.length < 2 ^ 31 → y.1.Good ∧ x.2 = y.2)

theorem Refines.set {abs : List (List CStr)} {st : List Hostlist} (h : Refines abs st) {i : Nat}
    {hl : Hostlist} (hg : hl.Good) : Refines (abs.set i hl.names) (st.set i hl) := by
  refine ⟨by rw [h.1, List.map_set], fun x hx => ?_⟩
  rcases List.mem_or_eq_of_mem_set hx with hx | rfl
  · exact h.2 x hx
  · exact hg

theorem Refines.snoc {abs : List (List CStr)} {st : List Hostlist} (h : Refines abs st)
    {hl : Hostlist} (hg : hl.Good) : Refines (abs ++ [hl.names]) (st ++ [hl]) := by
  refine ⟨by simp [h.1], fun x hx => ?_⟩
  rcases List.mem_append.mp hx with hx | hx
  · exact h.2 x hx
  · rw [List.mem_singleton.mp hx]
    exact hg

theorem onList_refines {abs : List (List CStr)} {st : List Hostlist} {i : Nat}
    {g : List CStr → Proc (List CStr × Answer)} {f : Hostlist → Proc (Hostlist × Answer)}
    (h : Refines abs st)
    (hfg : ∀ hl, st[i]? = some hl → hl.Good → Run.Rel Lands (g hl.names) (f hl))
    (hsize : ∀ r, onList abs i g = .ret r → ∀ l ∈ r.1, l.length < 2 ^ 31) :
    Run.Rel (Answers Refines) (onList abs i g) (onList st i f) := by
  have habs : abs[i]? = st[i]?.map Hostlist.names := by rw [h.1, List.getElem?_map]
  unfold onList at hsize ⊢
  cases hst : st[i]? with
  | none =>
      rw [habs, hst]
      exact ⟨h, rfl⟩
  | some hl =>
      rw [hst] at habs
      simp only [habs, Option.map_some] at hsize ⊢
      have hmem := List.mem_of_getElem? hst
      refine (hfg hl hst (h.2 hl hmem)).bind fun x y hx _ hrel => ?_
      obtain ⟨hnames, hgood⟩ := hrel
      have hlt : i < abs.length := (List.getElem?_eq_some_iff.mp habs).1
      have hsmall : x.1.length < 2 ^ 31 :=
        hsize (abs.set i x.1, x.2) (by rw [hx]; rfl) x.1 (List.mem_set hlt x.1)
      refine ⟨?_, (hgood hsmall).2⟩
      show Refines (abs.set i x.1) (st.set i y.1)
      rw [hnames]
      exact h.set (hgood hsmall).1

theorem hostlistCreate_rel32 {slack str : CStr} (h : NumbersBelow (2 ^ 32) str) :
    Run.Rel (Option.Rel fun names hl => Appended (2 ^ 32) hostlistNew names hl) (expand slack str)
      (hostlistCreate slack str) :=
  hostlistCreate_rel _ pow32_le (by rw [MAX_HOST_SUFFIX_toNat]; decide) h

theorem push_lands {hl : Hostlist} (hg : hl.Good) {slack str : CStr}
    (h : NumbersBelow (2 ^ 32) str) :
    Run.Rel Lands (do
      let names ← expand slack str
      match names with
      | none => pure (hl.names, .int 0)
      | some names => pure (hl.names ++ names, .int names.length)) (do
      let r ← hostlistPush slack hl str
      pure (r.2, .int r.1.toInt)) := by
  rw [hostlistPush, Run.bind_assoc]
  refine (hostlistCreate_rel32 h).bind fun names new _ _ hrel => ?_
  cases hrel with
  | none => exact ⟨rfl, fun _ => ⟨hg, rfl⟩⟩
  | @some names new happ =>
      have hnew : new.names = names := by simpa using happ.names
      have hpush := (hostlistPushList_spec pow32_le hg.wf hg.below happ.wf happ.below).1
      rw [hnew] at hpush
      refine ⟨hpush.names.symm, fun hs => ⟨hpush.good hs, ?_⟩⟩
      have hlen : new.names.length < 2 ^ 31 := by
        simp only [List.length_append] at hs
        rw [hnew]
        omega
      show Answer.int names.length = Answer.int new.nhosts.toInt
      rw [happ.wf.nhosts_toInt hlen, hnew]

theorem pushHost_lands {hl : Hostlist} (hg : hl.Good) (str : CStr) :
    Lands (hl.names ++ [str], .int 1) (hostlistPushHost hl str, .int 1) := by
  have happ := pushHost_appended pow32_le (by rw [MAX_HOST_SUFFIX_toNat]; decide) hg.wf hg.below str
  exact ⟨happ.names.symm, fun hs => ⟨happ.good hs, rfl⟩⟩

theorem pop_lands {hl : Hostlist} (hg : hl.Good) :
    Lands (hl.names.dropLast, .name hl.names.getLast?)
      ((hostlistPop hl).2, .name (hostlistPop hl).1) := by
  obtain ⟨hname, hrem⟩ := hg.pop
  exact ⟨hrem.names.symm, fun hs => ⟨hrem.good hg hs, by rw [hname]⟩⟩

theorem shift_lands {hl : Hostlist} (hg : hl.Good) :
    Lands (hl.names.tail, .name hl.names.head?)
      ((hostlistShift hl).2, .name (hostlistShift hl).1) := by
  obtain ⟨hname, hrem⟩ := hg.shift
  exact ⟨hrem.names.symm, fun hs => ⟨hrem.good hg hs, by rw [hname]⟩⟩

theorem deleteNth_lands {hl : Hostlist} (hg : hl.Good) {n : Int32} (h0 : 0 ≤ n.toInt)
    (hn : n.toInt < hl.names.length) :
    Lands (hl.names.eraseIdx n.toInt.toNat, .int 1) (hostlistDeleteNth hl n, .int 1) := by
  have hcast : Int32.ofNat n.toInt.toNat = n := by
    apply Int32.toInt_inj.mp
    rw [Int32.toInt_ofNat_of_lt (by have := n.toInt_lt; omega), Int.toNat_of_nonneg h0]
  have hrem := hostlistDeleteNth_spec (n := n.toInt.toNat) hg.wf hg.small (hg.below.mono pow32_le)
    (by omega)
  rw [hcast] at hrem
  exact ⟨hrem.names.symm, fun hs => ⟨hrem.good hg hs, rfl⟩⟩

theorem set_of_getElem? {α : Type} {l : List α} {i : Nat} {x : α} (h : l[i]? = some x) :
    l.set i x = l := by
  obtain ⟨hlt, rfl⟩ := List.getElem?_eq_some_iff.mp h
  exact List.set_getElem_self hlt

/-- One legal command keeps the two machines in step. -/
theorem step_refines (op : Op) {abs : List (List CStr)} {st : List Hostlist} (h : Refines abs st)
    (hok : op.Ok abs) : Run.Rel (Answers Refines) (op.absStep abs) (op.step st) := by
  obtain ⟨hgiven, hsize⟩ := hok
  have habs : ∀ i : Nat, abs[i]? = st[i]?.map Hostlist.names := by
    intro i
    rw [h.1, List.getElem?_map]
  cases op with
  | create slack str =>
      simp only [Op.absStep, Op.step] at hsize ⊢
      refine (hostlistCreate_rel32 hgiven).bind fun names hl he _ hrel => ?_
      cases hrel with
      | none => exact ⟨h, rfl⟩
      | @some names hl happ =>
          have hnames : hl.names = names := by simpa using happ.names
          refine ⟨?_, rfl⟩
          show Refines (abs ++ [names]) (st ++ [hl])
          rw [← hnames]
          refine h.snoc (happ.good ?_)
          exact hsize (abs ++ [names], .done) (by rw [he]; rfl) names (by simp)
  | push i slack str =>
      exact onList_refines h (fun hl _ hg => push_lands hg hgiven) hsize
  | pushHost i str =>
      exact onList_refines h (fun hl _ hg => pushHost_lands hg str) hsize
  | pushList i j =>
      simp only [Op.absStep, Op.step] at hsize ⊢
      rw [habs i, habs j] at hsize ⊢
      cases hi : st[i]? with
      | none => exact ⟨h, rfl⟩
      | some h1 =>
          cases hj : st[j]? with
          | none => exact ⟨h, rfl⟩
          | some h2 =>
              have hg1 := h.2 h1 (List.mem_of_getElem? hi)
              have hg2 := h.2 h2 (List.mem_of_getElem? hj)
              obtain ⟨happ, happ2⟩ :=
                hostlistPushList_spec pow32_le hg1.wf hg1.below hg2.wf hg2.below
              have hlt := (List.getElem?_eq_some_iff.mp hi).1
              have hsmall : (h1.names ++ h2.names).length < 2 ^ 31 := by
                refine hsize (abs.set i (h1.names ++ h2.names), .done) ?_ _ (List.mem_set ?_ _)
                · rw [hi, hj]
                  rfl
                · rw [h.1, List.length_map]
                  exact hlt
              refine ⟨?_, rfl⟩
              have hone := h.set (i := i) (happ.good hsmall)
              have hset := hone.set (i := j) (happ2.good (by exact hg2.small))
              have hkeep : (abs.set i (h1.names ++ h2.names)).set j h2.names =
                  abs.set i (h1.names ++ h2.names) := by
                refine set_of_getElem? ?_
                rw [List.getElem?_set_ne hgiven, habs j, hj]
                rfl
              rw [happ.names, happ2.names] at hset
              show Refines (abs.set i (h1.names ++ h2.names)) _
              rw [← hkeep]
              exact hset
  | copy i =>
      simp only [Op.absStep, Op.step] at hsize ⊢
      rw [habs i]
      cases hi : st[i]? with
      | none => exact ⟨h, rfl⟩
      | some hl =>
          have hg := h.2 hl (List.mem_of_getElem? hi)
          have happ := hostlistCopy_spec hg.wf hg.below
          have hnames : (hostlistCopy hl).names = hl.names := by simpa using happ.names
          refine ⟨?_, rfl⟩
          show Refines (abs ++ [hl.names]) (st ++ [hostlistCopy hl])
          rw [← hnames]
          exact h.snoc (happ.good (by exact hg.small))
  | pop i => exact onList_refines h (fun hl _ hg => pop_lands hg) hsize
  | shift i => exact onList_refines h (fun hl _ hg => shift_lands hg) hsize
  | deleteNth i n =>
      refine onList_refines h (fun hl hi hg => ?_) hsize
      exact deleteNth_lands hg hgiven.1 (hgiven.2 hl.names (by rw [habs i, hi]; rfl))
  | count i =>
      refine onList_refines h (fun hl _ hg => ?_) hsize
      refine ⟨rfl, fun _ => ⟨hg, ?_⟩⟩
      show Answer.int _ = Answer.int _
      rw [hostlistCount, hg.wf.nhosts_toInt hg.small]

/-! ## Every run -/

/-- Any sequence of legal commands gives the same answers on host lists as on
lists of names, ends the process on the same one if it does, and leaves lists
that hold exactly the names, with right counters and without empty ranges. -/
theorem hostlist_refines_names (ops : List Op) (h : Legal Op.absStep Op.Ok ops []) :
    Run.Rel (fun abs conc => abs.2 = conc.2 ∧ abs.1 = conc.1.map Hostlist.names ∧
        ∀ hl ∈ conc.1, hl.Tidy)
      (runs Op.absStep ops []) (runs Op.step ops []) := by
  have hrel := runs_rel (R := Refines) (fun op _ _ hr hok => step_refines op hr hok)
    (show Refines [] [] from ⟨rfl, by simp⟩) h
  rw [← Run.bind_ret (runs Op.absStep ops []), ← Run.bind_ret (runs Op.step ops [])]
  refine hrel.bind fun a c _ _ hac => ?_
  exact ⟨hac.2, hac.1.1, fun hl hmem => (hac.1.2 hl hmem).tidy⟩

/-- Checking a command of a given sequence. -/
theorem legal_command {op : Op} {rest : List Op} {st : List (List CStr)}
    (r : List (List CStr) × Answer) (hr : op.absStep st = .ret r) (hgiven : op.Given st)
    (hsize : ∀ l ∈ r.1, l.length < 2 ^ 31) (hrest : Legal Op.absStep Op.Ok rest r.1) :
    Legal Op.absStep Op.Ok (op :: rest) st := by
  refine legal_cons hr ⟨hgiven, fun r' hr' => ?_⟩ hrest
  rw [hr] at hr'
  cases hr'
  exact hsize

/-- A merge of two widths, a split inside the merged range, and a pop. -/
theorem hostlist_refines_names_split :
    ∃ st, runs Op.step [.create [] "n[08-10]".toList, .push 0 [] "n11".toList, .deleteNth 0 1,
        .pop 0, .count 0] [] =
      .ret (st, [.done, .int 1, .int 1, .name (some "n11".toList), .int 2]) ∧
      st.map Hostlist.names = [["n08".toList, "n10".toList]] := by
  have hlegal : Legal Op.absStep Op.Ok [.create [] "n[08-10]".toList, .push 0 [] "n11".toList,
      .deleteNth 0 1, .pop 0, .count 0] [] := by
    refine legal_command ([["n08".toList, "n09".toList, "n10".toList]], .done) (by decide)
      (by show NumbersBelow _ _; decide) (by decide) ?_
    refine legal_command ([["n08".toList, "n09".toList, "n10".toList, "n11".toList]], .int 1)
      (by decide) (by show NumbersBelow _ _; decide) (by decide) ?_
    refine legal_command ([["n08".toList, "n10".toList, "n11".toList]], .int 1) (by decide)
      ⟨by decide, by rintro l ⟨⟩; decide⟩ (by decide) ?_
    refine legal_command ([["n08".toList, "n10".toList]], .name (some "n11".toList)) (by decide)
      trivial (by decide) ?_
    exact legal_command ([["n08".toList, "n10".toList]], .int 2) (by decide) trivial (by decide)
      trivial
  have hrel := hostlist_refines_names _ hlegal
  have habs : runs Op.absStep [.create [] "n[08-10]".toList, .push 0 [] "n11".toList,
      .deleteNth 0 1, .pop 0, .count 0] [] = .ret ([["n08".toList, "n10".toList]],
        [.done, .int 1, .int 1, .name (some "n11".toList), .int 2]) := by
    decide
  rw [habs] at hrel
  obtain ⟨⟨st, answers⟩, hst, hans, hnames, -⟩ := hrel.ret_left
  cases hans
  exact ⟨st, hst, hnames.symm⟩

end Pdsh
