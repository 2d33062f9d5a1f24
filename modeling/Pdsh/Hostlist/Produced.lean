import Pdsh.Hostlist.Lookup

/-!
# Lists the operations make

`Produced B hl`: some sequence of operations made `hl`, out of expressions whose
numbers are below `B`. Operations that look for a position count hosts in `int`s,
so they are applied to lists of less than `2^31` hosts. All such lists keep the
invariant (`Produced.wf`).
-/

namespace Pdsh

open Lib

variable {hl : Hostlist} {B : Nat}

/-- The lists the operations make, from expressions whose numbers are below `B`. -/
inductive Produced (B : Nat) : Hostlist → Prop where
  | create {slack str : CStr} {hl : Hostlist} (hnum : NumbersBelow B str)
      (h : hostlistCreate slack str = .ret (some hl)) : Produced B hl
  | push {slack str : CStr} {hl : Hostlist} {r : Int32 × Hostlist} (hp : Produced B hl)
      (hnum : NumbersBelow B str) (h : hostlistPush slack hl str = .ret r) : Produced B r.2
  | pushHost {hl : Hostlist} (hp : Produced B hl) (name : CStr) :
      Produced B (hostlistPushHost hl name)
  | pushList {h1 h2 : Hostlist} (hp1 : Produced B h1) (hp2 : Produced B h2) :
      Produced B (hostlistPushList h1 h2).1
  | pushedList {h1 h2 : Hostlist} (hp1 : Produced B h1) (hp2 : Produced B h2) :
      Produced B (hostlistPushList h1 h2).2.1
  | copy {hl : Hostlist} (hp : Produced B hl) : Produced B (hostlistCopy hl)
  | pop {hl : Hostlist} (hp : Produced B hl) (hs : hl.Small) : Produced B (hostlistPop hl).2
  | shift {hl : Hostlist} (hp : Produced B hl) (hs : hl.Small) : Produced B (hostlistShift hl).2
  | deleteNth {hl : Hostlist} (hp : Produced B hl) (hs : hl.Small) {n : Nat}
      (hn : n < hl.names.length) : Produced B (hostlistDeleteNth hl (Int32.ofNat n))
  | find {hl : Hostlist} (hp : Produced B hl) (hs : hl.Small) (name : CStr) :
      Produced B (hostlistFind hl name).2
  | deleteHost {hl : Hostlist} (hp : Produced B hl) (hs : hl.Small) (name : CStr) :
      Produced B (hostlistDeleteHost hl name).2
  | delete {slack str : CStr} {hl : Hostlist} {r : Int32 × Hostlist} (hp : Produced B hl)
      (hs : hl.Small) (h : hostlistDelete slack hl str = .ret r) : Produced B r.2

/-- Every list the operations make keeps the invariant. -/
theorem Produced.wf (hB : B ≤ ULONG_MAX.toNat) (hsfx : MAX_HOST_SUFFIX.toNat < B)
    (hp : Produced B hl) : hl.Wf ∧ hl.Below B := by
  induction hp with
  | create hnum h =>
      obtain ⟨_, -, happ⟩ := hostlistCreate_some hB hsfx hnum h
      exact ⟨happ.wf, happ.below⟩
  | push _ hnum h ih =>
      rcases hostlistPush_ret hB hsfx ih.1 ih.2 hnum h with rfl | ⟨_, -, happ⟩
      · exact ih
      · exact ⟨happ.wf, happ.below⟩
  | pushHost _ name ih =>
      have happ := pushHost_appended hB hsfx ih.1 ih.2 name
      exact ⟨happ.wf, happ.below⟩
  | pushList _ _ ih1 ih2 =>
      have happ := (hostlistPushList_spec hB ih1.1 ih1.2 ih2.1 ih2.2).1
      exact ⟨happ.wf, happ.below⟩
  | pushedList _ _ ih1 ih2 =>
      have happ := (hostlistPushList_spec hB ih1.1 ih1.2 ih2.1 ih2.2).2
      exact ⟨happ.wf, happ.below⟩
  | copy _ ih =>
      have happ := hostlistCopy_spec ih.1 ih.2
      exact ⟨happ.wf, happ.below⟩
  | pop _ hs ih =>
      rcases hostlistPop_spec ih.1 hs (ih.2.mono hB) with ⟨-, heq⟩ | ⟨_, _, _, -, -, -, -, hrem⟩
      · rw [heq]
        exact ih
      · exact ⟨hrem.wf, hrem.below B ih.2⟩
  | shift _ hs ih =>
      rcases hostlistShift_spec ih.1 hs (ih.2.mono hB) with ⟨-, heq⟩ | ⟨_, _, _, -, -, -, -, hrem⟩
      · rw [heq]
        exact ih
      · exact ⟨hrem.wf, hrem.below B ih.2⟩
  | deleteNth _ hs hn ih =>
      have hrem := hostlistDeleteNth_spec ih.1 hs (ih.2.mono hB) hn
      exact ⟨hrem.wf, hrem.below B ih.2⟩
  | find _ hs name ih =>
      have hrw := (hostlistFind_spec ih.1.ranges ih.1.nranges name).1
      exact ⟨hrw.wf ih.1, hrw.below ih.2⟩
  | deleteHost _ hs name ih =>
      have hdel := hostlistDeleteHost_deleted ih.1 hs name
      exact ⟨hdel.wf, hdel.below B ih.2⟩
  | delete _ hs h ih =>
      have hdel := hostlistDelete_deleted ih.1 hs h
      exact ⟨hdel.wf, hdel.below B ih.2⟩

end Pdsh
