import Pdsh.Hostlist.Canonical
import Pdsh.Opt.Wcoll

/-!
# Excluded files

`list_push_hostlist` prints the hosts of an excluded file into a buffer that it means to enlarge
until they fit. The condition of its loop is `n*=2 < 0x7fffff`, where the comparison is evaluated
first: `n` is multiplied by 1, the buffer keeps its 4096 bytes, and a text that does not fit is
printed for ever (`list_push_hostlist_iff`).
-/

namespace Pdsh

open Lib Lib.Decimal Lib.Memory

variable {hl : Hostlist} {s : Mem} {l : List CStr}

/-- The loop of `list_push_hostlist` on a buffer of `n` bytes: the buffer and the last result of
`hostlist_ranged_string`. -/
def pushHostlistLoop (hl : Hostlist) : Nat → (n : Nat) → Mem → Proc (Mem × Int)
  | 0, _, _ => .hang
  | fuel + 1, n, s =>
      let printed := hostlistRangedString hl (n - 1) s
      if printed.2 < 0 then
        let n := n * if 2 < 0x7fffff then 1 else 0
        if n ≠ 0 then pushHostlistLoop hl fuel n printed.1 else .ret printed
      else .ret printed

/-- `list_push_hostlist` with at most `fuel` rounds, in an allocated buffer `s`. -/
def listPushHostlistFuel (fuel : Nat) (s : Mem) (l : List CStr) (hl : Hostlist) : Proc (List CStr) := do
  let printed ← pushHostlistLoop hl fuel 4096 s
  pure (text printed.1 0 printed.2.toNat :: l)

/-- The text fits into the buffer. -/
theorem pushHostlistLoop_fits (hrep : hl.nranges = hl.hr.length) (h : hl.printedText.length < 4095) (fuel : Nat) :
    ∃ printed : Mem × Int, pushHostlistLoop hl (fuel + 1) 4096 s = .ret printed ∧
      text printed.1 0 printed.2.toNat = hl.printedText := by
  obtain ⟨-, -, hresult⟩ := @ranged_honest hl 4095 hrep (by decide) s
  rw [if_pos h] at hresult
  obtain ⟨hret, htext, -⟩ := hresult
  have hnonneg : ¬ (hostlistRangedString hl 4095 s).2 < 0 := by
    rw [hret]
    omega
  refine ⟨hostlistRangedString hl 4095 s, ?_, ?_⟩
  · rw [pushHostlistLoop]
    exact if_neg hnonneg
  · rw [hret]
    exact htext

/-- The text does not fit, and the buffer does not grow. -/
theorem pushHostlistLoop_hang (hrep : hl.nranges = hl.hr.length) (h : 4095 ≤ hl.printedText.length) (fuel : Nat) :
    pushHostlistLoop hl fuel 4096 s = .hang := by
  induction fuel generalizing s with
  | zero => rfl
  | succ fuel ih =>
      obtain ⟨-, -, hresult⟩ := @ranged_honest hl 4095 hrep (by decide) s
      rw [if_neg (Nat.not_lt.mpr h)] at hresult
      have hneg : (hostlistRangedString hl (4096 - 1) s).2 < 0 := by
        show (hostlistRangedString hl 4095 s).2 < 0
        rw [hresult]
        decide
      rw [pushHostlistLoop]
      simp only [hneg, if_true]
      exact ih

/-- The loop comes to its end in the first round or never. -/
theorem listPushHostlistFuel_eq (hrep : hl.nranges = hl.hr.length) (fuel : Nat) (s : Mem) (l : List CStr) :
    listPushHostlistFuel (fuel + 1) s l hl =
      if hl.printedText.length < 4095 then .ret (hl.printedText :: l) else .hang := by
  unfold listPushHostlistFuel
  split
  · rename_i hfits
    obtain ⟨printed, hloop, htext⟩ := @pushHostlistLoop_fits hl s hrep hfits fuel
    rw [hloop, Run.ret_bind, htext]
    rfl
  · rename_i hlong
    rw [pushHostlistLoop_hang hrep (Nat.not_lt.mp hlong)]
    rfl

/-- The options are read with the loop as it is. -/
theorem listPushHostlist_eq (hrep : hl.nranges = hl.hr.length) (fuel : Nat) (s : Mem) (l : List CStr) :
    listPushHostlistFuel (fuel + 1) s l hl = listPushHostlist l hl := by
  obtain ⟨-, -, hresult⟩ := @ranged_honest hl 4095 hrep (by decide) fun _ => NUL
  rw [listPushHostlistFuel_eq hrep]
  unfold listPushHostlist
  split
  · rename_i hfits
    rw [if_pos hfits] at hresult
    obtain ⟨hret, htext, -⟩ := hresult
    rw [if_neg (by rw [hret]; omega), hret, Int.toNat_natCast, htext]
  · rename_i hlong
    rw [if_neg hlong] at hresult
    rw [if_pos (by rw [hresult]; decide)]

/-- `list_push_hostlist` ends with the whole text on the list exactly when that is shorter than 4095
bytes. -/
theorem list_push_hostlist_iff (hrep : hl.nranges = hl.hr.length) (s : Mem) (l : List CStr) :
    (∃ fuel, listPushHostlistFuel fuel s l hl = .ret (hl.printedText :: l)) ↔
      hl.printedText.length < 4095 := by
  constructor
  · rintro ⟨fuel, hret⟩
    by_contra hlong
    rw [listPushHostlistFuel, pushHostlistLoop_hang hrep (Nat.not_lt.mp hlong)] at hret
    cases hret
  · intro hfits
    refine ⟨1, ?_⟩
    rw [listPushHostlistFuel_eq hrep, if_pos hfits]

/-- One host. -/
theorem list_push_hostlist_one :
    ∃ fuel, listPushHostlistFuel fuel (fun _ => NUL) [] ⟨[⟨"n".toList, 7, 7, 1, false⟩], 1, 1⟩ =
      .ret ["n7".toList] :=
  (@list_push_hostlist_iff ⟨[⟨"n".toList, 7, 7, 1, false⟩], 1, 1⟩ rfl (fun _ => NUL) []).mpr (by decide)

/-- Three hosts, each with a number of 2040 digits. -/
def wideHosts : Hostlist :=
  ⟨[⟨"k".toList, 1, 1, 2040, false⟩, ⟨"m".toList, 1, 1, 2040, false⟩, ⟨"n".toList, 1, 1, 2040, false⟩], 3, 3⟩

theorem list_push_hostlist_hangs : wideHosts.nranges = wideHosts.hr.length ∧
    ∀ fuel s l, listPushHostlistFuel fuel s l wideHosts = .hang := by
  refine ⟨rfl, fun fuel s l => ?_⟩
  have hgroups : wideHosts.groups = [(false, ⟨"k".toList, 1, 1, 2040, false⟩, []),
      (false, ⟨"m".toList, 1, 1, 2040, false⟩, []), (false, ⟨"n".toList, 1, 1, 2040, false⟩, [])] := by decide
  have hhost : ∀ p : CStr, p.length = 1 → (groupText false ⟨p, 1, 1, 2040, false⟩ []).length = 2041 := by
    intro p hp
    show (p ++ (pad 2040 1 ++ [])).length = 2041
    have hone : numDigits 1 = 1 := numDigits_of_lt (by decide)
    rw [List.append_nil, List.length_append, length_pad, hp, hone]
    rfl
  have hlong : 4095 ≤ wideHosts.printedText.length := by
    rw [Hostlist.printedText, hgroups, rangedText_shown fun _ => groupText_ne_nil rfl false,
      if_neg (List.cons_ne_nil _ _), List.length_append, List.length_cons, rangedText_cons_cons, List.length_append,
      List.length_cons, rangedText, List.map_singleton, List.intercalate_singleton]
    dsimp only
    rw [hhost _ rfl, hhost _ rfl, hhost _ rfl]
    omega
  rw [listPushHostlistFuel, pushHostlistLoop_hang rfl hlong]
  rfl

end Pdsh
