import Pdsh.LinkedList.Runs

/-!
# Walks with an iterator

An iterator goes through a list that others change on the way, before and behind it, also through
iterators of their own.

* `Shifts`: what a call does to what lies ahead of the iterator, that is to the nodes from its `pos` on;
* `walk_accounts`: until it is at the end it passes, in order, what the list held and what is put in ahead
  of it, but for what is taken out ahead of it.
-/

namespace Pdsh.LinkedList

open Lib (Bookmark Marked Walked)
open Lib.Transition (Trace)

variable {α : Type} {l name k : Nat} {c : Command α} {r : Answer α} {m m' : Marked Nat α}
  {xs seen gained lost : List α} {x : α} {chunk : Option Nat}

/-- The item a call of `list_next` on the iterator gives. -/
def passedBy (l name : Nat) : Command α × Answer α → List α
  | (.on l' (.next name'), .item (some x)) => if l' = l ∧ name' = name then [x] else []
  | _ => []

/-- It leaves the list and its order, and the iterator but for `list_next`. -/
def Command.Undisturbed (l name : Nat) : Command α → Prop
  | .destroy l' => l' ≠ l
  | .on l' (.sort _) => l' ≠ l
  | .on l' (.iteratorReset name') | .on l' (.iteratorDestroy name') => ¬(l' = l ∧ name' = name)
  | _ => True

/-- It may put items into the list. -/
def Command.Inserts (l : Nat) : Command α → Prop
  | .on l' (.append ..) | .on l' (.prepend ..) | .on l' (.push ..) | .on l' (.enqueue ..)
  | .on l' (.insert ..) => l' = l
  | _ => False

/-- It may take items out of the list. -/
def Command.Removes (l : Nat) : Command α → Prop
  | .on l' .pop | .on l' .dequeue | .on l' (.deleteAll _) | .on l' (.remove _) => l' = l
  | _ => False

/-- The item it puts into the list, when there is memory for it. -/
def Command.Puts (l : Nat) (x : α) : Command α → Prop
  | .on l' (.append _ y) | .on l' (.prepend _ y) | .on l' (.push _ y) | .on l' (.enqueue _ y)
  | .on l' (.insert _ _ y) => l' = l ∧ y = x
  | _ => False

/-- It takes an item out of the list, if there is one. -/
def Command.Takes (l : Nat) : Command α → Prop
  | .on l' .pop | .on l' .dequeue | .on l' (.remove _) => l' = l
  | _ => False

/-! ## What lies ahead -/

/-- The items of the nodes from a pointer on. -/
inductive NodesFrom (mem : Pool (ListNode α)) : Option Nat → List α → Prop where
  | nil : NodesFrom mem none []
  | cons {p : Nat} {n : ListNode α} {xs : List α} (h : mem.cells p = some n)
      (rest : NodesFrom mem n.next xs) : NodesFrom mem (some p) (n.data :: xs)

/-- What the iterator has yet to give: the nodes from its `pos` on. -/
def World.Ahead (w : World α) (l name : Nat) (left : List α) : Prop :=
  ∃ list it, w.lists l = some list ∧ list.iNext.lookup name = some it ∧ NodesFrom w.mem it.pos left

/-- What a call does to what lies ahead of the iterator. `list_next` on the iterator gives the first
item; other calls leave what lies ahead, put in their item, take out the item they give, or all
that their function picks. -/
inductive Shifts (l name : Nat) :
    Command α → Answer α → (before after gained lost : List α) → Prop where
  | pass {x : α} {left : List α} : Shifts l name (.on l (.next name)) (.item (some x)) (x :: left) left [] []
  | pause : Shifts l name (.on l (.next name)) (.item none) [] [] [] []
  | keep {c : Command α} {r : Answer α} {left : List α} (hc : c ≠ .on l (.next name)) :
      Shifts l name c r left left [] []
  | put {c : Command α} {x : α} {left : List α} {k : Nat} (hc : c.Puts l x) (hk : k ≤ left.length) :
      Shifts l name c (.item (some x)) left (left.insertIdx k x) [x] []
  | take {c : Command α} {x : α} {left : List α} {k : Nat} (hc : c.Takes l) (hk : left[k]? = some x) :
      Shifts l name c (.item (some x)) left (left.eraseIdx k) [] [x]
  | purge {f : α → Bool} {r : Answer α} {left : List α} :
      Shifts l name (.on l (.deleteAll f)) r left (left.filter (!f ·)) [] (left.filter f)

/-- The calls after `w` up to the last world, with what each of them put in ahead of the iterator and
what it took out there. -/
inductive Accounts (l name : Nat) (w : World α) :
    List (Command α × Answer α) → World α → (gained lost : List α) → Prop where
  | start : Accounts l name w [] w [] []
  | call {tr : List (Command α × Answer α)} {t t' : World α} {c : Command α} {r : Answer α}
      {before after gained lost gained' lost' : List α} (calls : Accounts l name w tr t gained lost)
      (hrun : Runs t c r t') (hbefore : t.Ahead l name before) (hafter : t'.Ahead l name after)
      (hshifts : Shifts l name c r before after gained' lost') :
      Accounts l name w (tr ++ [(c, r)]) t' (gained ++ gained') (lost ++ lost')

section Shifts

variable {before after left : List α}

/-- Only `list_next` on the iterator passes an item. -/
theorem passedBy_of_ne (hc : c ≠ .on l (.next name)) : passedBy l name (c, r) = [] := by
  cases c with
  | create | destroy => rfl
  | on l' op =>
      cases op with
      | next name' =>
          cases r with
          | item x =>
              cases x with
              | none => rfl
              | some x =>
                  apply if_neg
                  rintro ⟨rfl, rfl⟩
                  exact hc rfl
          | _ => rfl
      | _ => rfl

theorem Command.Puts.ne_next (hc : c.Puts l x) : c ≠ .on l (.next name) := by
  rintro rfl
  exact hc

theorem Command.Takes.ne_next (hc : c.Takes l) : c ≠ .on l (.next name) := by
  rintro rfl
  exact hc

theorem Command.Puts.inserts (hc : c.Puts l x) : c.Inserts l := by
  cases c with
  | create | destroy => exact hc
  | on l' op => cases op <;> first | exact hc.1 | exact hc

theorem Command.Takes.removes (hc : c.Takes l) : c.Removes l := by
  cases c with
  | create | destroy => exact hc
  | on l' op => cases op <;> first | exact hc | exact hc.elim

/-- A walk goes on with a call. -/
theorem Shifts.walked {gained' lost' : List α} (h : Shifts l name c r before after gained' lost')
    (hwalk : Walked xs seen before gained lost) :
    Walked xs (seen ++ passedBy l name (c, r)) after (gained ++ gained') (lost ++ lost') := by
  cases h with
  | pass =>
      rw [passedBy, if_pos ⟨rfl, rfl⟩, List.append_nil, List.append_nil]
      exact hwalk.pass
  | pause => simpa [passedBy] using hwalk
  | keep hc => simpa [passedBy_of_ne hc] using hwalk
  | put hc hk =>
      rw [passedBy_of_ne hc.ne_next, List.append_nil, List.append_nil]
      exact hwalk.gain hk
  | take hc hk =>
      rw [passedBy_of_ne hc.ne_next, List.append_nil, List.append_nil]
      exact hwalk.lose hk
  | purge =>
      rw [show passedBy l name _ = [] from rfl, List.append_nil, List.append_nil]
      exact hwalk.purge

theorem Shifts.gained_nil {gained' lost' : List α} (h : Shifts l name c r before after gained' lost')
    (hc : ¬c.Inserts l) : gained' = [] := by
  cases h with
  | put hputs => exact absurd hputs.inserts hc
  | _ => rfl

theorem Shifts.lost_nil {gained' lost' : List α} (h : Shifts l name c r before after gained' lost')
    (hc : ¬c.Removes l) : lost' = [] := by
  cases h with
  | take htakes => exact absurd htakes.removes hc
  | purge => exact absurd rfl hc
  | _ => rfl

theorem Shifts.of_put (hc : c.Puts l x) (hk : k ≤ m.items.length) (h : Put chunk k x m r m') :
    ∃ gained lost, Shifts l name c r (m.rest name) (m'.rest name) gained lost := by
  rcases h with ⟨rfl, rfl⟩ | ⟨-, -, rfl⟩
  · rcases Marked.rest_insertAt (i := name) (x := x) hk with hsame | ⟨k', hk', hrest⟩
    · rw [hsame]
      exact ⟨[], [], .keep hc.ne_next⟩
    · rw [hrest]
      exact ⟨[x], [], .put hc hk'⟩
  · exact ⟨[], [], .keep hc.ne_next⟩

theorem Shifts.of_taken (hc : c.Takes l) (h : Taken k m r m') :
    ∃ gained lost, Shifts l name c r (m.rest name) (m'.rest name) gained lost := by
  obtain ⟨rfl, rfl⟩ := h
  split
  · rename_i hk
    have hat : m.items[k]? = some m.items[k] := List.getElem?_eq_getElem hk
    rcases Marked.rest_eraseAt (i := name) hat with hsame | ⟨k', hk', hrest⟩
    · rw [hsame]
      exact ⟨[], [], .keep hc.ne_next⟩
    · rw [hrest, hat]
      exact ⟨[], _, .take hc hk'⟩
  · exact ⟨[], [], .keep hc.ne_next⟩

theorem Shifts.of_advance {b : Bookmark} (hb : m.mark name = some b) :
    Shifts l name (.on l (.next name)) (.item m.items[b.ahead]?) (m.rest name)
      ((m.advance name).rest name) [] [] := by
  have hhead : m.items[b.ahead]? = (m.rest name).head? := by
    rw [Marked.rest_of_mark hb, List.head?_drop]
  rw [Marked.rest_advance_self, hhead]
  cases m.rest name with
  | nil => exact .pause
  | cons x left => exact .pass

end Shifts

/-! ## Calls -/

theorem meaning_shifts {op : ListOp α} {fDel : Bool} (h : op.Meaning fDel m r m')
    (hquiet : (Command.on l op).Undisturbed l name) (hname : (m.mark name).isSome)
    (hnew : ∀ name', op = .iteratorCreate (some name') → name' ≠ name) :
    ∃ gained lost, Shifts l name (.on l op) r (m.rest name) (m'.rest name) gained lost := by
  cases op with
  | isEmpty | count | peek | findFirst | forEach =>
      obtain ⟨-, rfl⟩ := h
      exact ⟨[], [], .keep (by simp)⟩
  | append chunk x | enqueue chunk x => exact Shifts.of_put ⟨rfl, rfl⟩ le_rfl h
  | prepend chunk x | push chunk x => exact Shifts.of_put ⟨rfl, rfl⟩ (Nat.zero_le _) h
  | pop | dequeue => exact Shifts.of_taken rfl h
  | deleteAll f =>
      obtain ⟨-, rfl⟩ := h
      obtain ⟨b, hb⟩ := Option.isSome_iff_exists.mp hname
      -- the function picks from the whole list, and so from what lies ahead
      have hrest := Marked.rest_purge (f := f) hb (List.drop_zero (l := m.items))
      rw [Nat.zero_sub, List.take_zero, List.nil_append, List.drop_zero] at hrest
      rw [hrest]
      exact ⟨[], _, .purge⟩
  | sort f => exact absurd rfl hquiet
  | iteratorCreate name' =>
      cases name' with
      | none =>
          obtain ⟨-, rfl⟩ := h
          exact ⟨[], [], .keep (by simp)⟩
      | some name' =>
          obtain ⟨-, rfl⟩ := h
          rw [Marked.rest_open_ne (Ne.symm (hnew name' rfl))]
          exact ⟨[], [], .keep (by simp)⟩
  | iteratorReset name' =>
      obtain ⟨-, rfl⟩ := h
      rw [Marked.rest_rewind_ne fun he => hquiet ⟨rfl, he.symm⟩]
      exact ⟨[], [], .keep (by simp)⟩
  | iteratorDestroy name' =>
      obtain ⟨-, rfl⟩ := h
      rw [Marked.rest_close_ne fun he => hquiet ⟨rfl, he.symm⟩]
      exact ⟨[], [], .keep (by simp)⟩
  | next name' =>
      obtain ⟨b, hb, rfl, rfl⟩ := h
      -- another iterator may go on by itself
      by_cases hname : name' = name
      · subst hname
        exact ⟨[], [], .of_advance hb⟩
      · rw [Marked.rest_advance_ne (Ne.symm hname)]
        exact ⟨[], [], .keep (by simpa using hname)⟩
  | insert chunk name' x =>
      obtain ⟨b, hb, hput⟩ := h
      have hfits : b.ahead ≤ m.items.length := Marked.fits_mark hb
      exact Shifts.of_put ⟨rfl, rfl⟩ (b.passed_le_ahead.trans hfits) hput
  | remove name' =>
      obtain ⟨b, hb, hcases⟩ := h
      cases hheld : b.held with
      | true =>
          rw [hheld, if_pos rfl] at hcases
          exact Shifts.of_taken rfl hcases
      | false =>
          rw [hheld, if_neg Bool.false_ne_true] at hcases
          obtain ⟨-, rfl⟩ := hcases
          exact ⟨[], [], .keep (by simp)⟩

/-! ## The iterator stays -/

theorem isSome_insertAt (h : (m.mark name).isSome) : ((m.insertAt k x).mark name).isSome := by
  rw [Marked.mark, Marked.insertAt, Lib.lookup_transfer, Option.isSome_map]
  exact h

theorem isSome_eraseAt (h : (m.mark name).isSome) : ((m.eraseAt k).mark name).isSome := by
  rw [Marked.mark, Marked.eraseAt, Lib.lookup_transfer, Option.isSome_map]
  exact h

theorem isSome_purge {f : α → Bool} (h : (m.mark name).isSome) :
    ((m.purge f xs k).mark name).isSome := by
  induction xs generalizing m k with
  | nil => exact h
  | cons x xs ih =>
      rw [Marked.purge]
      split
      · exact ih (isSome_eraseAt h)
      · exact ih h

theorem isSome_put (h : (m.mark name).isSome) (hput : Put chunk k x m r m') : (m'.mark name).isSome := by
  rcases hput with ⟨-, rfl⟩ | ⟨-, -, rfl⟩
  · exact isSome_insertAt h
  · exact h

theorem isSome_taken (h : (m.mark name).isSome) (htaken : Taken k m r m') : (m'.mark name).isSome := by
  obtain ⟨-, rfl⟩ := htaken
  split
  · exact isSome_eraseAt h
  · exact h

theorem isSome_adjust {name' : Nat} {f : Bookmark → Bookmark} {marks : List (Nat × Bookmark)}
    (h : (marks.lookup name).isSome) : ((Lib.adjust name' f marks).lookup name).isSome := by
  by_cases hname : name = name'
  · subst hname
    rw [Lib.lookup_adjust_self, Option.isSome_map]
    exact h
  · rwa [Lib.lookup_adjust_ne hname]

theorem meaning_mark {op : ListOp α} {fDel : Bool} (h : op.Meaning fDel m r m')
    (hquiet : (Command.on l op).Undisturbed l name) (hname : (m.mark name).isSome) :
    (m'.mark name).isSome := by
  cases op with
  | isEmpty | count | peek | findFirst | forEach =>
      obtain ⟨-, rfl⟩ := h
      exact hname
  | append | enqueue | prepend | push => exact isSome_put hname h
  | pop | dequeue => exact isSome_taken hname h
  | deleteAll f =>
      obtain ⟨-, rfl⟩ := h
      exact isSome_purge hname
  | sort f => exact absurd rfl hquiet
  | iteratorCreate name' =>
      cases name' with
      | none =>
          obtain ⟨-, rfl⟩ := h
          exact hname
      | some name' =>
          obtain ⟨-, rfl⟩ := h
          rw [Marked.mark, Marked.open_, List.lookup_cons]
          cases name == name' with
          | true => rfl
          | false => exact hname
  | iteratorReset name' =>
      obtain ⟨-, rfl⟩ := h
      exact isSome_adjust hname
  | iteratorDestroy name' =>
      obtain ⟨-, rfl⟩ := h
      rw [Marked.mark, Marked.close, Lib.lookup_discard_ne fun he => hquiet ⟨rfl, he.symm⟩]
      exact hname
  | next name' =>
      obtain ⟨-, -, -, rfl⟩ := h
      exact isSome_adjust hname
  | insert chunk name' x =>
      obtain ⟨b, -, hput⟩ := h
      exact isSome_put hname hput
  | remove name' =>
      obtain ⟨b, -, hcases⟩ := h
      split at hcases
      · exact isSome_taken hname hcases
      · obtain ⟨-, rfl⟩ := hcases
        exact hname

/-! ## Runs -/

section Runs

variable {w w' : World α} {a a' : Shelf α} {cells : Nat → List Nat} {fDel : Bool}

/-- Other lists do not matter to a list. -/
theorem meaning_other (h : c.Meaning a r a') (hready : c.Ready w) (hholds : Holds w cells a)
    (hal : a l = some (fDel, m)) (hquiet : c.Undisturbed l name) :
    (∃ op, c = .on l op) ∨ a' l = some (fDel, m) ∧ c ≠ .on l (.next name) := by
  cases c with
  | create l' fDel' =>
      right
      cases l' with
      | none =>
          obtain ⟨-, rfl⟩ := h
          exact ⟨hal, by simp⟩
      | some l' =>
          obtain ⟨-, rfl⟩ := h
          have hne : l ≠ l' := by
            rintro rfl
            obtain ⟨list, hlist, -⟩ := hholds.live l fDel m hal
            have hnone : w.lists l = none := hready
            rw [hnone] at hlist
            cases hlist
          exact ⟨(Function.update_of_ne hne ..).trans hal, by simp⟩
  | destroy l' =>
      obtain ⟨-, -, -, -, rfl⟩ := h
      exact .inr ⟨(Function.update_of_ne (Ne.symm hquiet) ..).trans hal, by simp⟩
  | on l' op =>
      by_cases hne : l' = l
      · exact .inl ⟨op, by rw [hne]⟩
      · obtain ⟨-, -, -, -, -, rfl⟩ := h
        exact .inr ⟨(Function.update_of_ne (Ne.symm hne) ..).trans hal, by simp [hne]⟩

/-- The nodes from a position of a chain on. -/
theorem nodesFrom_chain {s : State α} {cells : List Nat} {items : List α} (h : Chain s cells items)
    (hk : k ≤ items.length) : NodesFrom s.mem cells[k]? (items.drop k) := by
  obtain ⟨n, hn⟩ : ∃ n, items.length - k = n := ⟨_, rfl⟩
  induction n generalizing k with
  | zero =>
      rw [List.getElem?_eq_none (by rw [h.length]; omega), List.drop_eq_nil_of_le (by omega)]
      exact .nil
  | succ n ih =>
      obtain ⟨p, hp, hnode⟩ := h.getElem? (by omega : k < items.length)
      rw [hp, List.drop_eq_getElem_cons (by omega)]
      exact .cons hnode (ih (by omega) (by omega))

/-- What lies ahead of an iterator is what lies ahead of its bookmark. -/
theorem Holds.ahead (hholds : Holds w cells a) (hal : a l = some (fDel, m))
    (hname : (m.mark name).isSome) : w.Ahead l name (m.rest name) := by
  obtain ⟨list, hlist, -, hrep⟩ := hholds.live l fDel m hal
  obtain ⟨b, hb⟩ := Option.isSome_iff_exists.mp hname
  refine ⟨list, itOf (cells l) b, hlist, lookup_iNext hrep hb, ?_⟩
  rw [Marked.rest_of_mark hb]
  exact nodesFrom_chain hrep.chain (Marked.fits_mark hb)

theorem runs_shifts (hholds : Holds w cells a) (hal : a l = some (fDel, m))
    (hname : (m.mark name).isSome) (hrun : Runs w c r w') (hquiet : c.Undisturbed l name) :
    ∃ cells' a' m', Holds w' cells' a' ∧ a' l = some (fDel, m') ∧ (m'.mark name).isSome ∧
      ∃ gained lost, Shifts l name c r (m.rest name) (m'.rest name) gained lost := by
  obtain ⟨cells', a', hmeaning, hholds'⟩ := runs_simulate hholds hrun
  rcases meaning_other hmeaning hrun.1 hholds hal hquiet with ⟨op, rfl⟩ | ⟨hal', hother⟩
  · obtain ⟨fDel', m₁, m', hal₁, hop, rfl⟩ := hmeaning
    rw [hal] at hal₁
    obtain ⟨rfl, rfl⟩ := Prod.mk.inj (Option.some.inj hal₁)
    -- a new iterator has a name of its own, so it does not hide the one that walks
    have hnew : ∀ name', op = .iteratorCreate (some name') → name' ≠ name := by
      rintro name' rfl rfl
      obtain ⟨list, hlist, hready⟩ := hrun.1
      obtain ⟨list', hlist', -, hrep⟩ := hholds.live l fDel m hal
      obtain rfl : list = list' := Option.some.inj (hlist.symm.trans hlist')
      have hnone : list.iNext.lookup name' = none := hready
      rw [show list.iNext = _ from hrep.iNext, Lib.lookup_transfer, Option.map_eq_none_iff] at hnone
      rw [Marked.mark, hnone] at hname
      cases hname
    exact ⟨cells', _, m', hholds', Function.update_self .., meaning_mark hop hquiet hname,
      meaning_shifts hop hquiet hname hnew⟩
  · exact ⟨cells', a', m, hholds', hal', hname, [], [], .keep hother⟩

theorem walk_of_runs {tr : List (Command α × Answer α)} (hholds : Holds w cells a)
    (hal : a l = some (fDel, m)) (hname : (m.mark name).isSome) (hrun : Trace Runs w tr w')
    (hquiet : ∀ e ∈ tr, e.1.Undisturbed l name) :
    ∃ cells' a' m' gained lost, Holds w' cells' a' ∧ a' l = some (fDel, m') ∧
      (m'.mark name).isSome ∧ Accounts l name w tr w' gained lost ∧
      Walked (m.rest name) (tr.flatMap (passedBy l name)) (m'.rest name) gained lost ∧
      ((∀ e ∈ tr, ¬e.1.Inserts l) → gained = []) ∧ ((∀ e ∈ tr, ¬e.1.Removes l) → lost = []) ∧
      (tr.getLast? = some (.on l (.next name), .item none) → m'.rest name = []) := by
  induction hrun with
  | nil =>
      exact ⟨cells, a, m, [], [], hholds, hal, hname, .start, .start, fun _ => rfl, fun _ => rfl,
        fun hlast => by cases hlast⟩
  | @snoc t t' tr c r hrun hstep ih =>
      obtain ⟨cells₁, a₁, m₁, gained₁, lost₁, hholds₁, hal₁, hname₁, hcalls, hwalk, hg, hl, -⟩ :=
        ih fun e he => hquiet e (List.mem_append_left _ he)
      have hlast : (c, r) ∈ tr ++ [(c, r)] := List.mem_append_right _ (List.mem_singleton_self _)
      obtain ⟨cells₂, a₂, m₂, hholds₂, hal₂, hname₂, gained₂, lost₂, hshifts⟩ :=
        runs_shifts hholds₁ hal₁ hname₁ hstep (hquiet _ hlast)
      refine ⟨cells₂, a₂, m₂, gained₁ ++ gained₂, lost₁ ++ lost₂, hholds₂, hal₂, hname₂,
        .call hcalls hstep (hholds₁.ahead hal₁ hname₁) (hholds₂.ahead hal₂ hname₂) hshifts, ?_,
        fun hnot => ?_, fun hnot => ?_, fun hend => ?_⟩
      · rw [List.flatMap_append, List.flatMap_singleton]
        exact hshifts.walked hwalk
      · rw [hshifts.gained_nil (hnot _ hlast), hg fun e he => hnot e (List.mem_append_left _ he)]
        rfl
      · rw [hshifts.lost_nil (hnot _ hlast), hl fun e he => hnot e (List.mem_append_left _ he)]
        rfl
      · rw [List.getLast?_append, List.getLast?_singleton, Option.some_or] at hend
        cases hend
        -- only at the end does `list_next` give nothing
        generalize m₁.rest name = before at hshifts
        generalize m₂.rest name = after at hshifts ⊢
        cases hshifts with
        | pause => rfl
        | keep hc => exact absurd rfl hc

/-- A new iterator, or one that was reset, stands in front of the list. -/
theorem rest_of_new (hholds : Holds w cells a) (hrun : Runs w c r w')
    (hc : c = .on l (.iteratorCreate (some name)) ∨ c = .on l (.iteratorReset name)) :
    ∃ cells' a' fDel m, Holds w' cells' a' ∧ a' l = some (fDel, m) ∧ (m.mark name).isSome ∧
      m.rest name = m.items := by
  obtain ⟨cells', a', hmeaning, hholds'⟩ := runs_simulate hholds hrun
  have hfront : ∀ {m : Marked Nat α}, m.mark name = some Bookmark.start →
      (m.mark name).isSome ∧ m.rest name = m.items := by
    intro m hm
    rw [Marked.rest_of_mark hm, hm]
    exact ⟨rfl, List.drop_zero⟩
  rcases hc with rfl | rfl
  · obtain ⟨fDel, m, -, -, ⟨-, rfl⟩, rfl⟩ := hmeaning
    refine ⟨cells', _, fDel, _, hholds', Function.update_self .., hfront ?_⟩
    rw [Marked.mark, Marked.open_, List.lookup_cons, beq_self_eq_true]
  · obtain ⟨fDel, m, -, hal, ⟨-, rfl⟩, rfl⟩ := hmeaning
    refine ⟨cells', _, fDel, _, hholds', Function.update_self .., hfront ?_⟩
    obtain ⟨list, hlist, hready⟩ := hrun.1
    obtain ⟨list', hlist', -, hrep⟩ := hholds.live l fDel m hal
    obtain rfl : list = list' := Option.some.inj (hlist.symm.trans hlist')
    obtain ⟨b, hb⟩ := hrep.mark_of_isSome hready
    rw [Marked.mark, Marked.rewind, Lib.lookup_adjust_self, show m.marks.lookup name = some b from hb]
    rfl

end Runs

/-- What an iterator passes from the front of a list on, while calls of any kind are made on any lists:
all that the list held, and was put in ahead of it, is passed, lies ahead of it, or was taken out
ahead of it. -/
theorem walk_accounts {w w' : World α} {tr tr' : List (Command α × Answer α)}
    (h : Trace Runs World.start (tr ++ [(c, r)]) w)
    (hc : c = .on l (.iteratorCreate (some name)) ∨ c = .on l (.iteratorReset name))
    (h' : Trace Runs w tr' w') (hquiet : ∀ e ∈ tr', e.1.Undisturbed l name) :
    ∃ items left gained lost, w.Shows l items ∧ w.Ahead l name items ∧ w'.Ahead l name left ∧
      Accounts l name w tr' w' gained lost ∧
      (items ++ gained).Perm (tr'.flatMap (passedBy l name) ++ left ++ lost) ∧
      ((∀ e ∈ tr', ¬e.1.Inserts l) →
        gained = [] ∧ (tr'.flatMap (passedBy l name) ++ left).Sublist items) ∧
      ((∀ e ∈ tr', ¬e.1.Removes l) →
        lost = [] ∧ items.Sublist (tr'.flatMap (passedBy l name) ++ left)) ∧
      (tr'.getLast? = some (.on l (.next name), .item none) → left = []) := by
  obtain ⟨w₀, hrun, hstep⟩ := h.of_snoc
  obtain ⟨a₀, cells₀, -, hholds₀, -⟩ := lists_refine hrun
  obtain ⟨cells, a, fDel, m, hholds, hal, hname, hrest⟩ := rest_of_new hholds₀ hstep hc
  obtain ⟨cells', a', m', gained, lost, hholds', hal', hname', hcalls, hwalk, hgained, hlost, hend⟩ :=
    walk_of_runs hholds hal hname h' hquiet
  have hahead := hholds.ahead hal hname
  rw [hrest] at hwalk hahead
  refine ⟨m.items, m'.rest name, gained, lost, hholds.shows hal, hahead, hholds'.ahead hal' hname',
    hcalls, hwalk.perm, fun hnot => ?_, fun hnot => ?_, hend⟩
  · exact ⟨hgained hnot, hwalk.sublist (hgained hnot)⟩
  · exact ⟨hlost hnot, hwalk.whole (hlost hnot)⟩

/-- The list 5, 7, and an iterator in front of it. -/
def grownBefore : List (Command Nat × Answer Nat) :=
  [(.create (some 0) true, .handle (some 0)), (.on 0 (.append (some 100) 5), .item (some 5)),
    (.on 0 (.append none 7), .item (some 7))]

/-- The iterator walks; on its way 9 is put behind it, and 8 ahead of it. -/
def grownWalk : List (Command Nat × Answer Nat) :=
  [(.on 0 (.next 1), .item (some 5)), (.on 0 (.push none 9), .item (some 9)),
    (.on 0 (.append none 8), .item (some 8)), (.on 0 (.next 1), .item (some 7)),
    (.on 0 (.next 1), .item (some 8)), (.on 0 (.next 1), .item none)]

theorem walk_accounts_grown : ∃ (w w' : World Nat) (items gained lost : List Nat),
    Trace Runs World.start (grownBefore ++ [(.on 0 (.iteratorCreate (some 1)), .handle (some 1))]) w ∧
    Trace Runs w grownWalk w' ∧ w.Shows 0 items ∧ w'.Ahead 0 1 [] ∧
    Accounts 0 1 w grownWalk w' gained lost ∧ (items ++ gained).Perm ([5, 7, 8] ++ lost) ∧
    items.Sublist [5, 7, 8] := by
  have hnone : ∀ m : Pool (ListNode Nat), m.Fresh none := fun _ _ _ h => by cases h
  obtain ⟨w, run, w', run'⟩ : ∃ w, Trace Runs (World.start : World Nat)
      (grownBefore ++ [(.on 0 (.iteratorCreate (some 1)), .handle (some 1))]) w ∧
      ∃ w', Trace Runs w grownWalk w' := by
    refine ⟨_, .cons ⟨rfl, 0, rfl⟩ <| .cons ⟨⟨_, rfl, fun _ _ _ _ _ => rfl⟩, 0, rfl⟩ <|
      .cons ⟨⟨_, rfl, hnone _⟩, 0, rfl⟩ <| .cons ⟨⟨_, rfl, rfl⟩, 0, rfl⟩ .nil, ?_⟩
    exact ⟨_, .cons ⟨⟨_, rfl, rfl⟩, 0, rfl⟩ <| .cons ⟨⟨_, rfl, hnone _⟩, 0, rfl⟩ <|
      .cons ⟨⟨_, rfl, hnone _⟩, 0, rfl⟩ <| .cons ⟨⟨_, rfl, rfl⟩, 0, rfl⟩ <|
      .cons ⟨⟨_, rfl, rfl⟩, 0, rfl⟩ <| .cons ⟨⟨_, rfl, rfl⟩, 0, rfl⟩ .nil⟩
  obtain ⟨items, left, gained, lost, hshows, -, hahead, hcalls, hperm, -, hremoves, hend⟩ :=
    walk_accounts run (.inl rfl) run' (by simp [grownWalk, Command.Undisturbed])
  obtain rfl : left = [] := hend rfl
  exact ⟨w, w', items, gained, lost, run, run', hshows, hahead, hcalls, hperm,
    (hremoves (by simp [grownWalk, Command.Removes])).2⟩

end Pdsh.LinkedList
