import Pdsh.Hostlist.Walk
import Pdsh.Opt.Wcoll

/-!
# Filtering by a regular expression

`hostlist_filter_regex` walks over a list and removes what does not pass. A walk that removes may
turn back (`Pdsh.Hostlist.Walk`), but only to hosts that it has kept, and these pass again. What is
left are the hosts that pass, in order (`filter_regex_iff`); they are counted by an `int`. The
expression sees the names as `hostlist_next` writes them, with at most 14 digits.
-/

namespace Pdsh

open Lib

variable {hl hl' : Hostlist} {i : Iterator} {s s' : Cursor Entry} {keep : Entry → Bool} {a : Entry}

/-- The expression of the filter is a predicate on names. -/
def Env.matching (env : Env) (p : CStr → Bool) : Env := { env with regexec := fun _ host => if p host then 0 else 1 }

/-- The hosts that stay: those that match, or those that do not when they are excluded. -/
def RegexInfo.keeps (re : RegexInfo) (p : CStr → Bool) (host : CStr) : Bool := p host != re.exclude

/-- The hosts that stay, by their names as `hostlist_next` writes them. -/
def RegexInfo.keepsEntry (re : RegexInfo) (p : CStr → Bool) (e : Entry) : Bool := re.keeps p e.shown

/-- A cursor behind which all hosts are kept. -/
structure Filtering (keep : Entry → Bool) (s : Cursor Entry) : Prop where
  sound : s.Sound
  behind : ∀ a ∈ s.behind, keep a = true
  small : (s.content.filter keep).length < 2 ^ 31

/-- The hosts in front of which the loop still has to stop. -/
def toRemove (keep : Entry → Bool) (s : Cursor Entry) : Nat := (s.ahead.filter fun a => !keep a).length

/-- One that does not is taken out; what comes again has passed before. -/
theorem Filtering.remove (h : Filtering keep s) (hnext : s.next = some (a, s')) (ha : keep a = false) :
    ∃ q, s'.past = q ++ [a] ∧ q.length < 2 ^ 31 ∧ Filtering keep s'.remove ∧
      s'.remove.content.filter keep = s.content.filter keep ∧
      s'.remove.content.length + 1 = s.content.length ∧ toRemove keep s'.remove + 1 = toRemove keep s := by
  obtain ⟨hsound, hpast, hbehind, hahead⟩ := Cursor.next_some h.sound hnext
  have hcontent := Cursor.next_content h.sound hnext
  have hsplit := (List.dropLast_append_getLast hpast).symm
  -- the element passed last is `a`
  have hlast : s'.before.reverse.flatten ++ s'.past.dropLast = s.behind ∧ s'.past.getLast hpast = a := by
    rw [Cursor.behind, hsplit, ← List.append_assoc] at hbehind
    obtain ⟨hone, htwo⟩ := List.append_inj' hbehind rfl
    exact ⟨hone, List.singleton_inj.mp htwo⟩
  rw [hlast.2] at hsplit
  obtain ⟨hsound', again, hagain, hmore⟩ := Cursor.remove_spec hsound hsplit
  rw [hlast.1] at hagain
  have hpass : ∀ b ∈ again, keep b = true := fun b hb => h.behind b (by rw [hagain]; exact List.mem_append_right _ hb)
  have hsame : s'.remove.content.filter keep = s.content.filter keep := by
    rw [Cursor.content, Cursor.content, hmore, ← List.append_assoc, ← hagain, hahead, List.filter_append,
      List.filter_append, List.filter_cons_of_neg (by simp [ha])]
  have hlen := Cursor.remove_content_length hsound hsplit
  rw [hcontent] at hlen
  refine ⟨_, hsplit, ?_, ⟨hsound', ?_, by rw [hsame]; exact h.small⟩, hsame, hlen, ?_⟩
  · -- the hosts behind are all kept, and of these an int can count
    have hle : s'.past.dropLast.length ≤ (s.content.filter keep).length := by
      have hall : s.behind.filter keep = s.behind := List.filter_eq_self.mpr h.behind
      rw [Cursor.content, List.filter_append, hall, ← hlast.1]
      simp only [List.length_append]
      omega
    exact Nat.lt_of_le_of_lt hle h.small
  · intro b hb
    exact h.behind b (by rw [hagain]; exact List.mem_append_left _ hb)
  · have hnone : (again.filter fun b => !keep b) = [] := by
      rw [List.filter_eq_nil_iff]
      intro b hb
      rw [hpass b hb]
      exact Bool.false_ne_true
    rw [toRemove, toRemove, hmore, List.filter_append, hnone, List.nil_append, hahead,
      List.filter_cons_of_pos (by simp [ha]), List.length_cons]

/-- `hostlist_filter_regex` comes to its end and leaves exactly the hosts that pass, in order, with their
number as the count of the list. -/
def FiltersExactly (env : Env) (re : RegexInfo) (p : CStr → Bool) (hl : Hostlist) : Prop :=
  ∃ hl', hostlistFilterRegex (env.matching p) hl re = .ret hl' ∧ hl'.names = hl.names.filter (re.keeps p) ∧
    (hostlistCount hl').toInt = (hl.names.filter (re.keeps p)).length

/-- The same of the names as `hostlist_next` writes them. -/
def FiltersShown (env : Env) (re : RegexInfo) (p : CStr → Bool) (hl : Hostlist) : Prop :=
  ∃ hl', hostlistFilterRegex (env.matching p) hl re = .ret hl' ∧
    hl'.names = (hl.entries.filter (re.keepsEntry p)).map Entry.name ∧
    (hostlistCount hl').toInt = (hl.entries.filter (re.keepsEntry p)).length

/-- Names with at most 14 digits are written in full. -/
theorem filters_exactly_iff (hw : hl.Wf) (hn : hl.Narrow) (env : Env) (re : RegexInfo) (p : CStr → Bool) :
    FiltersExactly env re p hl ↔ FiltersShown env re p hl := by
  have hshown : ∀ e ∈ hl.entries, e.shown = e.name := by
    have hall := (Hostlist.shown_iff hw).mpr hn
    rw [← hl.entries_name] at hall
    exact List.map_inj_left.mp hall
  have hkeep : hl.entries.filter (re.keepsEntry p) = hl.entries.filter fun e => re.keeps p e.name := by
    refine List.filter_congr fun e he => ?_
    rw [RegexInfo.keepsEntry, hshown e he]
  have hnames : hl.names.filter (re.keeps p) = (hl.entries.filter (re.keepsEntry p)).map Entry.name := by
    rw [hkeep, ← hl.entries_name, List.filter_map]
    rfl
  unfold FiltersExactly FiltersShown
  rw [hnames, List.length_map]

end Pdsh
