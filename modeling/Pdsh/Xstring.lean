import Mathlib.Data.List.DropRight
import Pdsh.Libc

/-!
# Strings that grow

`xstrcat` and its relatives append to a string that starts as a null pointer and
is a string from the first call on, also when nothing is appended. `xbasename`
is what a path has behind its last slash.
-/

namespace Pdsh

/-- `xstrcat`: a null pointer becomes a string. -/
def xstrcat (str : Option CStr) (str2 : CStr) : Option CStr := some (str.getD [] ++ str2)

/-- `xstrcatchar`: a NUL adds nothing. -/
def xstrcatchar (str : Option CStr) (c : Char) : Option CStr :=
  some (str.getD [] ++ if c = NUL then [] else [c])

theorem xstrcatchar_eq {str : Option CStr} {c : Char} (hc : c ≠ NUL) :
    xstrcatchar str c = some (str.getD [] ++ [c]) := by
  rw [xstrcatchar, if_neg hc]

/-- `xbasename`: what is behind the last slash. -/
def xbasename (path : CStr) : CStr := path.rtakeWhile fun c => decide (c ≠ '/')

/-- A name without a slash is what is behind the last one. -/
theorem xbasename_name {name : CStr} (h : '/' ∉ name) : xbasename name = name := by
  refine List.rtakeWhile_eq_self_iff.mpr fun c hc => ?_
  rw [decide_eq_true_eq]
  rintro rfl
  exact h hc

/-- Behind a directory as well. -/
theorem xbasename_append {name : CStr} (h : '/' ∉ name) (dir : CStr) :
    xbasename (dir ++ '/' :: name) = name := by
  have hname : ∀ c ∈ name.reverse, decide (c ≠ '/') = true := by
    intro c hc
    rw [decide_eq_true_eq]
    rintro rfl
    exact h (List.mem_reverse.mp hc)
  rw [xbasename, List.rtakeWhile, List.reverse_append, List.reverse_cons, List.append_assoc,
    List.takeWhile_append_of_pos hname]
  simp

end Pdsh
