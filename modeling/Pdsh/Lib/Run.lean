/-!
# Computations of a process that may end or never return

A call either returns a value, ends the whole process with a reason, or runs
for ever. `Run` is the monad of such calls: whatever follows a call that does
not return is never reached.
-/

namespace Lib

/-- The outcome of a call: a result, the end of the process, or no end at all. -/
inductive Run (ε α : Type) where
  | ret (value : α)
  | exit (reason : ε)
  | hang
deriving DecidableEq, Repr

namespace Run

variable {ε α β : Type}

/-- Continue with `f` when the first call returns. -/
protected def bind : Run ε α → (α → Run ε β) → Run ε β
  | .ret a, f => f a
  | .exit e, _ => .exit e
  | .hang, _ => .hang

instance : Monad (Run ε) where
  pure := .ret
  bind := Run.bind

@[simp] theorem pure_eq (a : α) : (pure a : Run ε α) = .ret a := rfl

@[simp] theorem ret_bind (a : α) (f : α → Run ε β) : (Run.ret a >>= f) = f a := rfl

@[simp] theorem exit_bind (e : ε) (f : α → Run ε β) :
    ((Run.exit e : Run ε α) >>= f) = .exit e := rfl

@[simp] theorem hang_bind (f : α → Run ε β) : ((Run.hang : Run ε α) >>= f) = .hang := rfl

@[simp] theorem bind_ret (x : Run ε α) : (x >>= fun a => .ret a) = x := by
  cases x <;> rfl

theorem bind_assoc {γ : Type} (x : Run ε α) (f : α → Run ε β) (g : β → Run ε γ) :
    (x >>= f >>= g) = (x >>= fun a => f a >>= g) := by
  cases x <;> rfl

/-- A sequence returns exactly when both calls do. -/
theorem bind_eq_ret_iff {x : Run ε α} {f : α → Run ε β} {b : β} :
    (x >>= f) = .ret b ↔ ∃ a, x = .ret a ∧ f a = .ret b := by
  cases x with
  | ret a => simp
  | exit e => simp
  | hang => simp

/-- The call comes back to its caller. -/
def Returns (x : Run ε α) : Prop := ∃ a, x = .ret a

/-- The call ends: it returns or it ends the process. -/
def Ends (x : Run ε α) : Prop := x ≠ .hang

theorem Ends.bind {x : Run ε α} {f : α → Run ε β} (hx : Ends x)
    (hf : ∀ a, x = .ret a → Ends (f a)) : Ends (x >>= f) := by
  cases x with
  | ret a => exact hf a rfl
  | exit e => exact fun h => by cases h
  | hang => exact absurd rfl hx

/-! ## Related computations -/

/-- Two calls that end alike: both return, with related results, or both end
the process for the same reason, or both run for ever. -/
def Rel (R : α → β → Prop) : Run ε α → Run ε β → Prop
  | .ret a, .ret b => R a b
  | .exit e, .exit e' => e = e'
  | .hang, .hang => True
  | _, _ => False

@[simp] theorem rel_ret {R : α → β → Prop} {a : α} {b : β} :
    Rel R (.ret a : Run ε α) (.ret b) ↔ R a b := Iff.rfl

@[simp] theorem rel_exit {R : α → β → Prop} {e e' : ε} :
    Rel R (.exit e : Run ε α) (.exit e' : Run ε β) ↔ e = e' := Iff.rfl

@[simp] theorem rel_hang {R : α → β → Prop} : Rel R (.hang : Run ε α) (.hang : Run ε β) := trivial

/-- Related calls, each continued, are related when the continuations are. -/
theorem Rel.bind {γ δ : Type} {R : α → β → Prop} {S : γ → δ → Prop} {x : Run ε α} {y : Run ε β}
    {f : α → Run ε γ} {g : β → Run ε δ} (h : Rel R x y)
    (hfg : ∀ a b, x = .ret a → y = .ret b → R a b → Rel S (f a) (g b)) :
    Rel S (x >>= f) (y >>= g) := by
  cases x with
  | ret a =>
      cases y with
      | ret b => exact hfg a b rfl rfl h
      | exit e => exact absurd h id
      | hang => exact absurd h id
  | exit e =>
      cases y with
      | ret b => exact absurd h id
      | exit e' => exact h
      | hang => exact absurd h id
  | hang =>
      cases y with
      | ret b => exact absurd h id
      | exit e => exact absurd h id
      | hang => trivial

/-- The same call, continued in two related ways. -/
theorem Rel.bind_same {γ δ : Type} {S : γ → δ → Prop} {x : Run ε α} {f : α → Run ε γ}
    {g : α → Run ε δ} (h : ∀ a, x = .ret a → Rel S (f a) (g a)) : Rel S (x >>= f) (x >>= g) := by
  cases x with
  | ret a => exact h a rfl
  | exit e => rfl
  | hang => trivial

theorem Rel.ret_right {R : α → β → Prop} {x : Run ε α} {b : β} (h : Rel R x (.ret b)) :
    ∃ a, x = .ret a ∧ R a b := by
  cases x with
  | ret a => exact ⟨a, rfl, h⟩
  | exit e => exact absurd h id
  | hang => exact absurd h id

theorem Rel.ret_left {R : α → β → Prop} {y : Run ε β} {a : α} (h : Rel R (.ret a) y) :
    ∃ b, y = .ret b ∧ R a b := by
  cases y with
  | ret b => exact ⟨b, rfl, h⟩
  | exit e => exact absurd h id
  | hang => exact absurd h id

end Run

end Lib
