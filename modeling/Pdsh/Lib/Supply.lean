import Mathlib.Data.Stream.Defs
import Pdsh.Lib.Process

/-!
# Programs whose input is given

`p.supply σ` is the program `p` connected to a peer that sends `σ`: a read is answered with
the next byte of the stream, or with nothing where the stream has none, and the other steps are
left as they are. What is left of the stream comes with the result.

`EveryCall` says that the calls of all runs are `allowed`. It follows from `Safe`; the other way
it is taken apart along a run, step by step.
-/

namespace Lib.Process

variable {B α β : Type} {S : Sig} {p : Prog B S α} {σ : Stream' (Option B)}

namespace Prog

/-- The program with its reads answered by `σ`. -/
def supply : Prog B S α → Stream' (Option B) → Prog B S (α × Stream' (Option B))
  | .done a, σ => .done (a, σ)
  | .read n k, σ => (k (σ.head.toList.take n)).supply σ.tail
  | .write bytes k, σ => .write bytes fun taken => (k taken).supply σ
  | .call c k, σ => .call c fun a => (k a).supply σ
  | .unfinished, _ => .unfinished

@[simp] theorem supply_done (a : α) : (Prog.done a : Prog B S α).supply σ = .done (a, σ) := rfl

@[simp] theorem supply_write (bytes : List B) (k : Nat → Prog B S α) :
    (Prog.write bytes k).supply σ = .write bytes fun taken => (k taken).supply σ := rfl

@[simp] theorem supply_call (c : S.Call) (k : S.Answer c → Prog B S α) :
    (Prog.call c k).supply σ = .call c fun a => (k a).supply σ := rfl

@[simp] theorem supply_unfinished : (Prog.unfinished : Prog B S α).supply σ = .unfinished := rfl

@[simp] theorem supply_recvByte : (Prog.recvByte : Prog B S _).supply σ = .done
    (σ.head, σ.tail) := by
  show Prog.done ((σ.head.toList.take 1).head?, σ.tail) = _
  cases σ.head <;> rfl

/-- What follows a program is given what that has left. -/
theorem supply_bind (p : Prog B S α) (f : α → Prog B S β) (σ : Stream' (Option B)) :
    (p >>= f).supply σ = p.supply σ >>= fun r => (f r.1).supply r.2 := by
  induction p generalizing σ with
  | done a => rfl
  | read n k ih => exact ih _ _
  | write bytes k ih => exact congrArg (Prog.write bytes) (funext fun taken => ih taken σ)
  | call c k ih => exact congrArg (Prog.call c) (funext fun a => ih a σ)
  | unfinished => rfl

/-- The program does not read. -/
def NoRead : Prog B S α → Prop
  | .done _ => True
  | .read .. => False
  | .write _ k => ∀ taken, (k taken).NoRead
  | .call _ k => ∀ a, (k a).NoRead
  | .unfinished => True

/-- A program that does not read leaves the stream. -/
theorem NoRead.supply (h : p.NoRead) (σ : Stream' (Option B)) :
    p.supply σ = p >>= fun a => .done (a, σ) := by
  induction p with
  | done a => rfl
  | read n k ih => exact h.elim
  | write bytes k ih => exact congrArg (Prog.write bytes) (funext fun taken => ih taken (h taken))
  | call c k ih => exact congrArg (Prog.call c) (funext fun a => ih a (h a))
  | unfinished => rfl

end Prog

/-! ## The calls of all runs -/

variable [DecidableEq B] [DecidableEq S.Call] {allowed : S.Call → Prop}

/-- Every call in every run is `allowed`. -/
def Prog.EveryCall (allowed : S.Call → Prop) (p : Prog B S α) : Prop :=
  ∀ es q, p.follow es = some q → ∀ c a, Event.call c a ∈ es → allowed c

namespace Prog.EveryCall

theorem of_safe {post : α → Prop} (h : p.Safe allowed (fun _ _ => True) post) :
    p.EveryCall allowed :=
  fun _ _ hrun _ _ hmem => h.calls hrun (fun _ _ _ => trivial) hmem

theorem of_call {c : S.Call} {k : S.Answer c → Prog B S α} (h : (Prog.call c k).EveryCall allowed)
    (a : S.Answer c) : allowed c ∧ (k a).EveryCall allowed := by
  refine ⟨?_, fun es q hrun c' a' hmem => ?_⟩
  · exact h [.call c a] (k a) ((follow_call c k a []).trans (follow_nil _)) c a List.mem_cons_self
  · exact h (.call c a :: es) q ((follow_call c k a es).trans hrun) c' a'
      (List.mem_cons_of_mem _ hmem)

theorem of_write {bytes : List B} {k : Nat → Prog B S α}
    (h : (Prog.write bytes k).EveryCall allowed) {taken : Nat} (htaken : taken ≤ bytes.length) :
    (k taken).EveryCall allowed := by
  intro es q hrun c a hmem
  exact h (.write bytes taken :: es) q ((follow_write htaken es).trans hrun) c a
    (List.mem_cons_of_mem _ hmem)

end Prog.EveryCall

end Lib.Process
