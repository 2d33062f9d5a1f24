import Mathlib.Logic.Basic

/-!
# Programs that talk to a peer

A program reads and writes bytes and makes calls whose answers come from outside.
`Prog B S α` is its tree of possible continuations. A read of `n` bytes is answered
with up to `n` bytes, none of them at the end of the input; a write with the number
of bytes that were taken, zero when it failed. A loop is unrolled to some depth and is
`unfinished` behind it, so that what holds at every depth holds of the loop.

* `follow` runs a program along a list of events, what came in and what went out;
* `Safe` is the weakest precondition that keeps every call `allowed`, over whatever is
  read and every answer that is `admitted`, and `Safe.calls` reads it back on runs.
-/

namespace Lib.Process

/-- The calls a program can make, and the answers to each. -/
structure Sig where
  Call : Type
  Answer : Call → Type

/-- A program over bytes `B` and calls `S` that stops with an `α`. -/
inductive Prog (B : Type) (S : Sig) (α : Type) where
  | done (a : α)
  | read (n : Nat) (k : List B → Prog B S α)
  | write (bytes : List B) (k : Nat → Prog B S α)
  | call (c : S.Call) (k : S.Answer c → Prog B S α)
  | unfinished

variable {B α β γ : Type} {S : Sig}

namespace Prog

/-- Continue with `f` where the program stops. -/
protected def bind : Prog B S α → (α → Prog B S β) → Prog B S β
  | .done a, f => f a
  | .read n k, f => .read n fun bs => (k bs).bind f
  | .write bytes k, f => .write bytes fun n => (k n).bind f
  | .call c k, f => .call c fun a => (k a).bind f
  | .unfinished, _ => .unfinished

instance : Monad (Prog B S) where
  pure := .done
  bind := Prog.bind

@[simp] theorem pure_eq (a : α) : (pure a : Prog B S α) = .done a := rfl

@[simp] theorem done_bind (a : α) (f : α → Prog B S β) : (Prog.done a >>= f) = f a := rfl

@[simp] theorem read_bind (n : Nat) (k : List B → Prog B S α) (f : α → Prog B S β) :
    (Prog.read n k >>= f) = .read n fun bs => k bs >>= f := rfl

@[simp] theorem write_bind (bytes : List B) (k : Nat → Prog B S α) (f : α → Prog B S β) :
    (Prog.write bytes k >>= f) = .write bytes fun n => k n >>= f := rfl

@[simp] theorem call_bind (c : S.Call) (k : S.Answer c → Prog B S α) (f : α → Prog B S β) :
    (Prog.call c k >>= f) = .call c fun a => k a >>= f := rfl

@[simp] theorem unfinished_bind (f : α → Prog B S β) :
    ((Prog.unfinished : Prog B S α) >>= f) = .unfinished := rfl

theorem bind_assoc (p : Prog B S α) (f : α → Prog B S β) (g : β → Prog B S γ) :
    (p >>= f >>= g) = (p >>= fun a => f a >>= g) := by
  induction p with
  | done a => rfl
  | read n k ih => exact congrArg (Prog.read n) (funext ih)
  | write bytes k ih => exact congrArg (Prog.write bytes) (funext ih)
  | call c k ih => exact congrArg (Prog.call c) (funext ih)
  | unfinished => rfl

/-- One write, and how many bytes it took. -/
def send (bytes : List B) : Prog B S Nat := .write bytes .done

/-- One call. -/
def ask (c : S.Call) : Prog B S (S.Answer c) := .call c .done

/-- One byte, or none at the end of the input. -/
def recvByte : Prog B S (Option B) := .read 1 fun bs => .done bs.head?

/-- Reads until `n` bytes are there, in at most `fuel` reads; none at the end of the input. -/
def recvLoop : Nat → Nat → Prog B S (Option (List B))
  | _, 0 => .done (some [])
  | 0, _ + 1 => .unfinished
  | fuel + 1, n + 1 => .read (n + 1) fun bs =>
      if bs = [] then .done none
      else recvLoop fuel (n + 1 - bs.length) >>= fun more => .done (more.map (bs ++ ·))

/-- Reads until `n` bytes are there: no read brings less than one. -/
def recvAll (n : Nat) : Prog B S (Option (List B)) := recvLoop n n

/-- Writes until all bytes are taken, in at most `fuel` writes. -/
def sendLoop : Nat → List B → Prog B S Bool
  | _, [] => .done true
  | 0, _ :: _ => .unfinished
  | fuel + 1, b :: bytes => .write (b :: bytes) fun n =>
      if n = 0 then .done false else sendLoop fuel ((b :: bytes).drop n)

/-- Writes until all bytes are taken: no write that succeeds takes less than one. -/
def sendAll (bytes : List B) : Prog B S Bool := sendLoop bytes.length bytes

end Prog

/-! ## Runs -/

/-- What happens between a program and its surroundings. -/
inductive Event (B : Type) (S : Sig) where
  | read (bytes : List B)
  | write (bytes : List B) (taken : Nat)
  | call (c : S.Call) (a : S.Answer c)

/-- The program after the events, none if it does not take part in them. -/
def Prog.follow [DecidableEq B] [DecidableEq S.Call] :
    Prog B S α → List (Event B S) → Option (Prog B S α)
  | p, [] => some p
  | .read n k, .read bytes :: es => if bytes.length ≤ n then (k bytes).follow es else none
  | .write bytes k, .write bytes' taken :: es =>
      if bytes' = bytes ∧ taken ≤ bytes.length then (k taken).follow es else none
  | .call c k, .call c' a :: es => if h : c' = c then (k (h ▸ a)).follow es else none
  | _, _ :: _ => none

section Runs

variable [DecidableEq B] [DecidableEq S.Call] {p : Prog B S α} {f : α → Prog B S β} {q : Prog B S β}
  {es : List (Event B S)}

@[simp] theorem Prog.follow_nil (p : Prog B S α) : p.follow [] = some p := by
  cases p <;> rfl

theorem Prog.follow_read {n : Nat} {k : List B → Prog B S α} {bytes : List B}
    (hlen : bytes.length ≤ n) (es : List (Event B S)) :
    (Prog.read n k).follow (.read bytes :: es) = (k bytes).follow es :=
  if_pos hlen

theorem Prog.follow_write {bytes : List B} {k : Nat → Prog B S α} {taken : Nat}
    (hlen : taken ≤ bytes.length) (es : List (Event B S)) :
    (Prog.write bytes k).follow (.write bytes taken :: es) = (k taken).follow es :=
  if_pos ⟨rfl, hlen⟩

theorem Prog.follow_call (c : S.Call) (k : S.Answer c → Prog B S α) (a : S.Answer c)
    (es : List (Event B S)) :
    (Prog.call c k).follow (.call c a :: es) = (k a).follow es := dif_pos rfl

/-- What holds of a run is shown from its end, event by event. -/
@[elab_as_elim]
theorem Prog.follow_induction {q : Prog B S α}
    {motive : (p : Prog B S α) → (es : List (Event B S)) → p.follow es = some q → Prop}
    (nil : motive q [] (follow_nil q))
    (read : ∀ n k bytes es (hlen : bytes.length ≤ n) (h : (k bytes).follow es = some q),
      motive (k bytes) es h →
      motive (.read n k) (.read bytes :: es) ((follow_read hlen es).trans h))
    (write : ∀ bytes k taken es (hlen : taken ≤ bytes.length) (h : (k taken).follow es = some q),
      motive (k taken) es h → motive (.write bytes k) (.write bytes taken :: es)
        ((follow_write hlen es).trans h))
    (call : ∀ c k a es (h : (k a).follow es = some q), motive (k a) es h →
      motive (.call c k) (.call c a :: es) ((follow_call c k a es).trans h))
    {p : Prog B S α} {es : List (Event B S)} (h : p.follow es = some q) : motive p es h := by
  induction es generalizing p with
  | nil =>
      rw [follow_nil] at h
      cases h
      exact nil
  | cons e es ih =>
      cases e with
      | read bytes =>
          cases p with
          | read n k =>
              obtain ⟨hlen, h⟩ := Option.ite_none_right_eq_some.mp h
              exact read n k bytes es hlen h (ih h)
          | _ => cases h
      | write bytes taken =>
          cases p with
          | write bytes' k =>
              obtain ⟨⟨heq, hlen⟩, hrest⟩ := Option.ite_none_right_eq_some.mp h
              subst heq
              exact write bytes k taken es hlen hrest (ih hrest)
          | _ => cases h
      | call c a =>
          cases p with
          | call c' k =>
              obtain ⟨rfl, h⟩ := Option.dite_none_right_eq_some.mp h
              exact call c k a es h (ih h)
          | _ => cases h

/-- A run of a sequence is a run inside its first part, or all of it and a run of the second. -/
theorem Prog.follow_bind (h : (p >>= f).follow es = some q) :
    (∃ p', p.follow es = some p' ∧ (∀ a, p' ≠ .done a) ∧ q = p' >>= f) ∨
      ∃ es₁ es₂ a, es = es₁ ++ es₂ ∧ p.follow es₁ = some (.done a) ∧ (f a).follow es₂ = some q := by
  -- over the events: each is one of the first part, until that is done
  generalize hr : (p >>= f) = r at h
  induction h using Prog.follow_induction generalizing p with
  | nil =>
      cases p with
      | done a =>
          rw [Prog.done_bind] at hr
          exact .inr ⟨[], [], a, rfl, rfl, by rw [hr, Prog.follow_nil]⟩
      | _ => exact .inl ⟨_, rfl, fun _ => nofun, hr.symm⟩
  | read n k bytes es hlen h ih =>
      cases p with
      | done a =>
          rw [Prog.done_bind] at hr
          exact .inr ⟨[], .read bytes :: es, a, rfl, rfl, by rwa [hr, Prog.follow_read hlen]⟩
      | read n' k' =>
          cases hr
          rcases ih rfl with ⟨p', hp', hopen, rfl⟩ | ⟨es₁, es₂, a, rfl, hfirst, hsecond⟩
          · exact .inl ⟨p', (Prog.follow_read hlen _).trans hp', hopen, rfl⟩
          · exact .inr ⟨.read bytes :: es₁, es₂, a, rfl, (Prog.follow_read hlen _).trans hfirst,
              hsecond⟩
      | _ => cases hr
  | write bytes k taken es hlen h ih =>
      cases p with
      | done a =>
          rw [Prog.done_bind] at hr
          exact .inr ⟨[], .write bytes taken :: es, a, rfl, rfl,
            by rwa [hr, Prog.follow_write hlen]⟩
      | write bytes' k' =>
          cases hr
          rcases ih rfl with ⟨p', hp', hopen, rfl⟩ | ⟨es₁, es₂, a, rfl, hfirst, hsecond⟩
          · exact .inl ⟨p', (Prog.follow_write hlen _).trans hp', hopen, rfl⟩
          · exact .inr ⟨.write bytes taken :: es₁, es₂, a, rfl,
              (Prog.follow_write hlen _).trans hfirst, hsecond⟩
      | _ => cases hr
  | call c k b es h ih =>
      cases p with
      | done a =>
          rw [Prog.done_bind] at hr
          exact .inr ⟨[], .call c b :: es, a, rfl, rfl, by rwa [hr, Prog.follow_call]⟩
      | call c' k' =>
          cases hr
          rcases ih rfl with ⟨p', hp', hopen, rfl⟩ | ⟨es₁, es₂, a, rfl, hfirst, hsecond⟩
          · exact .inl ⟨p', (Prog.follow_call c _ b _).trans hp', hopen, rfl⟩
          · exact .inr ⟨.call c b :: es₁, es₂, a, rfl, (Prog.follow_call c _ b _).trans hfirst,
              hsecond⟩
      | _ => cases hr

end Runs

/-- The bytes the peer is given. -/
def sent : List (Event B S) → List B :=
  List.flatMap fun
    | .write bytes taken => bytes.take taken
    | _ => []

/-- What a program that only reads gives on the bytes that have come in, and what it leaves of
them: each read takes as many as it may. -/
def Prog.feed : Prog B S α → List B → Option (α × List B)
  | .done a, s => some (a, s)
  | .read n k, s => (k (s.take n)).feed (s.drop n)
  | _, _ => none

theorem Prog.feed_bind (p : Prog B S α) (f : α → Prog B S β) (s : List B) :
    (p >>= f).feed s = (p.feed s).bind fun r => (f r.1).feed r.2 := by
  induction p generalizing s with
  | done a => rfl
  | read n k ih => exact ih _ _
  | write bytes k ih => rfl
  | call c k ih => rfl
  | unfinished => rfl

@[simp] theorem Prog.feed_pure (a : α) (s : List B) : (pure a : Prog B S α).feed s = some (a, s) :=
    rfl

@[simp] theorem Prog.feed_recvByte_cons (b : B) (s : List B) :
    (Prog.recvByte : Prog B S _).feed (b :: s) = some (some b, s) := rfl

@[simp] theorem Prog.feed_recvByte_nil : (Prog.recvByte : Prog B S _).feed [] = some (none, []) :=
    rfl

/-! ## Safety over everything that may come in -/

/-- Every call is `allowed` and a result is in `post`, whatever is read and as long as the
answers are `admitted`. -/
def Prog.Safe (allowed : S.Call → Prop) (admitted : (c : S.Call) → S.Answer c → Prop) :
    Prog B S α → (α → Prop) → Prop
  | .done a, post => post a
  | .read _ k, post => ∀ bs, (k bs).Safe allowed admitted post
  | .write _ k, post => ∀ n, (k n).Safe allowed admitted post
  | .call c k, post => allowed c ∧ ∀ a, admitted c a → (k a).Safe allowed admitted post
  | .unfinished, _ => True

namespace Prog.Safe

variable {allowed : S.Call → Prop} {admitted : (c : S.Call) → S.Answer c → Prop}
  {p : Prog B S α} {post : α → Prop}

theorem bind {f : α → Prog B S β} {post' : β → Prop} (h : p.Safe allowed admitted post)
    (hf : ∀ a, post a → (f a).Safe allowed admitted post') :
    (p >>= f).Safe allowed admitted post' := by
  induction p with
  | done a => exact hf a h
  | read n k ih => exact fun bs => ih bs (h bs)
  | write bytes k ih => exact fun n => ih n (h n)
  | call c k ih => exact ⟨h.1, fun a ha => ih a (h.2 a ha)⟩
  | unfinished => trivial

theorem mono {post' : α → Prop} (h : p.Safe allowed admitted post)
    (hpost : ∀ a, post a → post' a) : p.Safe allowed admitted post' := by
  induction p with
  | done a => exact hpost a h
  | read n k ih => exact fun bs => ih bs (h bs)
  | write bytes k ih => exact fun n => ih n (h n)
  | call c k ih => exact ⟨h.1, fun a ha => ih a (h.2 a ha)⟩
  | unfinished => trivial

theorem recvLoop (fuel n : Nat) :
    (Prog.recvLoop fuel n : Prog B S _).Safe allowed admitted fun _ => True := by
  induction fuel generalizing n with
  | zero => cases n <;> trivial
  | succ fuel ih =>
      cases n with
      | zero => trivial
      | succ n =>
          intro bs
          dsimp only
          split
          · trivial
          · exact (ih _).bind fun _ _ => trivial

theorem recvAll (n : Nat) : (Prog.recvAll n : Prog B S _).Safe allowed admitted fun _ => True :=
  recvLoop n n

theorem sendLoop (fuel : Nat) (bytes : List B) :
    (Prog.sendLoop fuel bytes : Prog B S _).Safe allowed admitted fun _ => True := by
  induction fuel generalizing bytes with
  | zero => cases bytes <;> trivial
  | succ fuel ih =>
      cases bytes with
      | nil => trivial
      | cons b bytes =>
          intro n
          dsimp only
          split
          · trivial
          · exact ih _

theorem sendAll (bytes : List B) :
    (Prog.sendAll bytes : Prog B S _).Safe allowed admitted fun _ => True :=
  sendLoop bytes.length bytes

variable [DecidableEq B] [DecidableEq S.Call]

/-- In a run of a safe program every call is allowed, if its answers are admitted. -/
theorem calls {es : List (Event B S)} {q : Prog B S α}
    (h : p.Safe allowed admitted post) (hrun : p.follow es = some q)
    (hadm : ∀ c a, Event.call c a ∈ es → admitted c a) {c : S.Call} {a : S.Answer c}
    (hc : Event.call c a ∈ es) : allowed c := by
  induction hrun using Prog.follow_induction with
  | nil => cases hc
  | read n k bytes es hlen hrun ih =>
      exact ih (h bytes) (fun c a hmem => hadm c a (List.mem_cons_of_mem _ hmem))
        ((List.mem_cons.mp hc).resolve_left nofun)
  | write bytes k taken es hlen hrun ih =>
      exact ih (h taken) (fun c a hmem => hadm c a (List.mem_cons_of_mem _ hmem))
        ((List.mem_cons.mp hc).resolve_left nofun)
  | call c' k a' es hrun ih =>
      rcases List.mem_cons.mp hc with heq | hc
      · cases heq
        exact h.1
      · exact ih (h.2 a' (hadm _ _ List.mem_cons_self))
          (fun c a hmem => hadm c a (List.mem_cons_of_mem _ hmem)) hc

/-- A call that a program does not make comes behind it. -/
theorem behind {f : α → Prog B S β} {q : Prog B S β} {before after : List (Event B S)} {c : S.Call}
    {a : S.Answer c}
    (h : p.Safe allowed (fun _ _ => True) post)
    (hrun : (p >>= f).follow (before ++ .call c a :: after) = some q)
    (hc : ¬ allowed c) : ∃ x mid, (f x).follow (mid ++ .call c a :: after) = some q := by
  rcases Prog.follow_bind hrun with ⟨p', hp', -, -⟩ | ⟨es₁, es₂, x, heq, hfirst, hsecond⟩
  · exact absurd (h.calls hp' (fun _ _ _ => trivial) (List.mem_append_right _ List.mem_cons_self))
      hc
  rcases List.append_eq_append_iff.mp heq with ⟨mid, rfl, htail⟩ | ⟨mid, rfl, rfl⟩
  · cases mid with
    | nil =>
        rw [List.nil_append] at htail
        exact ⟨x, [], htail ▸ hsecond⟩
    | cons e mid =>
        cases htail
        exact absurd (h.calls hfirst (fun _ _ _ => trivial)
          (List.mem_append_right _ List.mem_cons_self)) hc
  · exact ⟨x, mid, hsecond⟩

end Prog.Safe

/-! ## What is sent -/

@[simp] theorem sent_nil : sent ([] : List (Event B S)) = [] := rfl

@[simp] theorem sent_read (bytes : List B) (es : List (Event B S)) :
    sent (.read bytes :: es) = sent es := rfl

@[simp] theorem sent_call (c : S.Call) (a : S.Answer c) (es : List (Event B S)) :
    sent (.call c a :: es) = sent es := rfl

end Lib.Process
