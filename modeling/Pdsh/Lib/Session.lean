import Mathlib.Order.GameAdd
import Pdsh.Lib.Process
import Pdsh.Lib.Transition

/-!
# Two programs that talk to each other

A `Joint` is two programs with a pipe of bytes from each to the other, each in
surroundings of its own. A read takes any part of what has come in, and waits while
there is nothing; a write puts in any part that fits, and waits while the pipe is full.

A program `Conforms` to a script, the bytes it sends and receives in their order, when it
keeps to it however the bytes are cut, and keeps its `post` where it stops. Two programs
with dual scripts never wait for each other: whatever the order of their steps, both come
to their ends (`Joint.Conforming.inevitable`).
-/

namespace Lib.Process

open Lib.Transition

variable {B α β : Type} {S T : Sig} {E F : Type}

/-! ## Scripts -/

/-- A byte on the connection, from one side. -/
inductive Act (B : Type) where
  | send (b : B)
  | recv (b : B)

/-- The same byte from the other side. -/
def Act.dual : Act B → Act B
  | send b => .recv b
  | recv b => .send b

/-- The script of the other side. -/
def dual (s : List (Act B)) : List (Act B) := s.map Act.dual

def sends (bs : List B) : List (Act B) := bs.map .send

def recvs (bs : List B) : List (Act B) := bs.map .recv

@[simp] theorem dual_nil : dual ([] : List (Act B)) = [] := rfl

@[simp] theorem dual_cons (x : Act B) (s : List (Act B)) : dual (x :: s) = x.dual :: dual s := rfl

@[simp] theorem dual_append (s s' : List (Act B)) : dual (s ++ s') = dual s ++ dual s' :=
  List.map_append

@[simp] theorem dual_sends (bs : List B) : dual (sends bs) = recvs bs := List.map_map

@[simp] theorem dual_recvs (bs : List B) : dual (recvs bs) = sends bs := List.map_map

@[simp] theorem dual_dual (s : List (Act B)) : dual (dual s) = s := by
  rw [dual, dual, List.map_map]
  refine List.map_id'' (fun x => ?_) s
  cases x <;> rfl

@[simp] theorem sends_nil : sends ([] : List B) = [] := rfl

@[simp] theorem sends_cons (b : B) (bs : List B) : sends (b :: bs) = .send b :: sends bs := rfl

@[simp] theorem sends_append (bs bs' : List B) : sends (bs ++ bs') = sends bs ++ sends bs' :=
  List.map_append

@[simp] theorem recvs_nil : recvs ([] : List B) = [] := rfl

@[simp] theorem recvs_cons (b : B) (bs : List B) : recvs (b :: bs) = .recv b :: recvs bs := rfl

@[simp] theorem recvs_append (bs bs' : List B) : recvs (bs ++ bs') = recvs bs ++ recvs bs' :=
  List.map_append

/-- What begins with a part of the bytes that are received goes on with the rest of them. -/
theorem recvs_append_eq {bs cs : List B} {s s' : List (Act B)} (hlen : bs.length ≤ cs.length)
    (h : recvs cs ++ s = recvs bs ++ s') :
    bs = cs.take bs.length ∧ s' = recvs (cs.drop bs.length) ++ s := by
  induction bs generalizing cs with
  | nil => exact ⟨rfl, h.symm⟩
  | cons b bs ih =>
      cases cs with
      | nil => simp at hlen
      | cons c cs =>
          rw [recvs_cons, recvs_cons, List.cons_append, List.cons_append, List.cons.injEq] at h
          obtain ⟨hb, hs'⟩ := ih (Nat.le_of_succ_le_succ hlen) h.2
          have hc := Act.recv.inj h.1
          exact ⟨congrArg₂ List.cons hc.symm hb, hs'⟩

/-! ## Programs that keep to a script -/

/-- What a call can do: its answer, and the surroundings behind it. -/
abbrev World (S : Sig) (E : Type) := E → (c : S.Call) → S.Answer c → E → Prop

/-- The program keeps to the script, and to `post` where it stops, in what is left of the script. The
end of the input may come behind the script if it is `eof`. -/
def Prog.Conforms (W : World S E) (eof : Bool) (post : α → E → List (Act B) → Prop) :
    Prog B S α → E → List (Act B) → Prop
  | .done a, e, s => post a e s
  | .read n k, e, s => 0 < n ∧
      ((∃ b s', s = .recv b :: s') ∨ (eof = true ∧ s = [] ∧ (k []).Conforms W eof post e [])) ∧
      ∀ bs s', bs ≠ [] → bs.length ≤ n → s = recvs bs ++ s' → (k bs).Conforms W eof post e s'
  | .write bytes k, e, s => bytes ≠ [] ∧ ∃ s', s = sends bytes ++ s' ∧
      ∀ t, 0 < t → t ≤ bytes.length →
        (k t).Conforms W eof post e (sends (bytes.drop t) ++ s')
  | .call c k, e, s =>
      (∃ a e', W e c a e') ∧ ∀ a e', W e c a e' → (k a).Conforms W eof post e' s
  | .unfinished, _, _ => False

namespace Prog.Conforms

variable {W : World S E} {eof : Bool} {post : α → E → List (Act B) → Prop} {e : E}
  {s : List (Act B)} {p : Prog B S α}

theorem mono {post' : α → E → List (Act B) → Prop} (h : p.Conforms W eof post e s)
    (hpost : ∀ a e s, post a e s → post' a e s) : p.Conforms W eof post' e s := by
  induction p generalizing e s with
  | done a => exact hpost a e s h
  | read n k ih =>
      obtain ⟨hn, hhead, hrest⟩ := h
      refine ⟨hn, hhead.imp_right fun ⟨he, hs, hk⟩ => ⟨he, hs, ih _ hk⟩, ?_⟩
      exact fun bs s' hbs hlen hs => ih bs (hrest bs s' hbs hlen hs)
  | write bytes k ih =>
      obtain ⟨hne, s', hs, hrest⟩ := h
      exact ⟨hne, s', hs, fun t ht hle => ih t (hrest t ht hle)⟩
  | call c k ih => exact ⟨h.1, fun a e' hW => ih a (h.2 a e' hW)⟩
  | unfinished => exact h

/-- What follows a program keeps to what that leaves of the script. -/
theorem bind {post' : β → E → List (Act B) → Prop} {f : α → Prog B S β}
    (h : p.Conforms W eof (fun a e s => (f a).Conforms W eof post' e s) e s) :
    (p >>= f).Conforms W eof post' e s := by
  induction p generalizing e s with
  | done a => exact h
  | read n k ih =>
      obtain ⟨hn, hhead, hrest⟩ := h
      refine ⟨hn, hhead.imp_right fun ⟨he, hs, hk⟩ => ⟨he, hs, ih _ hk⟩, ?_⟩
      exact fun bs s' hbs hlen hs => ih bs (hrest bs s' hbs hlen hs)
  | write bytes k ih =>
      obtain ⟨hne, s', hs, hrest⟩ := h
      exact ⟨hne, s', hs, fun t ht hle => ih t (hrest t ht hle)⟩
  | call c k ih => exact ⟨h.1, fun a e' hW => ih a (h.2 a e' hW)⟩
  | unfinished => exact h

/-- A call with one outcome. -/
theorem ask {c : S.Call} {a : S.Answer c} {u : E} {post : S.Answer c → E → List (Act B) → Prop}
    (hW : ∀ a' e', W e c a' e' ↔ a' = a ∧ e' = u) (h : post a u s) :
    (Prog.ask c).Conforms W eof post e s := by
  refine ⟨⟨a, u, (hW a u).mpr ⟨rfl, rfl⟩⟩, fun a' e' h' => ?_⟩
  obtain ⟨rfl, rfl⟩ := (hW a' e').mp h'
  exact h

theorem recvByte {b : B} {post : Option B → E → List (Act B) → Prop} (h : post (some b) e s) :
    (Prog.recvByte).Conforms W eof post e (.recv b :: s) := by
  refine ⟨Nat.one_pos, .inl ⟨b, s, rfl⟩, fun bs s' hbs hlen hs => ?_⟩
  cases bs with
  | nil => exact absurd rfl hbs
  | cons b' bs =>
      obtain rfl : bs = [] := List.eq_nil_of_length_eq_zero (by simpa using hlen)
      rw [recvs_cons, recvs_nil, List.singleton_append, List.cons.injEq] at hs
      obtain ⟨hb, rfl⟩ := hs
      obtain rfl := Act.recv.inj hb
      exact h

theorem recvByte_eof {post : Option B → E → List (Act B) → Prop} (h : post none e []) :
    (Prog.recvByte).Conforms W true post e [] := by
  refine ⟨Nat.one_pos, .inr ⟨rfl, rfl, h⟩, fun bs s' hbs _ hs => ?_⟩
  cases bs with
  | nil => exact absurd rfl hbs
  | cons b bs => cases hs

theorem recvLoop {fuel n : Nat} {bs : List B} {post : Option (List B) → E → List (Act B) → Prop}
    (hfuel : n ≤ fuel) (hlen : bs.length = n) (h : post (some bs) e s) :
    (Prog.recvLoop fuel n).Conforms W eof post e (recvs bs ++ s) := by
  induction fuel generalizing n bs post with
  | zero =>
      obtain rfl : n = 0 := Nat.le_zero.mp hfuel
      obtain rfl := List.eq_nil_of_length_eq_zero hlen
      exact h
  | succ fuel ih =>
      cases n with
      | zero =>
          obtain rfl := List.eq_nil_of_length_eq_zero hlen
          exact h
      | succ n =>
          refine ⟨Nat.succ_pos n, ?_, fun cs s' hcs hle hs => ?_⟩
          · cases bs with
            | nil => cases hlen
            | cons b bs => exact .inl ⟨b, recvs bs ++ s, rfl⟩
          obtain ⟨hcs', rfl⟩ := recvs_append_eq (hlen ▸ hle) hs
          have hpos := List.length_pos_iff.mpr hcs
          dsimp only
          rw [if_neg hcs]
          refine bind (ih (by omega) (by rw [List.length_drop, hlen]) ?_)
          show post (some (cs ++ bs.drop cs.length)) e s
          rw [hcs', List.length_take, hlen, Nat.min_eq_left hle, List.take_append_drop]
          exact h

/-- All bytes come, in however many reads. -/
theorem recvAll {bs : List B} {post : Option (List B) → E → List (Act B) → Prop}
    (h : post (some bs) e s) :
    (Prog.recvAll bs.length).Conforms W eof post e (recvs bs ++ s) :=
  recvLoop le_rfl rfl h

theorem send_one {b : B} {post : Nat → E → List (Act B) → Prop} (h : post 1 e s) :
    (Prog.send [b]).Conforms W eof post e (.send b :: s) := by
  refine ⟨List.cons_ne_nil _ _, s, rfl, fun t ht hle => ?_⟩
  obtain rfl : t = 1 := Nat.le_antisymm hle ht
  exact h

theorem sendLoop {fuel : Nat} {bs : List B} {post : Bool → E → List (Act B) → Prop}
    (hfuel : bs.length ≤ fuel) (h : post true e s) :
    (Prog.sendLoop fuel bs).Conforms W eof post e (sends bs ++ s) := by
  induction fuel generalizing bs with
  | zero =>
      obtain rfl := List.eq_nil_of_length_eq_zero (Nat.le_zero.mp hfuel)
      exact h
  | succ fuel ih =>
      cases bs with
      | nil => exact h
      | cons b bs =>
          refine ⟨List.cons_ne_nil b bs, s, rfl, fun t ht hle => ?_⟩
          dsimp only
          rw [if_neg (Nat.pos_iff_ne_zero.mp ht)]
          refine ih ?_
          rw [List.length_drop]
          rw [List.length_cons] at hfuel ⊢
          omega

/-- All bytes go, in however many writes. -/
theorem sendAll {bs : List B} {post : Bool → E → List (Act B) → Prop} (h : post true e s) :
    (Prog.sendAll bs).Conforms W eof post e (sends bs ++ s) :=
  sendLoop le_rfl h

end Prog.Conforms

/-! ## Steps -/

/-- The program stops. -/
def Prog.IsDone (p : Prog B S α) : Prop := ∃ a, p = .done a

/-- One step of a program in its surroundings with the bytes that have come in, and what it puts
out. The output has room for `room` bytes; with a peer that is `gone`, an empty input is at its
end, and a write fails. -/
inductive Moves (W : World S E) (room : Nat) (gone : Prop) :
    Prog B S α → E → List B → Prog B S α → E → List B → List B → Prop
  | read {n : Nat} {k : List B → Prog B S α} {e : E} {bs inp : List B} (hbs : bs ≠ [])
      (hle : bs.length ≤ n) : Moves W room gone (.read n k) e (bs ++ inp) (k bs) e inp []
  | eof {n : Nat} {k : List B → Prog B S α} {e : E} (hgone : gone) :
      Moves W room gone (.read n k) e [] (k []) e [] []
  | write {bytes : List B} {k : Nat → Prog B S α} {e : E} {inp : List B} {t : Nat} (hpos : 0 < t)
      (hle : t ≤ bytes.length) (hroom : t ≤ room) (hpeer : ¬ gone) :
      Moves W room gone (.write bytes k) e inp (k t) e inp (bytes.take t)
  | refused {bytes : List B} {k : Nat → Prog B S α} {e : E} {inp : List B} (hgone : gone) :
      Moves W room gone (.write bytes k) e inp (k 0) e inp []
  | call {c : S.Call} {k : S.Answer c → Prog B S α} {e e' : E} {inp : List B} {a : S.Answer c}
      (hW : W e c a e') : Moves W room gone (.call c k) e inp (k a) e' inp []

/-- A continuation of a program. -/
inductive Prog.Next : Prog B S α → Prog B S α → Prop
  | read (n : Nat) (k : List B → Prog B S α) (bs : List B) : Next (k bs) (.read n k)
  | write (bytes : List B) (k : Nat → Prog B S α) (t : Nat) : Next (k t) (.write bytes k)
  | call (c : S.Call) (k : S.Answer c → Prog B S α) (a : S.Answer c) : Next (k a) (.call c k)

theorem Prog.next_wf : WellFounded (Prog.Next (B := B) (S := S) (α := α)) := by
  refine ⟨fun p => ?_⟩
  induction p with
  | done a => exact ⟨_, nofun⟩
  | read n k ih =>
      refine ⟨_, fun q hq => ?_⟩
      cases hq
      exact ih _
  | write bytes k ih =>
      refine ⟨_, fun q hq => ?_⟩
      cases hq
      exact ih _
  | call c k ih =>
      refine ⟨_, fun q hq => ?_⟩
      cases hq
      exact ih _
  | unfinished => exact ⟨_, nofun⟩

theorem Moves.next {W : World S E} {room : Nat} {gone : Prop} {p p' : Prog B S α} {e e' : E}
    {inp inp' out : List B} (h : Moves W room gone p e inp p' e' inp' out) : p'.Next p := by
  cases h with
  | read => exact .read _ _ _
  | eof => exact .read _ _ _
  | write => exact .write _ _ _
  | refused => exact .write _ _ _
  | call => exact .call _ _ _

/-- Two programs, their surroundings, and the bytes on their way to each. -/
structure Joint (B : Type) (S T : Sig) (E F α β : Type) where
  left : Prog B S α
  right : Prog B T β
  leftEnv : E
  rightEnv : F
  toLeft : List B
  toRight : List B

namespace Joint

/-- Either program makes a step; the pipes hold `capacity` bytes. -/
inductive Step (W : World S E) (V : World T F) (capacity : Nat) :
    Joint B S T E F α β → Joint B S T E F α β → Prop
  | left {p p' : Prog B S α} {q : Prog B T β} {e e' : E} {f : F} {inp inp' out u : List B}
      (h : Moves W (capacity - u.length) q.IsDone p e inp p' e' inp' out) :
      Step W V capacity ⟨p, q, e, f, inp, u⟩ ⟨p', q, e', f, inp', u ++ out⟩
  | right {p : Prog B S α} {q q' : Prog B T β} {e : E} {f f' : F} {inp inp' out u : List B}
      (h : Moves V (capacity - u.length) p.IsDone q f inp q' f' inp' out) :
      Step W V capacity ⟨p, q, e, f, u, inp⟩ ⟨p, q', e, f', u ++ out, inp'⟩

end Joint

/-! ## Dual scripts -/

/-- What the two sides have left, with the bytes on their way: one of them is ahead. -/
def Linked (s t : List (Act B)) (toLeft toRight : List B) : Prop :=
  (toLeft = [] ∧ t = recvs toRight ++ dual s) ∨ (toRight = [] ∧ s = recvs toLeft ++ dual t)

namespace Linked

variable {s t : List (Act B)} {toLeft toRight : List B}

theorem symm (h : Linked s t toLeft toRight) : Linked t s toRight toLeft := Or.symm h

theorem start (s : List (Act B)) : Linked s (dual s) [] [] := .inl ⟨rfl, rfl⟩

theorem of_nil (h : Linked s t [] toRight) : t = recvs toRight ++ dual s := by
  rcases h with ⟨-, h⟩ | ⟨rfl, rfl⟩
  · exact h
  · simp

theorem of_ne_nil (h : Linked s t toLeft toRight) (hne : toLeft ≠ []) :
    toRight = [] ∧ s = recvs toLeft ++ dual t :=
  h.resolve_left fun h' => hne h'.1

/-- With one side at its end the other only has to receive what is on its way. -/
theorem of_end (h : Linked s [] toLeft toRight) : toRight = [] ∧ s = recvs toLeft := by
  rcases h with ⟨rfl, h⟩ | ⟨rfl, h⟩
  · obtain ⟨hu, hs⟩ := List.append_eq_nil_iff.mp h.symm
    rw [recvs, List.map_eq_nil_iff] at hu
    rw [dual, List.map_eq_nil_iff] at hs
    exact ⟨hu, hs⟩
  · exact ⟨rfl, by simpa using h⟩

end Linked

/-- Where a program stops its script is at its end. -/
def AtEnd (Q : α → E → Prop) (a : α) (e : E) (s : List (Act B)) : Prop := s = [] ∧ Q a e

theorem Prog.Conforms.nil_of_done {W : World S E} {eof : Bool} {Q : α → E → Prop} {p : Prog B S α}
    {e : E} {s : List (Act B)} (h : p.Conforms W eof (AtEnd Q) e s) (hdone : p.IsDone) :
    s = [] := by
  obtain ⟨a, rfl⟩ := hdone
  exact h.1

/-- A step keeps a program to its script. -/
theorem Prog.Conforms.moves {W : World S E} {eof : Bool} {post : α → E → List (Act B) → Prop}
    {p p' : Prog B S α} {e e' : E} {s t : List (Act B)} {inp inp' out u : List B} {room : Nat}
    {gone : Prop} (h : p.Conforms W eof post e s) (hlink : Linked s t inp u)
    (hgone : gone → t = []) (hmove : Moves W room gone p e inp p' e' inp' out) :
    ∃ s', p'.Conforms W eof post e' s' ∧ Linked s' t inp' (u ++ out) := by
  cases hmove with
  | read hbs hle =>
      rename_i n k bs
      obtain ⟨-, -, hrest⟩ := h
      obtain ⟨rfl, hs⟩ := hlink.of_ne_nil (by simp [hbs])
      rw [recvs_append, List.append_assoc] at hs
      exact ⟨_, hrest bs _ hbs hle hs, .inr ⟨rfl, rfl⟩⟩
  | eof hpeer =>
      rename_i n k
      obtain ⟨-, hhead, -⟩ := h
      obtain rfl := hgone hpeer
      obtain ⟨rfl, rfl⟩ := hlink.of_end
      rcases hhead with ⟨b, s', hs⟩ | ⟨-, -, hk⟩
      · cases hs
      · exact ⟨[], hk, hlink⟩
  | write hpos hle hroom hpeer =>
      rename_i bytes k tk
      obtain ⟨hne, s', rfl, hrest⟩ := h
      refine ⟨_, hrest tk hpos hle, .inl ?_⟩
      -- nothing is on its way to a program that writes
      have hinp : inp = [] := by
        by_contra hinp
        obtain ⟨-, hs⟩ := hlink.of_ne_nil hinp
        cases inp with
        | nil => exact hinp rfl
        | cons b inp =>
            cases bytes with
            | nil => exact hne rfl
            | cons c bytes => cases hs
      subst hinp
      have hsplit : sends bytes = sends (bytes.take tk) ++ sends (bytes.drop tk) := by
        rw [← sends_append, List.take_append_drop]
      refine ⟨rfl, ?_⟩
      rw [hlink.of_nil, hsplit]
      simp
  | refused hpeer =>
      obtain ⟨hne, s', rfl, -⟩ := h
      obtain rfl := hgone hpeer
      obtain ⟨-, hs⟩ := hlink.of_end
      rename_i bytes k
      cases bytes with
      | nil => exact absurd rfl hne
      | cons c bytes => cases inp <;> cases hs
  | call hW => exact ⟨s, h.2 _ _ hW, by rwa [List.append_nil]⟩

/-- What a program that keeps to its script can be waiting for. -/
inductive Waits (room : Nat) (gone : Prop) (eof : Bool) : List (Act B) → List B → Prop
  | byte (b : B) (s : List (Act B)) : Waits room gone eof (.recv b :: s) []
  | peer (heof : eof = true) (hpeer : ¬ gone) : Waits room gone eof [] []
  | space {s : List (Act B)} {inp : List B} (hroom : room = 0) : Waits room gone eof s inp

theorem Prog.Conforms.moves_or_waits {W : World S E} {eof : Bool}
    {post : α → E → List (Act B) → Prop} {p : Prog B S α} {e : E} {s : List (Act B)}
    (h : p.Conforms W eof post e s) (room : Nat) (gone : Prop) (inp : List B) :
    p.IsDone ∨ (∃ p' e' inp' out, Moves W room gone p e inp p' e' inp' out) ∨
      Waits room gone eof s inp := by
  cases p with
  | done a => exact .inl ⟨a, rfl⟩
  | read n k =>
      obtain ⟨hn, hhead, -⟩ := h
      cases inp with
      | cons b inp => exact .inr (.inl ⟨_, _, _, _, .read (List.cons_ne_nil b []) hn⟩)
      | nil =>
          rcases hhead with ⟨b, s', rfl⟩ | ⟨heof, rfl, -⟩
          · exact .inr (.inr (.byte b s'))
          · by_cases hgone : gone
            · exact .inr (.inl ⟨_, _, _, _, .eof hgone⟩)
            · exact .inr (.inr (.peer heof hgone))
  | write bytes k =>
      obtain ⟨hne, -⟩ := h
      by_cases hgone : gone
      · exact .inr (.inl ⟨_, _, _, _, .refused hgone⟩)
      rcases Nat.eq_zero_or_pos room with hroom | hroom
      · exact .inr (.inr (.space hroom))
      · exact .inr (.inl ⟨_, _, _, _, .write (t := 1) Nat.one_pos (List.length_pos_iff.mpr hne)
          hroom hgone⟩)
  | call c k =>
      obtain ⟨⟨a, e', hW⟩, -⟩ := h
      exact .inr (.inl ⟨_, _, _, _, .call hW⟩)
  | unfinished => exact h.elim

namespace Joint

variable {W : World S E} {V : World T F} {capacity : Nat} {P : α → E → Prop} {Q : β → F → Prop}
  {c c' : Joint B S T E F α β}

/-- Both programs keep to their scripts, and the scripts are dual. -/
structure Conforming (W : World S E) (V : World T F) (P : α → E → Prop) (Q : β → F → Prop)
    (c : Joint B S T E F α β) : Prop where
  keep : ∃ s t, c.left.Conforms W false (AtEnd P) c.leftEnv s ∧
    c.right.Conforms V true (AtEnd Q) c.rightEnv t ∧ Linked s t c.toLeft c.toRight

/-- Both programs have come to their ends, and nothing is on its way. -/
structure Finished (P : α → E → Prop) (Q : β → F → Prop) (c : Joint B S T E F α β) : Prop where
  left : ∃ a, c.left = .done a ∧ P a c.leftEnv
  right : ∃ b, c.right = .done b ∧ Q b c.rightEnv
  empty : c.toLeft = [] ∧ c.toRight = []

theorem Conforming.step (h : c.Conforming W V P Q) (hstep : Step W V capacity c c') :
    c'.Conforming W V P Q := by
  obtain ⟨s, t, hleft, hright, hlink⟩ := h.keep
  cases hstep with
  | left hmove =>
      obtain ⟨s', hleft', hlink'⟩ := hleft.moves hlink hright.nil_of_done hmove
      exact ⟨s', t, hleft', hright, hlink'⟩
  | right hmove =>
      obtain ⟨t', hright', hlink'⟩ := hright.moves hlink.symm hleft.nil_of_done hmove
      exact ⟨s, t', hleft, hright', hlink'.symm⟩

/-- Two programs with dual scripts do not wait for each other. -/
theorem Conforming.progress (h : c.Conforming W V P Q) (hcap : 0 < capacity) :
    c.Finished P Q ∨ ∃ c', Step W V capacity c c' := by
  obtain ⟨p, q, e, f, toLeft, toRight⟩ := c
  obtain ⟨s, t, hleft, hright, hlink⟩ := h.keep
  dsimp only at hleft hright hlink
  rcases hleft.moves_or_waits (capacity - toRight.length) q.IsDone toLeft with
    hp | ⟨p', e', inp', out, hmove⟩ | hp
  · -- the left program is done: the right one has only to receive
    obtain rfl := hleft.nil_of_done hp
    obtain ⟨rfl, rfl⟩ := hlink.symm.of_end
    rcases hright.moves_or_waits (capacity - 0) p.IsDone toRight with
      hq | ⟨q', f', inp', out, hmove⟩ | hq
    · have hnil := hright.nil_of_done hq
      rw [recvs, List.map_eq_nil_iff] at hnil
      subst hnil
      obtain ⟨a, rfl⟩ := hp
      obtain ⟨b, rfl⟩ := hq
      exact .inl ⟨⟨a, rfl, hleft.2⟩, ⟨b, rfl, hright.2⟩, rfl, rfl⟩
    · exact .inr ⟨_, .right hmove⟩
    · generalize hr : recvs toRight = t at hq
      cases hq with
      | byte b t' => cases hr
      | peer _ hgone => exact absurd hp hgone
      | space hroom => omega
  · exact .inr ⟨_, .left hmove⟩
  · rcases hright.moves_or_waits (capacity - toLeft.length) p.IsDone toRight with
      hq | ⟨q', f', inp', out, hmove⟩ | hq
    · obtain rfl := hright.nil_of_done hq
      obtain ⟨rfl, rfl⟩ := hlink.of_end
      generalize hr : recvs toLeft = s at hp
      cases hp with
      | byte b s' => cases hr
      | peer heof => cases heof
      | space hroom => exact absurd hroom (by simp; omega)
    · exact .inr ⟨_, .right hmove⟩
    · -- both wait: neither can be the one that is ahead
      cases hp with
      | peer heof => cases heof
      | byte b s' =>
          have ht := hlink.of_nil
          cases hq with
          | byte b' t' => cases ht
          | peer => cases ht
          | space hroom => exact absurd hroom (by simp; omega)
      | space hroom =>
          have hne : toRight ≠ [] := by
            rintro rfl
            simp at hroom
            omega
          obtain ⟨rfl, ht⟩ := hlink.symm.of_ne_nil hne
          cases hq with
          | byte => exact absurd rfl hne
          | peer => exact absurd rfl hne
          | space hroom' => exact absurd hroom' (by simp; omega)

/-- Every step continues one of the programs. -/
theorem Step.next (h : Step W V capacity c c') :
    Prod.GameAdd Prog.Next Prog.Next (c'.left, c'.right) (c.left, c.right) := by
  cases h with
  | left hmove => exact .fst hmove.next
  | right hmove => exact .snd hmove.next

/-- Whatever the order of the steps, both programs come to their ends. -/
theorem Conforming.inevitable (hcap : 0 < capacity) (h : c.Conforming W V P Q) :
    Inevitable (Step W V capacity) (Finished P Q) c := by
  have hwf : WellFounded (InvImage (Prod.GameAdd Prog.Next Prog.Next)
      fun c : Joint B S T E F α β => (c.left, c.right)) :=
    InvImage.wf _ (Prog.next_wf.prod_gameAdd Prog.next_wf)
  exact .of_wf hwf (fun _ hc => hc.progress hcap) (fun _ _ hc hnext => ⟨hc.step hnext, hnext.next⟩) h

/-- Two programs with dual scripts, before their first step. -/
theorem conforming_start {p : Prog B S α} {q : Prog B T β} {e : E} {f : F} {s : List (Act B)}
    (hp : p.Conforms W false (AtEnd P) e s) (hq : q.Conforms V true (AtEnd Q) f (dual s)) :
    Conforming W V P Q ⟨p, q, e, f, [], []⟩ :=
  ⟨s, dual s, hp, hq, .start s⟩

end Joint

end Lib.Process
