import Pdsh.Pcp.Client

/-!
# The size a client declares

The size in a `C` record is the one `stat` gave; the data behind it is what `read` gives up to the
end of the file, without a count. What `open`, `read` and `write` answer behind the record (`Heard`)
tells how far the data gets (`dataFate`). In a run of the client the declared size is kept for a
file when its reads bring that many bytes and then the end of the file, or when the connection
takes no more than that and nothing behind it (`declared_size_kept_iff`).
-/

namespace Pdsh.Pcp

open Lib.Process

variable {α β : Type} {fuel : Nat} {pcp : Client} {es d before after : List ClientEvent}
  {size : Int64}

/-- A call of the client and its answer. -/
abbrev asked (c : ClientCall) (a : c.Answer) : ClientEvent := .call (S := clientSig) c a

/-! ## Calls between the notes -/

/-- The calls that are no notes. -/
def ClientCall.Plain : ClientCall → Prop
  | turn | leave | accepted _ | status => False
  | _ => True

/-- A part of the client without a note. -/
abbrev Quiet (p : ClientM α) : Prop := p.Safe ClientCall.Plain (fun _ _ => True) fun _ => True

/-- The answers of `open`, `read` and `write`. -/
inductive Heard where
  | opened (ok : Bool)
  | got (bytes : Option (List Char))
  | took (n : Nat)

def ClientCall.heard : (c : ClientCall) → c.Answer → Option Heard
  | openFile _, ok => some (.opened ok)
  | readFile, bytes => some (.got bytes)
  | _, _ => none

/-- The answers in a run. -/
def heard : List ClientEvent → List Heard :=
  List.filterMap fun
    | .call c a => ClientCall.heard c a
    | .write _ n => some (.took n)
    | .read _ => none

/-- What the answers make of the data of a file: how many bytes the connection has taken, whether the
end of the file was read, and the answers behind that. -/
structure Fate where
  taken : Nat
  ended : Bool
  rest : List Heard

def Fate.more (n : Nat) (f : Fate) : Fate := { f with taken := n + f.taken }

variable (rest : List Heard)

/-- The notes that end the data of a file: the NUL byte behind it, or the turn of the next file. -/
def ClientCall.endsData : ClientCall → Bool
  | status | turn => true
  | _ => false

def endsData : ClientEvent → Bool
  | .call c _ => ClientCall.endsData c
  | _ => false

theorem ClientCall.Plain.endsData {c : ClientCall} (h : c.Plain) : c.endsData = false := by
  cases c with
  | status => exact h.elim
  | turn => exact h.elim
  | _ => rfl

/-- A part of the client that opens no file before it writes. -/
def NotOpening : ClientM α → Prop
  | .read _ k => ∀ bs, NotOpening (k bs)
  | .call c k => (∀ a, ClientCall.heard c a = none) ∧ ∀ a, NotOpening (k a)
  | _ => True

theorem NotOpening.bind {p : ClientM α} {f : α → ClientM β} (hp : NotOpening p)
    (hf : ∀ a, NotOpening (f a)) : NotOpening (p >>= f) := by
  induction p with
  | done a => exact hf a
  | read n k ih => exact fun bs => ih bs (hp bs)
  | write bytes k ih => trivial
  | call c k ih => exact ⟨hp.1, fun a => ih a (hp.2 a)⟩
  | unfinished => trivial

end Pdsh.Pcp
