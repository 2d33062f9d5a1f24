import Pdsh.Lib.Bookmark
import Mathlib.Logic.Function.Basic

/-!
# The lists of common/list.c

Nodes lie at addresses and are linked by `next` pointers; a list and its iterators keep the
addresses of such pointers (`Slot`). Iterators are kept under the list they belong to, in the order of
the chain `iNext`. The functions work on the nodes in memory and on one list; none stands for a null or a
freed pointer that is followed, for a failed assertion, and, where there is a loop, for too little fuel.
What `malloc` gives to `list_alloc_aux` is an argument: the address of the chunk, or none.

Each function runs under the mutex of its list, and so in one step; `list_find` and `list_delete` are
made of several.
-/

namespace Pdsh.LinkedList

open Lib (adjust discard transfer)

variable {α β : Type}

def LIST_ALLOC : Nat := 32

/-! ## Memory -/

structure ListNode (α : Type) where
  data : α
  next : Option Nat

/-- The address of a pointer to a node: `&l->head` or `&p->next`. -/
inductive Slot where
  | head
  | next (p : Nat)
deriving DecidableEq

structure ListIterator where
  pos : Option Nat
  prev : Slot
deriving DecidableEq

/-- Objects in memory, and the free list their functions keep. -/
structure Pool (β : Type) where
  cells : Nat → Option β
  free : List Nat

/-- `struct list`. -/
structure CList where
  head : Option Nat
  tail : Slot
  iNext : List (Nat × ListIterator)
  /-- it has a function to delete data -/
  fDel : Bool
  count : Int32

/-- The nodes in memory, and one list. -/
structure State (α : Type) where
  mem : Pool (ListNode α)
  list : CList

/-- The free list is filled in chunks of `LIST_ALLOC` objects. What lies at the address is not written
yet. -/
def listAllocAux (chunk : Option Nat) (m : Pool β) : Option Nat × Pool β :=
  let free := match m.free, chunk with
    | [], some px => (List.range LIST_ALLOC).map (px + ·)
    | free, _ => free
  match free with
  | [] => (none, m)
  | px :: free => (some px, { m with free })

def listFreeAux (x : Nat) (m : Pool β) : Pool β where
  cells := Function.update m.cells x none
  free := x :: m.free

/-- `*pp`. -/
def load (s : State α) : Slot → Option (Option Nat)
  | .head => some s.list.head
  | .next p => (s.mem.cells p).map (·.next)

/-- `*pp = v`. -/
def store (s : State α) (pp : Slot) (v : Option Nat) : Option (State α) :=
  match pp with
  | .head => some { s with list := { s.list with head := v } }
  | .next p => do
      let n ← s.mem.cells p
      some { s with mem.cells := Function.update s.mem.cells p (some { n with next := v }) }

/-- `(*pp)->next` is the slot behind a slot; its address needs a node in front. -/
def after (s : State α) (pp : Slot) : Option Slot := do
  let p ← load s pp
  let p ← p
  some (.next p)

/-! ## Nodes -/

/-- The assertion at the end of the loops over iterators. -/
def assertIterator (s : State α) (i : ListIterator) : Option Unit := do
  let p ← load s i.prev
  if i.pos = p then some () else do
    let p ← p
    let n ← s.mem.cells p
    if i.pos = n.next then some () else none

/-- The loop over the iterators of the list, with its assertion. -/
def fixIterators (s : State α) (fix : ListIterator → ListIterator) :
    List (Nat × ListIterator) → Option (List (Nat × ListIterator))
  | [] => some []
  | (name, i) :: l => do
      assertIterator s (fix i)
      let l ← fixIterators s fix l
      some ((name, fix i) :: l)

/-- The body of the loop of `list_node_create`: `p` is the new node, `next` the one behind it. -/
def fixCreated (p : Nat) (pp : Slot) (next : Option Nat) (i : ListIterator) : ListIterator :=
  if i.prev = pp then { i with prev := .next p }
  else if i.pos = next then { i with pos := some p }
  else i

/-- The body of the loop of `list_node_destroy`. -/
def fixDestroyed (p : Nat) (pp : Slot) (next : Option Nat) (i : ListIterator) : ListIterator :=
  if i.pos = some p then ⟨next, pp⟩
  else if i.prev = .next p then { i with prev := pp }
  else i

def listNodeCreate (chunk : Option Nat) (pp : Slot) (x : α) (s : State α) :
    Option (Option α × State α) :=
  match listAllocAux chunk s.mem with
  | (none, mem) => some (none, { s with mem })
  | (some p, mem) => do
      let next ← load s pp
      let s := { s with mem := { mem with cells := Function.update mem.cells p (some ⟨x, next⟩) } }
      let s := if next = none then { s with list.tail := .next p } else s
      let s ← store s pp (some p)
      let s := { s with list.count := s.list.count + 1 }
      let iNext ← fixIterators s (fixCreated p pp next) s.list.iNext
      some (some x, { s with list.iNext := iNext })

def listNodeDestroy (pp : Slot) (s : State α) : Option (Option α × State α) := do
  let p ← load s pp
  match p with
  | none => some (none, s)
  | some p => do
      let n ← s.mem.cells p
      let s ← store s pp n.next
      let s := if n.next = none then { s with list.tail := pp } else s
      let s := { s with list.count := s.list.count - 1 }
      let iNext ← fixIterators s (fixDestroyed p pp n.next) s.list.iNext
      some (some n.data, { mem := listFreeAux p s.mem, list := { s.list with iNext } })

/-! ## Lists -/

def listCreate (fDel : Bool) : CList where
  head := none
  tail := .head
  iNext := []
  fDel := fDel
  count := 0

def listIsEmpty (s : State α) : Bool := s.list.count == 0

def listCount (s : State α) : Int32 := s.list.count

def listAppend (chunk : Option Nat) (x : α) (s : State α) : Option (Option α × State α) :=
  listNodeCreate chunk s.list.tail x s

def listPrepend (chunk : Option Nat) (x : α) (s : State α) : Option (Option α × State α) :=
  listNodeCreate chunk .head x s

def listPush (chunk : Option Nat) (x : α) (s : State α) : Option (Option α × State α) :=
  listNodeCreate chunk .head x s

def listEnqueue (chunk : Option Nat) (x : α) (s : State α) : Option (Option α × State α) :=
  listNodeCreate chunk s.list.tail x s

def listPop (s : State α) : Option (Option α × State α) := listNodeDestroy .head s

def listDequeue (s : State α) : Option (Option α × State α) := listNodeDestroy .head s

def listPeek (s : State α) : Option (Option α) :=
  match s.list.head with
  | none => some none
  | some p => do
      let n ← s.mem.cells p
      some (some n.data)

def findLoop (s : State α) (f : α → Bool) : Nat → Option Nat → Option (Option α)
  | 0, _ => none
  | _ + 1, none => some none
  | fuel + 1, some p => do
      let n ← s.mem.cells p
      if f n.data then some (some n.data) else findLoop s f fuel n.next

def listFindFirst (fuel : Nat) (f : α → Bool) (s : State α) : Option (Option α) :=
  findLoop s f fuel s.list.head

/-- What `f` gives on an item may depend on the items it has seen before. -/
def forEachLoop (s : State α) (f : List α → α → Int32) :
    Nat → Option Nat → Int32 → List α → Option (Int32 × List α)
  | 0, _, _, _ => none
  | _ + 1, none, n, seen => some (n, seen)
  | fuel + 1, some p, n, seen => do
      let node ← s.mem.cells p
      let n := n + 1
      if f seen node.data < 0 then some (-n, seen ++ [node.data])
      else forEachLoop s f fuel node.next n (seen ++ [node.data])

/-- The result, and the items `f` was called on. -/
def listForEach (fuel : Nat) (f : List α → α → Int32) (s : State α) : Option (Int32 × List α) :=
  forEachLoop s f fuel s.list.head 0 []

/-- The number of items, and the data given to `fDel`. -/
def deleteLoop (f : α → Bool) : Nat → Slot → Int32 → List α → State α →
    Option ((Int32 × List α) × State α)
  | 0, _, _, _, _ => none
  | fuel + 1, pp, n, gone, s => do
      let p ← load s pp
      match p with
      | none => some ((n, gone), s)
      | some p => do
          let node ← s.mem.cells p
          if f node.data then do
            let (v, s) ← listNodeDestroy pp s
            match v with
            | some v => deleteLoop f fuel pp (n + 1) (if s.list.fDel then gone ++ [v] else gone) s
            | none => deleteLoop f fuel pp n gone s
          else deleteLoop f fuel (.next p) n gone s

def listDeleteAll (fuel : Nat) (f : α → Bool) (s : State α) : Option ((Int32 × List α) × State α) :=
  deleteLoop f fuel .head 0 [] s

def destroyLoop (fDel : Bool) : Nat → Option Nat → List α → Pool (ListNode α) →
    Option (List α × Pool (ListNode α))
  | 0, _, _, _ => none
  | _ + 1, none, gone, mem => some (gone, mem)
  | fuel + 1, some p, gone, mem => do
      let n ← mem.cells p
      destroyLoop fDel fuel n.next (if fDel then gone ++ [n.data] else gone) (listFreeAux p mem)

/-- The data given to `fDel`. -/
def listDestroy (fuel : Nat) (s : State α) : Option (List α × Pool (ListNode α)) :=
  destroyLoop s.list.fDel fuel s.list.head [] s.mem

/-! ## Sorting -/

/-- The loop for the place of an item: behind all that are not above it. -/
def findPlace (s : State α) (f : α → α → Int32) (x : α) : Nat → Slot → Option Slot
  | 0, _ => none
  | fuel + 1, ppPos => do
      let p ← load s ppPos
      let p ← p
      let n ← s.mem.cells p
      if 0 ≤ f x n.data then findPlace s f x fuel (.next p) else some ppPos

/-- `steps` is the fuel of the inner loop. -/
def sortLoop (steps : Nat) (f : α → α → Int32) :
    Nat → Slot → Slot → State α → Option (Slot × State α)
  | 0, _, _, _ => none
  | fuel + 1, ppPrev, pp, s => do
      let p ← load s pp
      match p with
      | none => some (pp, s)
      | some p => do
          let n ← s.mem.cells p
          let prev ← load s ppPrev
          let prev ← prev
          let nPrev ← s.mem.cells prev
          if f n.data nPrev.data < 0 then do
            let ppPos ← findPlace s f n.data steps .head
            let pTmp := n.next
            let pos ← load s ppPos
            let s ← store s (.next p) pos
            let s ← store s ppPos (some p)
            let s ← store s pp pTmp
            let ppPrev ← if ppPrev = ppPos then after s ppPrev else some ppPrev
            sortLoop steps f fuel ppPrev pp s
          else sortLoop steps f fuel pp (.next p) s

def listSort (fuel : Nat) (f : α → α → Int32) (s : State α) : Option (State α) :=
  if 1 < s.list.count then do
    let pp ← after s .head
    let (pp, s) ← sortLoop fuel f fuel .head pp s
    let iNext := transfer (fun _ => ⟨s.list.head, .head⟩) s.list.iNext
    some { s with list := { s.list with tail := pp, iNext } }
  else some s

/-! ## Iterators -/

/-- Under the name that `list_iterator_alloc` gives. -/
def listIteratorCreate (name : Nat) (s : State α) : State α :=
  { s with list.iNext := (name, ⟨s.list.head, .head⟩) :: s.list.iNext }

def listIteratorReset (name : Nat) (s : State α) : State α :=
  { s with list.iNext := adjust name (fun _ => ⟨s.list.head, .head⟩) s.list.iNext }

def listIteratorDestroy (name : Nat) (s : State α) : State α :=
  { s with list.iNext := discard name s.list.iNext }

def listNext (name : Nat) (s : State α) : Option (Option α × State α) := do
  let i ← s.list.iNext.lookup name
  match i.pos with
  | none => do
      let q ← load s i.prev
      let prev ← if q ≠ none then after s i.prev else some i.prev
      some (none, { s with list.iNext := adjust name (fun _ => ⟨none, prev⟩) s.list.iNext })
  | some p => do
      let n ← s.mem.cells p
      let q ← load s i.prev
      let prev ← if q ≠ some p then after s i.prev else some i.prev
      some (some n.data, { s with list.iNext := adjust name (fun _ => ⟨n.next, prev⟩) s.list.iNext })

def listInsert (chunk : Option Nat) (name : Nat) (x : α) (s : State α) : Option (Option α × State α) := do
  let i ← s.list.iNext.lookup name
  listNodeCreate chunk i.prev x s

def listRemove (name : Nat) (s : State α) : Option (Option α × State α) := do
  let i ← s.list.iNext.lookup name
  let p ← load s i.prev
  if p ≠ i.pos then listNodeDestroy i.prev s else some (none, s)

/-- The result, and the data given to `fDel`. -/
def listDelete (name : Nat) (s : State α) : Option ((Int32 × List α) × State α) := do
  let (v, s) ← listRemove name s
  match v with
  | some v => some ((1, if s.list.fDel then [v] else []), s)
  | none => some ((0, []), s)

def listFind (name : Nat) (f : α → Bool) : Nat → State α → Option (Option α × State α)
  | 0, _ => none
  | fuel + 1, s => do
      let (v, s) ← listNext name s
      match v with
      | none => some (none, s)
      | some v => if f v then some (some v, s) else listFind name f fuel s

end Pdsh.LinkedList
