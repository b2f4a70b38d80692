/-
The lock-free stack, one atomic step at a time.

`push_full` and `pop_full` of the global magazine pool are a Treiber stack, and
`push_empty`/`pop_empty`, `GlobalSlabPool::push`/`pop` and
`GlobalFreeList::push_batch`/`pop` are the same two loops again.  A push loads the
head, writes it into the node's link and swaps the node in; a pop loads the head,
reads the link of the node it found and swaps that in.  The swap compares the
head with the node pointer and with nothing else.

The loops differ in what they do when the swap fails: the magazine pool goes on
with the head the failed swap reports, the slab pool loads the head again.  The
flag `reload` tells them apart.

A thread may push a node it owns: one that was never pushed, or one it got from a
pop.  `owner` keeps track of that, and `history` records the swaps that
succeeded, in order.  The code reads neither.
-/
import Aethalloc.Lib.Machine
import Aethalloc.Lib.Chain

namespace Aethalloc.TreiberStack

open Lib

variable {Tid Node : Type} [DecidableEq Tid] [DecidableEq Node]

/-- Where a thread is inside `push(node)` or `pop()`. -/
inductive Pc (Node : Type)
  | idle
  | pushLoad (node : Node)
  | pushWrite (node : Node) (current : Option Node)
  | pushCas (node : Node) (current : Option Node)
  | popLoad
  | popRead (current : Node)
  | popCas (current : Node) (next : Option Node)
  deriving DecidableEq

/-- Who may push a node. -/
inductive Owner (Tid : Type)
  /-- It was never pushed: any thread may take it. -/
  | fresh
  | thread (t : Tid)
  /-- It was pushed and no pop has taken it since. -/
  | stack
  deriving DecidableEq

/-- A swap that succeeded. -/
inductive Event (Node : Type)
  | push (node : Node)
  | pop (node : Node)
  deriving DecidableEq

structure State (Tid Node : Type) where
  head : Option Node
  next : Node → Option Node
  pc : Tid → Pc Node
  owner : Node → Owner Tid
  history : List (Event Node)

inductive Label (Tid Node : Type)
  /-- The thread enters `push(node)`. -/
  | push (t : Tid) (node : Node)
  /-- The thread enters `pop()`. -/
  | pop (t : Tid)
  /-- Its next load, link read or link write. -/
  | move (t : Tid)
  /-- Its next compare-and-swap, which may fail although the values agree. -/
  | cas (t : Tid) (spurious : Bool)

def setPc (s : State Tid Node) (t : Tid) (pc : Pc Node) : State Tid Node :=
  { s with pc := Function.update s.pc t pc }

/-- The head of a pop's loop: nothing to pop, or a node whose link is read next. -/
def popFrom (s : State Tid Node) (t : Tid) : Option Node → State Tid Node
  | none => setPc s t .idle
  | some current => setPc s t (.popRead current)

def stepPush (s : State Tid Node) (t : Tid) (node : Node) : Option (State Tid Node) :=
  if s.pc t = .idle ∧ (s.owner node = .fresh ∨ s.owner node = .thread t) then
    some (setPc { s with owner := Function.update s.owner node (.thread t) } t (.pushLoad node))
  else
    none

def stepPop (s : State Tid Node) (t : Tid) : Option (State Tid Node) :=
  if s.pc t = .idle then some (setPc s t .popLoad) else none

def stepMove (s : State Tid Node) (t : Tid) : Option (State Tid Node) :=
  match s.pc t with
  | .pushLoad node => some (setPc s t (.pushWrite node s.head))
  | .pushWrite node current =>
      some (setPc { s with next := Function.update s.next node current } t
        (.pushCas node current))
  | .popLoad => some (popFrom s t s.head)
  | .popRead current => some (setPc s t (.popCas current (s.next current)))
  | _ => none

def stepCas (reload : Bool) (s : State Tid Node) (t : Tid) (spurious : Bool) :
    Option (State Tid Node) :=
  match s.pc t with
  | .pushCas node current =>
      if s.head = current ∧ spurious = false then
        some (setPc { s with
          head := some node
          owner := Function.update s.owner node .stack
          history := s.history ++ [.push node] } t .idle)
      else if reload then
        some (setPc s t (.pushLoad node))
      else
        some (setPc s t (.pushWrite node s.head))
  | .popCas current next =>
      if s.head = some current ∧ spurious = false then
        some (setPc { s with
          head := next
          owner := Function.update s.owner current (.thread t)
          history := s.history ++ [.pop current] } t .idle)
      else if reload then
        some (setPc s t .popLoad)
      else
        some (popFrom s t s.head)
  | _ => none

def step (reload : Bool) (s : State Tid Node) : Label Tid Node → Option (State Tid Node)
  | .push t node => stepPush s t node
  | .pop t => stepPop s t
  | .move t => stepMove s t
  | .cas t spurious => stepCas reload s t spurious

def start : State Tid Node where
  head := none
  next := fun _ => none
  pc := fun _ => .idle
  owner := fun _ => .fresh
  history := []

variable (Tid Node) in
/-- Any number of threads on one stack. -/
def machine (reload : Bool) : Machine (State Tid Node) (Label Tid Node) where
  init := start
  step := step reload

/-! ### What the stack promises -/

/-- Between two pops of a node there is a push of it. -/
def PopsSeparated (history : List (Event Node)) : Prop :=
  ∀ node a b c, history = a ++ .pop node :: (b ++ .pop node :: c) → .push node ∈ b

/-- The node was pushed, and no pop has taken it since. -/
def Pushed (history : List (Event Node)) (node : Node) : Prop :=
  ∃ a b, history = a ++ .push node :: b ∧ .pop node ∉ b

/-- No node is popped twice for one push, and no pushed node is lost. -/
def Exact (s : State Tid Node) : Prop :=
  PopsSeparated s.history ∧ ∀ node, Pushed s.history node → OnChain s.next s.head node

/--
A pop's swap that is about to succeed carries the link the node has now.  It is
the moment the code does not check: the node may have left the stack and come
back since its link was read.
-/
def LinkCurrent (s : State Tid Node) : Label Tid Node → Prop
  | .cas t false =>
      match s.pc t with
      | .popCas current next => s.head = some current → s.next current = next
      | _ => True
  | _ => True

end Aethalloc.TreiberStack
