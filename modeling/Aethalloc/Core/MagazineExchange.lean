/-
The exchange of magazines between threads, one atomic step at a time.

The allocator uses the stacks of a global magazine pool in two protocols only.
An allocation that finds its own magazines empty pops a node off the full stack,
swaps its magazine with the node's, clears the node's and pushes the node on the
empty stack.  A free that finds its own magazine full obtains a node from the
metadata allocator, stores the magazine in it and pushes it on the full stack.

Here each of these is a program over the shared heads and links of all classes,
one step per access.  `obtained` are the nodes the metadata allocator has given
out; it gives out none twice.  `pushed` and `popped` are the swaps of the full
stacks that have succeeded, with their class, and `published` and `delivered` the
magazines that went in and came out.
-/
import Aethalloc.Lib.Machine
import Aethalloc.Lib.Chain
import Aethalloc.Core.Magazine

namespace Aethalloc.MagazineExchange

open Lib

variable {Tid Node : Type} [DecidableEq Tid] [DecidableEq Node]

/-- Where a thread is inside one of the two protocols, for the class it serves. -/
inductive Pc (Node : Type)
  | idle
  /-- `pop_full`, with the thread's empty magazine at hand. -/
  | popLoad (c : Nat) (mine : Magazine)
  | popRead (c : Nat) (mine : Magazine) (current : Node)
  | popCas (c : Nat) (mine : Magazine) (current : Node) (next : Option Node)
  /-- The node is popped; the magazines are swapped next. -/
  | swap (c : Nat) (mine : Magazine) (node : Node)
  | clear (c : Nat) (node : Node)
  /-- `push_empty`. -/
  | emptyLoad (c : Nat) (node : Node)
  | emptyWrite (c : Nat) (node : Node) (current : Option Node)
  | emptyCas (c : Nat) (node : Node) (current : Option Node)
  /-- A node is obtained; the full magazine is stored in it next. -/
  | store (c : Nat) (node : Node) (full : Magazine)
  | clearNext (c : Nat) (node : Node)
  /-- `push_full`. -/
  | fullLoad (c : Nat) (node : Node)
  | fullWrite (c : Nat) (node : Node) (current : Option Node)
  | fullCas (c : Nat) (node : Node) (current : Option Node)

structure State (Tid Node : Type) where
  fullHead : Nat → Option Node
  emptyHead : Nat → Option Node
  next : Node → Option Node
  magazine : Node → Magazine
  pc : Tid → Pc Node
  obtained : List Node
  pushed : List (Nat × Node)
  popped : List (Nat × Node)
  published : List (Node × Magazine)
  delivered : List (Node × Magazine)

inductive Label (Tid Node : Type)
  /-- The thread needs a magazine of the class and has `mine`, an empty one. -/
  | alloc (t : Tid) (c : Nat) (mine : Magazine)
  /-- The thread has a full magazine of the class and obtains `node` for it. -/
  | dealloc (t : Tid) (c : Nat) (full : Magazine) (node : Node)
  /-- Its next load, read or write. -/
  | move (t : Tid)
  /-- Its next compare-and-swap, which may fail although the values agree. -/
  | cas (t : Tid) (spurious : Bool)

def setPc (s : State Tid Node) (t : Tid) (pc : Pc Node) : State Tid Node :=
  { s with pc := Function.update s.pc t pc }

/-- The head of the loop of `pop_full`. -/
def popFrom (s : State Tid Node) (t : Tid) (c : Nat) (mine : Magazine) :
    Option Node → State Tid Node
  | none => setPc s t .idle
  | some current => setPc s t (.popRead c mine current)

def stepIdle (s : State Tid Node) (t : Tid) (pc : Pc Node) : Option (State Tid Node) :=
  match s.pc t with
  | .idle => some (setPc s t pc)
  | _ => none

def stepMove (s : State Tid Node) (t : Tid) : Option (State Tid Node) :=
  match s.pc t with
  | .popLoad c mine => some (popFrom s t c mine (s.fullHead c))
  | .popRead c mine current => some (setPc s t (.popCas c mine current (s.next current)))
  | .swap c mine node =>
      some (setPc { s with
        magazine := Function.update s.magazine node mine
        delivered := s.delivered ++ [(node, s.magazine node)] } t (.clear c node))
  | .clear c node =>
      some (setPc { s with
        magazine := Function.update s.magazine node (s.magazine node).clear } t
        (.emptyLoad c node))
  | .emptyLoad c node => some (setPc s t (.emptyWrite c node (s.emptyHead c)))
  | .emptyWrite c node current =>
      some (setPc { s with next := Function.update s.next node current } t
        (.emptyCas c node current))
  | .store c node full =>
      some (setPc { s with magazine := Function.update s.magazine node full } t
        (.clearNext c node))
  | .clearNext c node =>
      some (setPc { s with next := Function.update s.next node none } t (.fullLoad c node))
  | .fullLoad c node => some (setPc s t (.fullWrite c node (s.fullHead c)))
  | .fullWrite c node current =>
      some (setPc { s with next := Function.update s.next node current } t
        (.fullCas c node current))
  | .idle | .popCas .. | .emptyCas .. | .fullCas .. => none

def stepCas (s : State Tid Node) (t : Tid) (spurious : Bool) : Option (State Tid Node) :=
  match s.pc t with
  | .popCas c mine current next =>
      if s.fullHead c = some current ∧ spurious = false then
        some (setPc { s with
          fullHead := Function.update s.fullHead c next
          popped := s.popped ++ [(c, current)] } t (.swap c mine current))
      else
        some (popFrom s t c mine (s.fullHead c))
  | .emptyCas c node current =>
      if s.emptyHead c = current ∧ spurious = false then
        some (setPc { s with emptyHead := Function.update s.emptyHead c (some node) } t .idle)
      else
        some (setPc s t (.emptyWrite c node (s.emptyHead c)))
  | .fullCas c node current =>
      if s.fullHead c = current ∧ spurious = false then
        some (setPc { s with
          fullHead := Function.update s.fullHead c (some node)
          pushed := s.pushed ++ [(c, node)]
          published := s.published ++ [(node, s.magazine node)] } t .idle)
      else
        some (setPc s t (.fullWrite c node (s.fullHead c)))
  | _ => none

def step (s : State Tid Node) : Label Tid Node → Option (State Tid Node)
  | .alloc t c mine => stepIdle s t (.popLoad c mine)
  | .dealloc t c full node =>
      if node ∈ s.obtained then none
      else stepIdle { s with obtained := node :: s.obtained } t (.store c node full)
  | .move t => stepMove s t
  | .cas t spurious => stepCas s t spurious

def start : State Tid Node where
  fullHead := fun _ => none
  emptyHead := fun _ => none
  next := fun _ => none
  magazine := fun _ => Magazine.new
  pc := fun _ => .idle
  obtained := []
  pushed := []
  popped := []
  published := []
  delivered := []

variable (Tid Node) in
/-- Any number of threads running the two protocols. -/
def machine : Machine (State Tid Node) (Label Tid Node) where
  init := start
  step := step

end Aethalloc.MagazineExchange
