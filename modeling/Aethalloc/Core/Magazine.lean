/-
Magazines and the global magazine pools.

A magazine is an array of 64 block pointers with a count; the slots below the
count are its contents and whatever stands above it is left over from before.
`MagazineNode` puts a link in front of a magazine so that the global pools can
keep stacks of them: per size class, one stack of full magazines and one of empty
ones.

The stack operations here are whole calls.  They are what the compare-and-swap
loops of the source compute when nothing else runs in between; the loops
themselves, step by step, are in `Aethalloc.Core.TreiberStack` and
`Aethalloc.Core.MagazineExchange`.
-/
import Mathlib.Logic.Function.Basic

namespace Aethalloc

/-- Addresses; a raw pointer is null when it is 0. -/
abbrev Addr := Nat

def MAGAZINE_CAPACITY : Nat := 64

/-- A container for 64 memory block pointers. -/
structure Magazine where
  blocks : Vector Addr MAGAZINE_CAPACITY
  count : Nat
  deriving DecidableEq

namespace Magazine

def new : Magazine where
  blocks := Vector.replicate MAGAZINE_CAPACITY 0
  count := 0

def isEmpty (m : Magazine) : Bool := m.count == 0

/-- `false`, and nothing changed, when the magazine is full. -/
def push (m : Magazine) (ptr : Addr) : Bool × Magazine :=
  if m.count ≥ MAGAZINE_CAPACITY then
    (false, m)
  else
    (true, { blocks := m.blocks.setIfInBounds m.count ptr, count := m.count + 1 })

def pop (m : Magazine) : Option Addr × Magazine :=
  if m.count = 0 then
    (none, m)
  else
    (m.blocks[m.count - 1]?, { m with count := m.count - 1 })

def clear (m : Magazine) : Magazine := { m with count := 0 }

/-- Add up to `count` blocks that lie `blockSize` apart from `base` on. -/
def bulkInit (m : Magazine) (base : Addr) (blockSize count : Nat) : Magazine :=
  let toAdd := min count (MAGAZINE_CAPACITY - m.count)
  { blocks := (List.range toAdd).foldl
      (fun blocks i => blocks.setIfInBounds (m.count + i) (base + i * blockSize)) m.blocks
    count := m.count + toAdd }

/-- What the magazine holds, the oldest block first. -/
def slots (m : Magazine) : List Addr := m.blocks.toList.take m.count

end Magazine

/-- A magazine with an intrusive link. -/
structure MagazineNode where
  next : Option Addr
  magazine : Magazine

/-- The two stacks of one size class. -/
structure GlobalMagazinePool where
  fullHead : Option Addr
  emptyHead : Option Addr

/-- The memory of the nodes, by address. -/
abbrev NodeHeap := Addr → MagazineNode

namespace GlobalMagazinePool

def new : GlobalMagazinePool where
  fullHead := none
  emptyHead := none

def setNext (nodes : NodeHeap) (node : Addr) (next : Option Addr) : NodeHeap :=
  Function.update nodes node { nodes node with next := next }

def pushFull (pool : GlobalMagazinePool) (nodes : NodeHeap) (node : Addr) :
    GlobalMagazinePool × NodeHeap :=
  ({ pool with fullHead := some node }, setNext nodes node pool.fullHead)

def popFull (pool : GlobalMagazinePool) (nodes : NodeHeap) :
    Option Addr × GlobalMagazinePool :=
  match pool.fullHead with
  | none => (none, pool)
  | some current => (some current, { pool with fullHead := (nodes current).next })

def pushEmpty (pool : GlobalMagazinePool) (nodes : NodeHeap) (node : Addr) :
    GlobalMagazinePool × NodeHeap :=
  ({ pool with emptyHead := some node }, setNext nodes node pool.emptyHead)

end GlobalMagazinePool

def NUM_SIZE_CLASSES : Nat := 13

/-- All global magazine pools, one per size class. -/
structure GlobalMagazinePools where
  pools : Vector GlobalMagazinePool NUM_SIZE_CLASSES

namespace GlobalMagazinePools

def new : GlobalMagazinePools where
  pools := Vector.replicate NUM_SIZE_CLASSES GlobalMagazinePool.new

/-- The pool of a class; an index out of bounds panics. -/
def get (p : GlobalMagazinePools) (cls : Nat) : Option GlobalMagazinePool := p.pools[cls]?

end GlobalMagazinePools

end Aethalloc
