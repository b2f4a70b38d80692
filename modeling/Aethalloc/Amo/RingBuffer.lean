/-
The single-producer single-consumer ring buffer.

`RingBuffer<CAPACITY>` keeps two indices, `head` written by the producer and
`tail` written by the consumer, and each side keeps a private shadow copy of the
other's index that it refreshes only when the shadow says there is nothing to do.

`try_push` and `try_pop` run concurrently, so neither is modelled as one
function.  Each is a small program whose program counter is a constructor, one
step per shared-memory access: the load of the own index, the read of the shadow,
the load of the other side's index, the access to the slot, the store of the own
index.  An interleaving is a list of labels saying who moves.  Beside them stand the
observers and both calls as whole functions, for a thread that nothing interrupts.

The entries are opaque to the buffer, so their type is a parameter.  `accepted`
and `popped` are history: what the successful calls have taken in and handed out
so far, each accepted entry with the slot it was written to.  The code never
reads them.
-/
import Mathlib.Algebra.Group.Nat.Defs
import Aethalloc.Lib.Machine

namespace Aethalloc.Spsc

open Lib

variable {Entry : Type}

/-- The shared buffer: both indices, both shadows and the slots. -/
structure RingBuffer (Entry : Type) where
  head : Nat
  tail : Nat
  shadowTail : Nat
  shadowHead : Nat
  buffer : Nat → Entry

/-- Where the producer is inside `try_push(entry)`. -/
inductive Producer (Entry : Type)
  | idle
  /-- `head` is loaded; the shadow of `tail` is read next. -/
  | readShadow (entry : Entry) (head : Nat)
  /-- The shadow said full; `tail` itself is loaded next. -/
  | loadTail (entry : Entry) (head : Nat)
  | writeSlot (entry : Entry) (head : Nat)
  | storeHead (entry : Entry) (head : Nat)
  /-- The call has returned. -/
  | returned (result : Option Unit)
  deriving DecidableEq

/-- Where the consumer is inside `try_pop()`. -/
inductive Consumer (Entry : Type)
  | idle
  /-- `tail` is loaded; the shadow of `head` is read next. -/
  | readShadow (tail : Nat)
  /-- The shadow said empty; `head` itself is loaded next. -/
  | loadHead (tail : Nat)
  | readSlot (tail : Nat)
  | storeTail (tail : Nat) (entry : Entry)
  /-- The call has returned. -/
  | returned (result : Option Entry)
  deriving DecidableEq

/-- The buffer, both program counters and the history. -/
structure State (Entry : Type) where
  ring : RingBuffer Entry
  producer : Producer Entry
  consumer : Consumer Entry
  accepted : List (Nat × Entry)
  popped : List Entry

/-- Who moves: a side that is not in a call starts one, a side in a call goes on. -/
inductive Label (Entry : Type)
  | tryPush (entry : Entry)
  | producer
  | tryPop
  | consumer

/-- `RingBuffer::new`; `zero` is the zeroed entry the slots start with. -/
def new (zero : Entry) : RingBuffer Entry where
  head := 0
  tail := 0
  shadowTail := 0
  shadowHead := 0
  buffer := fun _ => zero

/-- The index after `i`: `(i + 1) & (CAPACITY - 1)`. -/
def nextIndex (CAPACITY i : Nat) : Nat := (i + 1) &&& (CAPACITY - 1)

/-- The first step of `try_push(entry)`: load `head`. -/
def startPush (s : State Entry) (entry : Entry) : Option (State Entry) :=
  match s.producer with
  | .idle | .returned _ => some { s with producer := .readShadow entry s.ring.head }
  | _ => none

/-- The remaining steps of `try_push`. -/
def stepPush (CAPACITY : Nat) (s : State Entry) : Option (State Entry) :=
  match s.producer with
  | .readShadow entry head =>
      if nextIndex CAPACITY head = s.ring.shadowTail then
        some { s with producer := .loadTail entry head }
      else
        some { s with producer := .writeSlot entry head }
  | .loadTail entry head =>
      let shadowTail := s.ring.tail
      let ring := { s.ring with shadowTail := shadowTail }
      if nextIndex CAPACITY head = shadowTail then
        some { s with ring := ring, producer := .returned none }
      else
        some { s with ring := ring, producer := .writeSlot entry head }
  | .writeSlot entry head =>
      some { s with
        ring := { s.ring with buffer := Function.update s.ring.buffer head entry }
        producer := .storeHead entry head }
  | .storeHead entry head =>
      some { s with
        ring := { s.ring with head := nextIndex CAPACITY head }
        producer := .returned (some ())
        accepted := s.accepted ++ [(head, entry)] }
  | .idle | .returned _ => none

/-- The first step of `try_pop()`: load `tail`. -/
def startPop (s : State Entry) : Option (State Entry) :=
  match s.consumer with
  | .idle | .returned _ => some { s with consumer := .readShadow s.ring.tail }
  | _ => none

/-- The remaining steps of `try_pop`. -/
def stepPop (CAPACITY : Nat) (s : State Entry) : Option (State Entry) :=
  match s.consumer with
  | .readShadow tail =>
      if tail = s.ring.shadowHead then
        some { s with consumer := .loadHead tail }
      else
        some { s with consumer := .readSlot tail }
  | .loadHead tail =>
      let shadowHead := s.ring.head
      let ring := { s.ring with shadowHead := shadowHead }
      if tail = shadowHead then
        some { s with ring := ring, consumer := .returned none }
      else
        some { s with ring := ring, consumer := .readSlot tail }
  | .readSlot tail =>
      some { s with consumer := .storeTail tail (s.ring.buffer tail) }
  | .storeTail tail entry =>
      some { s with
        ring := { s.ring with tail := nextIndex CAPACITY tail }
        consumer := .returned (some entry)
        popped := s.popped ++ [entry] }
  | .idle | .returned _ => none

/-- One step of one side. -/
def step (CAPACITY : Nat) (s : State Entry) : Label Entry → Option (State Entry)
  | .tryPush entry => startPush s entry
  | .producer => stepPush CAPACITY s
  | .tryPop => startPop s
  | .consumer => stepPop CAPACITY s

/-- A fresh buffer with both sides outside any call. -/
def start (zero : Entry) : State Entry where
  ring := new zero
  producer := .idle
  consumer := .idle
  accepted := []
  popped := []

/-- One producer and one consumer on one buffer. -/
def machine (CAPACITY : Nat) (zero : Entry) : Machine (State Entry) (Label Entry) where
  init := start zero
  step := step CAPACITY

/-! ### Observers, and calls that nothing interrupts -/

/-- `head.wrapping_sub(tail) & (CAPACITY - 1)`. -/
def len (CAPACITY : Nat) (r : RingBuffer Entry) : Nat :=
  (r.head + 2 ^ 64 - r.tail) % 2 ^ 64 &&& (CAPACITY - 1)

def isEmpty (CAPACITY : Nat) (r : RingBuffer Entry) : Bool := len CAPACITY r == 0

def isFull (CAPACITY : Nat) (r : RingBuffer Entry) : Bool := len CAPACITY r == CAPACITY - 1

/-- The end of `try_push`: write the slot, store the next head. -/
def RingBuffer.accept (CAPACITY : Nat) (r : RingBuffer Entry) (entry : Entry) : RingBuffer Entry :=
  { r with
    buffer := Function.update r.buffer r.head entry
    head := nextIndex CAPACITY r.head }

/-- The whole of `try_push`, with nobody in between. -/
def tryPush (CAPACITY : Nat) (r : RingBuffer Entry) (entry : Entry) :
    RingBuffer Entry × Option Unit :=
  let nextHead := nextIndex CAPACITY r.head
  if nextHead = r.shadowTail then
    let r := { r with shadowTail := r.tail }
    if nextHead = r.shadowTail then (r, none) else (r.accept CAPACITY entry, some ())
  else
    (r.accept CAPACITY entry, some ())

/-- The end of `try_pop`: read the slot, store the next tail. -/
def RingBuffer.take (CAPACITY : Nat) (r : RingBuffer Entry) : RingBuffer Entry × Option Entry :=
  ({ r with tail := nextIndex CAPACITY r.tail }, some (r.buffer r.tail))

/-- The whole of `try_pop`, with nobody in between. -/
def tryPop (CAPACITY : Nat) (r : RingBuffer Entry) : RingBuffer Entry × Option Entry :=
  if r.tail = r.shadowHead then
    let r := { r with shadowHead := r.head }
    if r.tail = r.shadowHead then (r, none) else r.take CAPACITY
  else
    r.take CAPACITY

end Aethalloc.Spsc
