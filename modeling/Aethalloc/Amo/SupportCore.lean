/-
The support core and the ring it reads.

`SupportCore::run` is a loop: while `running`, take an entry if there is one and
handle it, otherwise yield.  `run` holds the core exclusively, so nobody can call
`stop` meanwhile, and `handle_command` does not touch `running`.  It reads the
fields of the command and drops them again; `handled` records what it read, in
order.

The ring is shared with one producer, which moves between any two steps of the
core.  A step of the core is one shared access of `try_pop`, or what follows its
return.  `push` is `try_push` again with the same entry for as long as the ring is
full, so its runs are among those of a producer that may try anything.  `sending`
and `sent` are history: the command the producer is trying to send, and those the
ring has accepted.
-/
import Aethalloc.Amo.Command
import Aethalloc.Amo.RingBuffer

namespace Aethalloc.Amo

open Lib

/-- Where the support core is inside `run`. -/
inductive Loop
  /-- Before the test of `running`. -/
  | test
  /-- Inside `try_pop`, or just returned from it. -/
  | popping
  /-- `run` has returned. -/
  | exited
  deriving DecidableEq

structure SupportCore where
  running : Bool
  loop : Loop
  handled : List Command

/-- `SupportCore::new`, about to `run`. -/
def SupportCore.new : SupportCore where
  running := true
  loop := .test
  handled := []

/-- `handle_command`, and back to the test. -/
def SupportCore.handleCommand (core : SupportCore) (entry : RingEntry) : SupportCore :=
  { core with loop := .test, handled := core.handled ++ [entry.handleCommand] }

/-- The ring with its producer, the core, and what was sent. -/
structure Pipeline where
  ring : Spsc.State RingEntry
  core : SupportCore
  sending : Option Command
  sent : List Command

/-- Who moves: the producer starts sending a command or goes on, or the core goes on. -/
inductive Label
  | trySend (junk : RingPayload) (command : Command)
  | producer
  | core
  deriving DecidableEq

/-- One step of `run`. -/
def stepCore (N : Nat) (s : Pipeline) : Option Pipeline :=
  match s.core.loop with
  | .test =>
      if s.core.running then
        (Spsc.startPop s.ring).map fun ring =>
          { s with ring := ring, core := { s.core with loop := .popping } }
      else
        some { s with core := { s.core with loop := .exited } }
  | .popping =>
      match s.ring.consumer with
      | .returned (some entry) => some { s with core := s.core.handleCommand entry }
      | .returned none => some { s with core := { s.core with loop := .test } }
      | _ => (Spsc.stepPop N s.ring).map fun ring => { s with ring := ring }
  | .exited => none

/-- A step of `try_push`; the call that returns with the entry accepted has sent its command. -/
def stepSend (N : Nat) (s : Pipeline) : Option Pipeline :=
  (Spsc.stepPush N s.ring).map fun ring =>
    match ring.producer with
    | .returned (some ()) => { s with ring := ring, sent := s.sent ++ s.sending.toList }
    | _ => { s with ring := ring }

/-- One step of the pipeline. -/
def step (N : Nat) (s : Pipeline) : Label → Option Pipeline
  | .trySend junk command =>
      (Spsc.startPush s.ring (command.entry junk)).map fun ring =>
        { s with ring := ring, sending := some command }
  | .producer => stepSend N s
  | .core => stepCore N s

/-- A fresh ring of `N` slots and a core that starts to run. -/
def pipeline (N : Nat) : Machine Pipeline Label where
  init := ⟨Spsc.start .zeroed, .new, none, []⟩
  step := step N

end Aethalloc.Amo
