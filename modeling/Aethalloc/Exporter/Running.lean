/-
The exporter inside the program it reports on.

`lib.rs` is loaded next to the allocator, and its server is one more thread of the
program.  It takes one connection after the other.  For `/metrics` it calls
`aethalloc_get_metrics`, which loads the five global counters one by one, and the
threads of the program go on counting and flushing between the loads.  So the
server's steps here are: a request is read, one load, the reply is written.

`scrapes` is history: the replies with metrics, each with the global counters as
they were when its request was read and when it was written.
-/
import Aethalloc.Abi.Metrics
import Aethalloc.Exporter.Scrape

namespace Aethalloc.Exporter

open Lib Abi

def MetricsSnapshot.get (s : MetricsSnapshot) : Counter → Nat
  | .allocs => s.allocs
  | .frees => s.frees
  | .cacheHits => s.cacheHits
  | .cacheMisses => s.cacheMisses
  | .directAllocs => s.directAllocs

/-- The snapshot that has been loaded. -/
def MetricsSnapshot.ofLoads (got : Counter → Nat) : MetricsSnapshot where
  allocs := got .allocs
  frees := got .frees
  cacheHits := got .cacheHits
  cacheMisses := got .cacheMisses
  directAllocs := got .directAllocs

namespace Running

/-- Where the server's thread is. -/
inductive Server
  | accepting
  /-- Inside `snapshot`: what is still to load, what has been, and the counters at the request. -/
  | loading (bytes : Received) (left : List Counter) (got : Counter → Nat) (asked : GlobalMetrics)

/-- A reply with metrics. -/
structure Scrape where
  asked : GlobalMetrics
  reply : List UInt8
  answered : GlobalMetrics

structure World where
  program : Metrics.World
  server : Server
  scrapes : List Scrape

inductive Label
  /-- A step of one of the program's threads. -/
  | work (l : Metrics.Label)
  /-- A connection is accepted and its request read, if it can be. -/
  | accept (received : Option Received)
  | load
  | reply

def World.global (w : World) : GlobalMetrics := w.program.heap.globalMetrics

/-- `handle_client` up to its `snapshot`; without one it is over here. -/
def accept (loaded : Bool) (w : World) : Option Received → World
  | none => w
  | some bytes =>
      if bytes.path = "/metrics".toList ∧ loaded = true then
        { w with server := .loading bytes Counter.all (fun _ => 0) w.global }
      else
        w

/-- The server's own steps. -/
def serve (percent : Nat → Nat → Text) (loaded : Bool) (w : World) :
    Label → Server → Option World
  | .accept received, .accepting => some (accept loaded w received)
  | .load, .loading bytes (c :: left) got asked =>
      let got := Function.update got c (w.global.get c)
      some { w with server := .loading bytes left got asked }
  | .reply, .loading bytes [] got asked =>
      (Library.handleClient percent (some bytes) (some (.ofLoads got))).map fun reply =>
        { w with server := .accepting, scrapes := w.scrapes ++ [⟨asked, reply, w.global⟩] }
  | _, _ => none

/-- A step of one of the program's `n` threads or of the server. -/
def step (n : Nat) (percent : Nat → Nat → Text) (loaded : Bool) (w : World) :
    Label → Option World
  | .work l => (Metrics.step n w.program l).map fun program => { w with program := program }
  | l => serve percent loaded w l w.server

def machine (n : Nat) (mem : Mem) (foreign : Nat → Bool) (percent : Nat → Nat → Text)
    (loaded : Bool) : Machine World Label where
  init :=
    { program := (Metrics.machine n mem foreign).init, server := .accepting, scrapes := [] }
  step := step n percent loaded

end Running

end Aethalloc.Exporter
