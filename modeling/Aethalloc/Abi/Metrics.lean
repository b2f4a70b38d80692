/-
Metrics of many threads.

A thread counts in counters of its own and moves them to the global ones when
enough has come together: five `fetch_add`s, one after the other, and then a reset.
Other threads take steps in between.  So a call is split here at its flush: what
comes before it, ending with the counting; the `fetch_add`s, a step each; and the
reset with what comes after.  Without a flush the call is one step.  The paths that
run out of memory return without asking whether to flush.

`events` is history: how many calls there were of each kind, told from what the call
was and what the thread found in its caches, not from the counters.
-/
import Aethalloc.Abi.Lib

namespace Aethalloc.Abi

open Lib

/-! ### Counters -/

inductive Counter
  | allocs
  | frees
  | cacheHits
  | cacheMisses
  | directAllocs
  deriving DecidableEq

/-- In the order in which they are flushed. -/
def Counter.all : List Counter := [allocs, frees, cacheHits, cacheMisses, directAllocs]

def ThreadMetrics.get (m : ThreadMetrics) : Counter → Nat
  | .allocs => m.allocs
  | .frees => m.frees
  | .cacheHits => m.cacheHits
  | .cacheMisses => m.cacheMisses
  | .directAllocs => m.directAllocs

def GlobalMetrics.get (g : GlobalMetrics) : Counter → Nat
  | .allocs => g.allocs
  | .frees => g.frees
  | .cacheHits => g.cacheHits
  | .cacheMisses => g.cacheMisses
  | .directAllocs => g.directAllocs

def GlobalMetrics.fetchAdd (g : GlobalMetrics) (v : Nat) : Counter → GlobalMetrics
  | .allocs => { g with allocs := (g.allocs + v) % 2 ^ 64 }
  | .frees => { g with frees := (g.frees + v) % 2 ^ 64 }
  | .cacheHits => { g with cacheHits := (g.cacheHits + v) % 2 ^ 64 }
  | .cacheMisses => { g with cacheMisses := (g.cacheMisses + v) % 2 ^ 64 }
  | .directAllocs => { g with directAllocs := (g.directAllocs + v) % 2 ^ 64 }

/-! ### Calls, split at the flush -/

/-- What a call still has to do after its flush. -/
inductive Rest
  | serve (size block : Nat)
  | page (ptr : Nat)
  | large (size align : Nat)
  | nothing

namespace Heap

def localMetrics (h : Heap) (t : Nat) : ThreadMetrics := (h.threads t).metrics

def finish (h : Heap) : Rest → Heap × Option Nat
  | .serve size block => (h.write block 8 size, some (block + CACHE_HEADER_SIZE))
  | .page ptr => (h, some ptr)
  | .large size align =>
      let minSize := PAGE_HEADER_SIZE + LARGE_HEADER_SIZE + size + align
      let pages := max ((minSize + PAGE_SIZE - 1) / PAGE_SIZE) 1
      match h.mapPages pages .large with
      | (h, none) => (h, none)
      | (h, some base) =>
          let h := ((h.write base 4 MAGIC).write (base + 4) 4 pages).write (base + 8) 8 size
          let userAddr := alignUp (base + PAGE_HEADER_SIZE + LARGE_HEADER_SIZE) align
          let h := (h.write (userAddr - LARGE_HEADER_SIZE) 4 LARGE_MAGIC).write
            (userAddr - LARGE_HEADER_SIZE + 8) 8 base
          (h, some userAddr)
  | .nothing => (h, none)

def flushThreadMetrics (h : Heap) (t : Nat) : Heap :=
  { h.updateMetrics t fun _ => ThreadMetrics.new with
    globalMetrics := h.globalMetrics.add (h.threads t).metrics }

def singleStart (h : Heap) (size blockSize cls : Nat) : Heap × Option Rest :=
  let pages := max ((blockSize + PAGE_SIZE - 1) / PAGE_SIZE) 1
  match h.mapPages pages (.small cls) with
  | (h, none) => (h, none)
  | (h, some base) => (h.write base 8 size, some (.page (base + CACHE_HEADER_SIZE)))

def missStart (h : Heap) (t size cacheSize cls : Nat) : Heap × Option Rest :=
  let h := h.updateMetrics t ThreadMetrics.countMiss
  let blockSize := cacheSize + CACHE_HEADER_SIZE
  let blocksPerPage := PAGE_SIZE / blockSize
  if blocksPerPage > 1 then
    match h.mapPages 1 (.small cls) with
    | (h, none) => singleStart h size blockSize cls
    | (h, some base) =>
        let remaining := blocksPerPage - 1
        let h := if remaining > 0 then
            h.setAllocMag t cls
              (((h.threads t).allocMags cls).bulkInit (base + blockSize) blockSize remaining)
          else
            h
        (h.write base 8 size, some (.page (base + CACHE_HEADER_SIZE)))
  else
    singleStart h size blockSize cls

def smallStart (h : Heap) (t size cacheSize cls : Nat) : Heap × Option Rest :=
  match h.findCached t cls with
  | (h, some block) =>
      (h.updateMetrics t ThreadMetrics.countHit,
        some (.serve size block))
  | (h, none) => missStart h t size cacheSize cls

def largeStart (h : Heap) (t size align : Nat) : Heap × Option Rest :=
  (h.updateMetrics t ThreadMetrics.countDirect,
    some (.large size align))

/-- `alloc` up to its flush; nothing is left to do where it returns null without one. -/
def allocStart (h : Heap) (t : Nat) (layout : Layout) : Heap × Option Rest :=
  let size := layout.size
  let align := layout.align
  if size = 0 then
    (h, none)
  else if size ≤ MAX_CACHE_SIZE ∧ align ≤ 8 then
    let cacheSize := max (roundUpPow2 size) 16
    match sizeToClass cacheSize with
    | some cls => h.smallStart t size cacheSize cls
    | none => h.largeStart t size align
  else
    h.largeStart t size align

def bumpFree (h : Heap) (t : Nat) : Heap :=
  h.updateMetrics t ThreadMetrics.countFree

def deallocSmallStart (h : Heap) (t cls block : Nat) : Heap :=
  match ((h.threads t).freeMags cls).push block with
  | (true, m) => (h.setFreeMag t cls m).bumpFree t
  | (false, _) =>
      let h := h.publish t cls
      (h.setFreeMag t cls (((h.threads t).freeMags cls).push block).2).bumpFree t

/-- `dealloc` of a pointer that is not null, up to its flush. -/
def deallocStart (h : Heap) (t ptr : Nat) : Heap :=
  if h.read (ptr - LARGE_HEADER_SIZE) 4 = LARGE_MAGIC then
    (h.unmapHeader (h.read (ptr - LARGE_HEADER_SIZE + 8) 8)).bumpFree t
  else
    match h.headerClass ptr with
    | some cls => h.deallocSmallStart t cls (ptr - CACHE_HEADER_SIZE)
    | none => (h.unmapHeader (pageHeaderFromPtr ptr)).bumpFree t

end Heap

/-! ### Runs -/

namespace Metrics

/-- A thread inside a flush: the counters it has still to add, and what its call does then. -/
structure Flush where
  left : List Counter
  rest : Rest

structure World where
  heap : Heap
  flushing : Nat → Option Flush
  events : Counter → Nat

inductive Label
  | alloc (t : Nat) (layout : Layout) (answers : List (Option Nat))
  | dealloc (t : Nat) (ptr : Option Nat) (answers : List (Option Nat))
  | flushThreadMetrics (t : Nat)
  /-- One `fetch_add` of the thread's flush. -/
  | fetchAdd (t : Nat)
  /-- The reset after the last one, and the rest of the call. -/
  | reset (t : Nat) (answers : List (Option Nat))
  /-- What the program does between its calls, to memory and to the pages of its own. -/
  | write (t addr : Nat) (byte : UInt8)
  | foreign (t page : Nat) (mapped : Bool)

def Label.thread : Label → Nat
  | .alloc t _ _ => t
  | .dealloc t _ _ => t
  | .flushThreadMetrics t => t
  | .fetchAdd t => t
  | .reset t _ => t
  | .write t _ _ => t
  | .foreign t _ _ => t

/-- How an allocation is served: from what is cached, from fresh pages of its class, or with a
mapping of its own. -/
def kind (h : Heap) (t : Nat) (layout : Layout) : Counter :=
  if layout.size ≤ MAX_CACHE_SIZE ∧ layout.align ≤ 8 then
    match sizeToClass (max (roundUpPow2 layout.size) 16) with
    | some cls => if (h.findCached t cls).2.isSome then .cacheHits else .cacheMisses
    | none => .directAllocs
  else
    .directAllocs

/-- The heap as a call finds it, with the kernel's answers to come. -/
def enter (h : Heap) (answers : List (Option Nat)) : Heap :=
  { h with sys := { h.sys with answers := answers } }

/-- The events that a call is. -/
def happened (h : Heap) : Label → List Counter
  | .alloc t layout answers =>
      if layout.size = 0 then [] else [.allocs, kind (enter h answers) t layout]
  | .dealloc _ (some _) _ => [.frees]
  | _ => []

/-- The thread has counted and comes to `maybe_flush`. -/
def World.maybeFlush (w : World) (t : Nat) (h : Heap) (rest : Rest) : World :=
  if (h.localMetrics t).Full then
    { w with heap := h, flushing := Function.update w.flushing t (some ⟨Counter.all, rest⟩) }
  else
    { w with heap := (h.finish rest).1 }

/-- A call begins outside of a flush; a flush that has begun goes on to its end. -/
def act (w : World) : Label → Option Flush → Option World
  | .alloc t layout answers, none =>
      match (enter w.heap answers).allocStart t layout with
      | (h, none) => some { w with heap := h }
      | (h, some rest) => some (w.maybeFlush t h rest)
  | .dealloc t ptr answers, none =>
      match ptr with
      | none => some w
      | some ptr => some (w.maybeFlush t ((enter w.heap answers).deallocStart t ptr) .nothing)
  | .flushThreadMetrics t, none =>
      some { w with flushing := Function.update w.flushing t (some ⟨Counter.all, .nothing⟩) }
  | .fetchAdd t, some ⟨c :: left, rest⟩ =>
      some { w with
        heap := { w.heap with
          globalMetrics := w.heap.globalMetrics.fetchAdd ((w.heap.localMetrics t).get c) c }
        flushing := Function.update w.flushing t (some ⟨left, rest⟩) }
  | .reset t answers, some ⟨[], rest⟩ =>
      some { w with
        heap := ((enter (w.heap.updateMetrics t fun _ => ThreadMetrics.new) answers).finish rest).1
        flushing := Function.update w.flushing t none }
  | .write _ addr byte, none =>
      some { w with heap := { w.heap with
        sys := { w.heap.sys with mem := Function.update w.heap.sys.mem addr byte } } }
  | .foreign _ page mapped, none =>
      some { w with heap := { w.heap with
        sys := { w.heap.sys with foreign := Function.update w.heap.sys.foreign page mapped } } }
  | _, _ => none

/-- A step of one of `n` threads, with its events counted. -/
def step (n : Nat) (w : World) (l : Label) : Option World :=
  if l.thread < n then
    (act w l (w.flushing l.thread)).map fun w' =>
      { w' with events := fun c => w.events c + (happened w.heap l).count c }
  else
    none

def machine (n : Nat) (mem : Mem) (foreign : Nat → Bool) : Machine World Label where
  init := { heap := Heap.start mem foreign, flushing := fun _ => none, events := fun _ => 0 }
  step := step n

end Metrics

end Aethalloc.Abi
