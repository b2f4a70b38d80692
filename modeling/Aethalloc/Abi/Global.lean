/-
The global allocator in magazine-caching mode.

`AethAlloc` serves small requests from magazines of blocks, two for each thread and
size class, refilled from each other, from the global stacks of full magazines and
from fresh pages.  A small block has the requested size in its first eight bytes,
and its class is computed from that again when it is freed.  A large request gets
a mapping of its own with two headers.

Every function here is one whole call of one thread: calls are atomic.  A call
takes the state and returns the state after it, with the pointer it returns, `none`
for null.  The magazine nodes, which lie in pages of their own, are kept beside the
bytes of memory.

`regions`, `carved`, `cleared` and `nodeFailures` are history and change no
behaviour: what every mapping still in use was made for, how many magazine nodes
were carved for each class, the magazines `clear` was applied to, and how often no
node could be had.
-/
import Aethalloc.Lib.Word
import Aethalloc.Core.Magazine
import Aethalloc.Core.Metadata
import Aethalloc.Core.SizeClass
import Aethalloc.Core.Page

namespace Aethalloc.Abi

open Lib
open Metadata (NODE_SIZE NODE_ALIGN)

def MAX_CACHE_SIZE : Nat := 65536
def METRICS_FLUSH_THRESHOLD : Nat := 4096
def MAGIC : Nat := 0xA7E8A110
def LARGE_MAGIC : Nat := 0xA7E8A11F
def PAGE_HEADER_SIZE : Nat := 16
def CACHE_HEADER_SIZE : Nat := 16
def LARGE_HEADER_SIZE : Nat := 16

/-! ### Layouts and size classes -/

/-- `core::alloc::Layout`: a power-of-two alignment, and a size that stays within `isize::MAX`
when rounded up to it. -/
structure Layout where
  size : Nat
  align : Nat
  isPow2 : align.isPowerOfTwo
  bound : size + align ≤ 2 ^ 63

/-- `Layout::from_size_align`. -/
def Layout.fromSizeAlign (size align : Nat) : Option Layout :=
  if h : align.isPowerOfTwo ∧ size + align ≤ 2 ^ 63 then
    some { size := size, align := align, isPow2 := h.1, bound := h.2 }
  else
    none

def sizeToClass (size : Nat) : Option Nat :=
  let rounded := max (roundUpPow2 size) 16
  match rounded with
  | 16 => some 0
  | 32 => some 1
  | 64 => some 2
  | 128 => some 3
  | 256 => some 4
  | 512 => some 5
  | 1024 => some 6
  | 2048 => some 7
  | 4096 => some 8
  | 8192 => some 9
  | 16384 => some 10
  | 32768 => some 11
  | 65536 => some 12
  | _ => none

/-! ### Headers -/

def pageHeaderFromPtr (ptr : Nat) : Nat := andNot ptr (PAGE_SIZE - 1)

/-- `get_alloc_size`, which looks at nothing but memory. -/
def getAllocSize (mem : Mem) : Option Nat → Nat
  | none => 0
  | some ptr =>
      if mem.read (ptr - LARGE_HEADER_SIZE) 4 = LARGE_MAGIC then
        let base := mem.read (ptr - LARGE_HEADER_SIZE + 8) 8
        if mem.read base 4 = MAGIC then mem.read (base + 8) 8 else 0
      else
        let sizePtr := ptr - CACHE_HEADER_SIZE
        let maybeSize := mem.read sizePtr 8
        if 0 < maybeSize ∧ maybeSize ≤ MAX_CACHE_SIZE ∧ mem.read sizePtr 4 ≠ MAGIC then
          maybeSize
        else
          let header := pageHeaderFromPtr ptr
          if mem.read header 4 = MAGIC then mem.read (header + 8) 8 else 0

/-! ### The state -/

structure ThreadMetrics where
  allocs : Nat
  frees : Nat
  cacheHits : Nat
  cacheMisses : Nat
  directAllocs : Nat

def ThreadMetrics.new : ThreadMetrics where
  allocs := 0
  frees := 0
  cacheHits := 0
  cacheMisses := 0
  directAllocs := 0

/-! The increments, which wrap at 2^64: an allocation counts itself and how it is served. -/

def ThreadMetrics.countHit (m : ThreadMetrics) : ThreadMetrics :=
  { m with cacheHits := (m.cacheHits + 1) % 2 ^ 64, allocs := (m.allocs + 1) % 2 ^ 64 }

def ThreadMetrics.countMiss (m : ThreadMetrics) : ThreadMetrics :=
  { m with cacheMisses := (m.cacheMisses + 1) % 2 ^ 64, allocs := (m.allocs + 1) % 2 ^ 64 }

def ThreadMetrics.countDirect (m : ThreadMetrics) : ThreadMetrics :=
  { m with directAllocs := (m.directAllocs + 1) % 2 ^ 64, allocs := (m.allocs + 1) % 2 ^ 64 }

def ThreadMetrics.countFree (m : ThreadMetrics) : ThreadMetrics :=
  { m with frees := (m.frees + 1) % 2 ^ 64 }

/-- The global counters wrap at 2^64. -/
structure GlobalMetrics where
  allocs : Nat
  frees : Nat
  cacheHits : Nat
  cacheMisses : Nat
  directAllocs : Nat

def GlobalMetrics.new : GlobalMetrics where
  allocs := 0
  frees := 0
  cacheHits := 0
  cacheMisses := 0
  directAllocs := 0

/-- The five `fetch_add`s of a flush. -/
def GlobalMetrics.add (g : GlobalMetrics) (m : ThreadMetrics) : GlobalMetrics where
  allocs := (g.allocs + m.allocs) % 2 ^ 64
  frees := (g.frees + m.frees) % 2 ^ 64
  cacheHits := (g.cacheHits + m.cacheHits) % 2 ^ 64
  cacheMisses := (g.cacheMisses + m.cacheMisses) % 2 ^ 64
  directAllocs := (g.directAllocs + m.directAllocs) % 2 ^ 64

/-- The counters ask for a flush. -/
def ThreadMetrics.Full (m : ThreadMetrics) : Prop :=
  (m.allocs + m.frees) % 2 ^ 64 ≥ METRICS_FLUSH_THRESHOLD

instance (m : ThreadMetrics) : Decidable m.Full := inferInstanceAs (Decidable (_ ≥ _))

/-- `ThreadMetrics::maybe_flush`: what it leaves in the thread's counters and the global ones. -/
def ThreadMetrics.maybeFlush (m : ThreadMetrics) (g : GlobalMetrics) :
    ThreadMetrics × GlobalMetrics :=
  if m.Full then (ThreadMetrics.new, g.add m) else (m, g)

/-- A thread's magazines, by size class, and its counters. -/
structure ThreadCache where
  allocMags : Nat → Magazine
  freeMags : Nat → Magazine
  metrics : ThreadMetrics

def ThreadCache.new : ThreadCache where
  allocMags := fun _ => Magazine.new
  freeMags := fun _ => Magazine.new
  metrics := ThreadMetrics.new

/-- The page nodes are carved from, and the offset of the next one. -/
structure MetadataAllocator where
  currentPage : Nat
  offset : Nat

def MetadataAllocator.new : MetadataAllocator where
  currentPage := 0
  offset := PAGE_SIZE

/-- What a mapping was made for. -/
inductive Purpose
  | small (cls : Nat)
  | large
  | metadata
  deriving DecidableEq

structure Region where
  base : Nat
  pages : Nat
  purpose : Purpose
  deriving DecidableEq

structure Heap where
  sys : System
  threads : Nat → ThreadCache
  globalMagazines : Nat → GlobalMagazinePool
  nodes : NodeHeap
  metadata : MetadataAllocator
  globalMetrics : GlobalMetrics
  initialized : Bool
  regions : List Region
  carved : Nat → Nat
  cleared : List Magazine
  nodeFailures : Nat

namespace Heap

def updateCache (h : Heap) (t : Nat) (f : ThreadCache → ThreadCache) : Heap :=
  { h with threads := Function.update h.threads t (f (h.threads t)) }

def setAllocMag (h : Heap) (t cls : Nat) (m : Magazine) : Heap :=
  h.updateCache t fun c => { c with allocMags := Function.update c.allocMags cls m }

def setFreeMag (h : Heap) (t cls : Nat) (m : Magazine) : Heap :=
  h.updateCache t fun c => { c with freeMags := Function.update c.freeMags cls m }

def setPool (h : Heap) (cls : Nat) (pool : GlobalMagazinePool) (nodes : NodeHeap) : Heap :=
  { h with globalMagazines := Function.update h.globalMagazines cls pool, nodes := nodes }

/-- `core::ptr::write` of an `n`-byte word. -/
def write (h : Heap) (a n v : Nat) : Heap :=
  { h with sys := { h.sys with mem := h.sys.mem.write a n v } }

def read (h : Heap) (a n : Nat) : Nat := h.sys.mem.read a n

/-! ### Metrics -/

def updateMetrics (h : Heap) (t : Nat) (f : ThreadMetrics → ThreadMetrics) : Heap :=
  h.updateCache t fun c => { c with metrics := f c.metrics }

def maybeFlush (h : Heap) (t : Nat) : Heap :=
  let (metrics, globalMetrics) := (h.threads t).metrics.maybeFlush h.globalMetrics
  { h.updateMetrics t fun _ => metrics with globalMetrics := globalMetrics }

/-- The end of every path of `dealloc`. -/
def countFree (h : Heap) (t : Nat) : Heap :=
  (h.updateMetrics t ThreadMetrics.countFree).maybeFlush t

/-! ### Mapping -/

/-- `PageAllocator::alloc`, with what the mapping is for noted down. -/
def mapPages (h : Heap) (pages : Nat) (purpose : Purpose) : Heap × Option Nat :=
  let (sys, base) := PageAllocator.alloc h.sys pages
  match base with
  | none => ({ h with sys := sys }, none)
  | some base =>
      ({ h with
        sys := sys
        regions := { base := base, pages := pages, purpose := purpose } :: h.regions }, some base)

/-- `PageAllocator::dealloc`. -/
def unmapPages (h : Heap) (base pages : Nat) : Heap :=
  { h with
    sys := PageAllocator.dealloc h.sys base pages
    regions := h.regions.filter (·.base ≠ base) }

/--
`MetadataAllocator::alloc_node`, as one call that nothing interrupts: the
compare-and-swaps then succeed at the latest when they are retried, and a page
that is unmapped again on the way leaves no trace.
-/
def allocNode (h : Heap) : Heap × Option Nat :=
  let aligned := alignUp h.metadata.offset NODE_ALIGN
  if aligned + NODE_SIZE ≤ PAGE_SIZE then
    ({ h with metadata := { h.metadata with offset := aligned + NODE_SIZE } },
      some (h.metadata.currentPage + aligned))
  else
    match h.mapPages 1 .metadata with
    | (h, none) => (h, none)
    | (h, some newPage) =>
        ({ h with metadata := { currentPage := newPage, offset := NODE_SIZE } }, some newPage)

/-! ### Allocating -/

/-- Hand out a cached block: count the hit, store the size, return what follows the header. -/
def serve (h : Heap) (t size block : Nat) : Heap × Option Nat :=
  let h := h.updateMetrics t ThreadMetrics.countHit
  let h := (h.maybeFlush t).write block 8 size
  (h, some (block + CACHE_HEADER_SIZE))

/-- Pages for a single block, also tried when the page for many blocks is refused. -/
def allocSingle (h : Heap) (t size blockSize cls : Nat) : Heap × Option Nat :=
  let pages := max ((blockSize + PAGE_SIZE - 1) / PAGE_SIZE) 1
  match h.mapPages pages (.small cls) with
  | (h, none) => (h, none)
  | (h, some base) => ((h.write base 8 size).maybeFlush t, some (base + CACHE_HEADER_SIZE))

/-- The cache miss of `alloc`: a page of blocks, or pages for one block. -/
def allocMiss (h : Heap) (t size cacheSize cls : Nat) : Heap × Option Nat :=
  let h := h.updateMetrics t ThreadMetrics.countMiss
  let blockSize := cacheSize + CACHE_HEADER_SIZE
  let blocksPerPage := PAGE_SIZE / blockSize
  if blocksPerPage > 1 then
    match h.mapPages 1 (.small cls) with
    | (h, none) => allocSingle h t size blockSize cls
    | (h, some base) =>
        let remaining := blocksPerPage - 1
        let h := if remaining > 0 then
            h.setAllocMag t cls
              (((h.threads t).allocMags cls).bulkInit (base + blockSize) blockSize remaining)
          else
            h
        ((h.write base 8 size).maybeFlush t, some (base + CACHE_HEADER_SIZE))
  else
    allocSingle h t size blockSize cls

/-- Swap magazines with a node, clear the node's and put the node on the empty stack. -/
def swapNode (h : Heap) (t cls node : Nat) : Heap :=
  let taken := (h.nodes node).magazine
  let given := (h.threads t).allocMags cls
  let h := h.setAllocMag t cls taken
  let nodes := Function.update h.nodes node { h.nodes node with magazine := given.clear }
  let (pool, nodes) := (h.globalMagazines cls).pushEmpty nodes node
  { h.setPool cls pool nodes with cleared := given :: h.cleared }

/-- Try to get a full magazine from the global pool. -/
def allocGlobal (h : Heap) (t size cacheSize cls : Nat) : Heap × Option Nat :=
  match (h.globalMagazines cls).popFull h.nodes with
  | (none, _) => allocMiss h t size cacheSize cls
  | (some node, pool) =>
      let h := (h.setPool cls pool h.nodes).swapNode t cls node
      match ((h.threads t).allocMags cls).pop with
      | (some block, m) => (h.setAllocMag t cls m).serve t size block
      | (none, _) => allocMiss h t size cacheSize cls

/-- Try swap with local free magazine for reuse. -/
def allocSwap (h : Heap) (t size cacheSize cls : Nat) : Heap × Option Nat :=
  if ((h.threads t).freeMags cls).isEmpty then
    allocGlobal h t size cacheSize cls
  else
    let a := (h.threads t).allocMags cls
    let f := (h.threads t).freeMags cls
    let h := (h.setAllocMag t cls f).setFreeMag t cls a
    match ((h.threads t).allocMags cls).pop with
    | (some block, m) => (h.setAllocMag t cls m).serve t size block
    | (none, _) => allocGlobal h t size cacheSize cls

/-- Try local alloc magazine. -/
def allocSmall (h : Heap) (t size cacheSize cls : Nat) : Heap × Option Nat :=
  match ((h.threads t).allocMags cls).pop with
  | (some block, m) => (h.setAllocMag t cls m).serve t size block
  | (none, _) => allocSwap h t size cacheSize cls

/-! The tries of the small path again, without what follows them: the block they find, if any, and
the heap they leave. -/

def findGlobal (h : Heap) (t cls : Nat) : Heap × Option Nat :=
  match (h.globalMagazines cls).popFull h.nodes with
  | (none, _) => (h, none)
  | (some node, pool) =>
      let h := (h.setPool cls pool h.nodes).swapNode t cls node
      match ((h.threads t).allocMags cls).pop with
      | (some block, m) => (h.setAllocMag t cls m, some block)
      | (none, _) => (h, none)

def findSwapped (h : Heap) (t cls : Nat) : Heap × Option Nat :=
  if ((h.threads t).freeMags cls).isEmpty then
    findGlobal h t cls
  else
    let a := (h.threads t).allocMags cls
    let f := (h.threads t).freeMags cls
    let h := (h.setAllocMag t cls f).setFreeMag t cls a
    match ((h.threads t).allocMags cls).pop with
    | (some block, m) => (h.setAllocMag t cls m, some block)
    | (none, _) => findGlobal h t cls

def findCached (h : Heap) (t cls : Nat) : Heap × Option Nat :=
  match ((h.threads t).allocMags cls).pop with
  | (some block, m) => (h.setAllocMag t cls m, some block)
  | (none, _) => findSwapped h t cls

/-- A mapping of its own, with a header at its start and one before the user's bytes. -/
def allocLarge (h : Heap) (t size align : Nat) : Heap × Option Nat :=
  let h := (h.updateMetrics t ThreadMetrics.countDirect).maybeFlush t
  let minSize := PAGE_HEADER_SIZE + LARGE_HEADER_SIZE + size + align
  let pages := max ((minSize + PAGE_SIZE - 1) / PAGE_SIZE) 1
  match h.mapPages pages .large with
  | (h, none) => (h, none)
  | (h, some base) =>
      let h := ((h.write base 4 MAGIC).write (base + 4) 4 pages).write (base + 8) 8 size
      let userAddr := alignUp (base + PAGE_HEADER_SIZE + LARGE_HEADER_SIZE) align
      let h := (h.write (userAddr - LARGE_HEADER_SIZE) 4 LARGE_MAGIC).write
        (userAddr - LARGE_HEADER_SIZE + 8) 8 base
      (h, some userAddr)

/-- `AethAlloc::alloc`. -/
def alloc (h : Heap) (t : Nat) (layout : Layout) : Heap × Option Nat :=
  let size := layout.size
  let align := layout.align
  if size = 0 then
    (h, none)
  else if size ≤ MAX_CACHE_SIZE ∧ align ≤ 8 then
    let cacheSize := max (roundUpPow2 size) 16
    match sizeToClass cacheSize with
    | some cls => h.allocSmall t size cacheSize cls
    | none => h.allocLarge t size align
  else
    h.allocLarge t size align

/-! ### Freeing -/

/-- A full magazine goes to the global pool in a node, if one can be had. -/
def publish (h : Heap) (t cls : Nat) : Heap :=
  match h.allocNode with
  | (h, none) => { h with nodeFailures := h.nodeFailures + 1 }
  | (h, some node) =>
      let m := (h.threads t).freeMags cls
      let h := h.setFreeMag t cls Magazine.new
      let nodes := Function.update h.nodes node { magazine := m, next := none }
      let (pool, nodes) := (h.globalMagazines cls).pushFull nodes node
      { h.setPool cls pool nodes with
        carved := Function.update h.carved cls (h.carved cls + 1) }

/-- The small path of `dealloc`. -/
def deallocSmall (h : Heap) (t cls block : Nat) : Heap :=
  match ((h.threads t).freeMags cls).push block with
  | (true, m) => (h.setFreeMag t cls m).countFree t
  | (false, _) =>
      let h := h.publish t cls
      (h.setFreeMag t cls (((h.threads t).freeMags cls).push block).2).countFree t

/-- Unmap what a page header at `base` describes, if there is one. -/
def unmapHeader (h : Heap) (base : Nat) : Heap :=
  if h.read base 4 = MAGIC ∧ h.read (base + 4) 4 > 0 then
    h.unmapPages base (h.read (base + 4) 4)
  else
    h

/-- The class a pointer's block is of, read from its header: nothing if it is no small block. -/
def headerClass (h : Heap) (ptr : Nat) : Option Nat :=
  let sizePtr := ptr - CACHE_HEADER_SIZE
  let maybeSize := h.read sizePtr 8
  if 0 < maybeSize ∧ maybeSize ≤ MAX_CACHE_SIZE ∧ h.read sizePtr 4 ≠ MAGIC then
    sizeToClass (max (roundUpPow2 maybeSize) 16)
  else
    none

/-- `AethAlloc::dealloc`, which does not look at the layout. -/
def dealloc (h : Heap) (t : Nat) : Option Nat → Heap
  | none => h
  | some ptr =>
      if h.read (ptr - LARGE_HEADER_SIZE) 4 = LARGE_MAGIC then
        (h.unmapHeader (h.read (ptr - LARGE_HEADER_SIZE + 8) 8)).countFree t
      else
        match h.headerClass ptr with
        | some cls => h.deallocSmall t cls (ptr - CACHE_HEADER_SIZE)
        | none => (h.unmapHeader (pageHeaderFromPtr ptr)).countFree t

def getAllocSize (h : Heap) (ptr : Option Nat) : Nat := Abi.getAllocSize h.sys.mem ptr

end Heap

/-- The heap before the first call, in a process with any memory and any pages of its own. -/
def Heap.start (mem : Mem) (foreign : Nat → Bool) : Heap where
  sys := { mem := mem, mapped := fun _ => false, foreign := foreign, answers := [] }
  threads := fun _ => ThreadCache.new
  globalMagazines := fun _ => GlobalMagazinePool.new
  nodes := fun _ => { next := none, magazine := Magazine.new }
  metadata := MetadataAllocator.new
  globalMetrics := GlobalMetrics.new
  initialized := false
  regions := []
  carved := fun _ => 0
  cleared := []
  nodeFailures := 0

end Aethalloc.Abi
