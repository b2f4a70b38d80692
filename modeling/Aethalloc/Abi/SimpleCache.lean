/-
The global allocator in simple-cache mode.

Without magazines every thread keeps one list of free blocks for each size class,
linked through the first word of the blocks, the word that holds the size while a
block is live.  A list that grows to its limit gives the first half of its blocks
to the global list of the class, which a thread with an empty list takes blocks
from, one after the other, before it maps a page.  Large requests are served as in
the other mode.

As there, a function is one whole call of one thread: the compare-and-swaps of the
global lists then succeed at the latest when they are retried.  `regions` and
`carved` are history: what every mapping still in use was made for, and the blocks
a cache miss has made, by class.
-/
import Aethalloc.Lib.FreeList
import Aethalloc.Abi.Lib

namespace Aethalloc.Abi.Simple

open Lib

def MAX_FREE_LIST_LENGTH : Nat := 4096
def GLOBAL_FREE_BATCH : Nat := 128

/-! ### The global lists -/

structure GlobalFreeList where
  head : Option Nat

namespace GlobalFreeList

def new : GlobalFreeList where
  head := none

def pushBatch (list : GlobalFreeList) (mem : Mem) (batchHead : Option Nat) (batchTail : Nat) :
    Mem × GlobalFreeList :=
  (Link.pointer.write mem batchTail list.head, { list with head := batchHead })

def pop (list : GlobalFreeList) (mem : Mem) : Option Nat × GlobalFreeList :=
  match list.head with
  | none => (none, list)
  | some current => (some current, { list with head := Link.pointer.read mem current })

end GlobalFreeList

/-! ### The state -/

/-- A thread's lists, by size class, with their lengths, and its counters. -/
structure ThreadCache where
  heads : Nat → Option Nat
  counts : Nat → Nat
  metrics : ThreadMetrics

def ThreadCache.new : ThreadCache where
  heads := fun _ => none
  counts := fun _ => 0
  metrics := ThreadMetrics.new

structure Heap where
  sys : System
  threads : Nat → ThreadCache
  globalFreeLists : Nat → GlobalFreeList
  globalMetrics : GlobalMetrics
  regions : List Region
  carved : Nat → List Nat

namespace Heap

def updateCache (h : Heap) (t : Nat) (f : ThreadCache → ThreadCache) : Heap :=
  { h with threads := Function.update h.threads t (f (h.threads t)) }

/-- `heads[class]` and `counts[class]`. -/
def setList (h : Heap) (t cls : Nat) (head : Option Nat) (count : Nat) : Heap :=
  h.updateCache t fun c =>
    { c with
      heads := Function.update c.heads cls head
      counts := Function.update c.counts cls count }

def setMem (h : Heap) (mem : Mem) : Heap := { h with sys := { h.sys with mem := mem } }

/-- `core::ptr::write` of an `n`-byte word. -/
def write (h : Heap) (a n v : Nat) : Heap := h.setMem (h.sys.mem.write a n v)

def read (h : Heap) (a n : Nat) : Nat := h.sys.mem.read a n

/-- `core::ptr::write` of a pointer. -/
def writeLink (h : Heap) (a : Nat) (p : Option Nat) : Heap :=
  h.setMem (Link.pointer.write h.sys.mem a p)

def readLink (h : Heap) (a : Nat) : Option Nat := Link.pointer.read h.sys.mem a

/-! ### Metrics -/

def updateMetrics (h : Heap) (t : Nat) (f : ThreadMetrics → ThreadMetrics) : Heap :=
  h.updateCache t fun c => { c with metrics := f c.metrics }

def maybeFlush (h : Heap) (t : Nat) : Heap :=
  let (metrics, globalMetrics) := (h.threads t).metrics.maybeFlush h.globalMetrics
  { h.updateMetrics t fun _ => metrics with globalMetrics := globalMetrics }

/-- The end of every path of `dealloc`, but for the flush of a list. -/
def countFree (h : Heap) (t : Nat) : Heap :=
  (h.updateMetrics t ThreadMetrics.countFree).maybeFlush t

/-! ### Mapping -/

/-- `PageAllocator::alloc`, with what the mapping is for noted down. -/
def mapPages (h : Heap) (pages : Nat) (purpose : Purpose) : Heap × Option Nat :=
  let (sys, base) := PageAllocator.alloc h.sys pages
  match base with
  | none => ({ h with sys := sys }, none)
  | some base =>
      ({ h with
        sys := sys
        regions := { base := base, pages := pages, purpose := purpose } :: h.regions }, some base)

/-- `PageAllocator::dealloc`. -/
def unmapPages (h : Heap) (base pages : Nat) : Heap :=
  { h with
    sys := PageAllocator.dealloc h.sys base pages
    regions := h.regions.filter (·.base ≠ base) }

/-- Note a block that is carved from fresh pages. -/
def carve (h : Heap) (cls block : Nat) : Heap :=
  { h with carved := Function.update h.carved cls (block :: h.carved cls) }

/-! ### Lists -/

/-- Put a block in front of a thread's list. -/
def pushLocal (h : Heap) (t cls block : Nat) : Heap :=
  let cache := h.threads t
  (h.writeLink block (cache.heads cls)).setList t cls (some block) (cache.counts cls + 1)

/-- `pop_batch`: blocks go over one by one, up to `count` of them; returns how many did. -/
def popBatch (t cls : Nat) : Nat → Heap → Heap × Nat
  | 0, h => (h, 0)
  | count + 1, h =>
      match (h.globalFreeLists cls).pop h.sys.mem with
      | (none, _) => (h, 0)
      | (some block, list) =>
          let h := { h with globalFreeLists := Function.update h.globalFreeLists cls list }
          let (h, transferred) := popBatch t cls count (h.pushLocal t cls block)
          (h, transferred + 1)

/-- Anti-hoarding: flush excess to the global free list.  The walk to the last block of the batch
starts with one block walked. -/
def flush (h : Heap) (t cls : Nat) : Heap :=
  let cache := h.threads t
  let flushCount := cache.counts cls / 2
  let batchHead := cache.heads cls
  match follow h.readLink (flushCount - 1) batchHead with
  | none => h
  | some batchTail =>
      let newLocalHead := h.readLink batchTail
      let h := h.writeLink batchTail none
      let h := h.setList t cls newLocalHead (cache.counts cls - flushCount)
      let (mem, list) := (h.globalFreeLists cls).pushBatch h.sys.mem batchHead batchTail
      { h.setMem mem with globalFreeLists := Function.update h.globalFreeLists cls list }

/-! ### Allocating -/

/-- Hand out the first block of the thread's list. -/
def serve (h : Heap) (t size cls block : Nat) : Heap × Option Nat :=
  let next := h.readLink block
  let h := h.setList t cls next ((h.threads t).counts cls - 1)
  let h := h.updateMetrics t ThreadMetrics.countHit
  let h := (h.maybeFlush t).write block 8 size
  (h, some (block + CACHE_HEADER_SIZE))

/-- Pages for a single block, also tried when the page for many blocks is refused. -/
def allocSingle (h : Heap) (t size blockSize cls : Nat) : Heap × Option Nat :=
  let pages := max ((blockSize + PAGE_SIZE - 1) / PAGE_SIZE) 1
  match h.mapPages pages (.small cls) with
  | (h, none) => (h, none)
  | (h, some base) =>
      (((h.carve cls base).write base 8 size).maybeFlush t, some (base + CACHE_HEADER_SIZE))

/-- The blocks of a page after the first go to the thread's list. -/
def carveRest (h : Heap) (t cls base blockSize blocksPerPage : Nat) : Heap :=
  (List.range' 1 (blocksPerPage - 1)).foldl (fun h i =>
    let blockPtr := base + i * blockSize
    (h.carve cls blockPtr).pushLocal t cls blockPtr) h

/-- The cache miss of `alloc`: a page of blocks, or pages for one block. -/
def allocMiss (h : Heap) (t size cacheSize cls : Nat) : Heap × Option Nat :=
  let h := h.updateMetrics t ThreadMetrics.countMiss
  let blockSize := cacheSize + CACHE_HEADER_SIZE
  let blocksPerPage := PAGE_SIZE / blockSize
  if blocksPerPage > 1 then
    match h.mapPages 1 (.small cls) with
    | (h, none) => allocSingle h t size blockSize cls
    | (h, some base) =>
        let h := h.carveRest t cls base blockSize blocksPerPage
        (((h.carve cls base).write base 8 size).maybeFlush t, some (base + CACHE_HEADER_SIZE))
  else
    allocSingle h t size blockSize cls

/-- Try the global free list before allocating new pages, only if it is not empty. -/
def allocGlobal (h : Heap) (t size cacheSize cls : Nat) : Heap × Option Nat :=
  match (h.globalFreeLists cls).head with
  | none => allocMiss h t size cacheSize cls
  | some _ =>
      let (h, transferred) := popBatch t cls GLOBAL_FREE_BATCH h
      if transferred > 0 then
        h.serve t size cls (toPtr ((h.threads t).heads cls))
      else
        allocMiss h t size cacheSize cls

def allocSmall (h : Heap) (t size cacheSize cls : Nat) : Heap × Option Nat :=
  match (h.threads t).heads cls with
  | some block => h.serve t size cls block
  | none => allocGlobal h t size cacheSize cls

/-- A mapping of its own, with a header at its start and one before the user's bytes. -/
def allocLarge (h : Heap) (t size align : Nat) : Heap × Option Nat :=
  let h := (h.updateMetrics t ThreadMetrics.countDirect).maybeFlush t
  let minSize := PAGE_HEADER_SIZE + LARGE_HEADER_SIZE + size + align
  let pages := max ((minSize + PAGE_SIZE - 1) / PAGE_SIZE) 1
  match h.mapPages pages .large with
  | (h, none) => (h, none)
  | (h, some base) =>
      let h := ((h.write base 4 MAGIC).write (base + 4) 4 pages).write (base + 8) 8 size
      let userAddr := alignUp (base + PAGE_HEADER_SIZE + LARGE_HEADER_SIZE) align
      let h := (h.write (userAddr - LARGE_HEADER_SIZE) 4 LARGE_MAGIC).write
        (userAddr - LARGE_HEADER_SIZE + 8) 8 base
      (h, some userAddr)

/-- `AethAlloc::alloc`. -/
def alloc (h : Heap) (t : Nat) (layout : Layout) : Heap × Option Nat :=
  let size := layout.size
  let align := layout.align
  if size = 0 then
    (h, none)
  else if size ≤ MAX_CACHE_SIZE ∧ align ≤ 8 then
    let cacheSize := max (roundUpPow2 size) 16
    match sizeToClass cacheSize with
    | some cls => h.allocSmall t size cacheSize cls
    | none => h.allocLarge t size align
  else
    h.allocLarge t size align

/-! ### Freeing -/

/-- The small path of `dealloc`. -/
def deallocSmall (h : Heap) (t cls block : Nat) : Heap :=
  let h := (h.pushLocal t cls block).countFree t
  if (h.threads t).counts cls ≥ MAX_FREE_LIST_LENGTH then h.flush t cls else h

/-- Unmap what a page header at `base` describes, if there is one. -/
def unmapHeader (h : Heap) (base : Nat) : Heap :=
  if h.read base 4 = MAGIC ∧ h.read (base + 4) 4 > 0 then
    h.unmapPages base (h.read (base + 4) 4)
  else
    h

/-- The class a pointer's block is of, read from its header: nothing if it is no small block. -/
def headerClass (h : Heap) (ptr : Nat) : Option Nat :=
  let sizePtr := ptr - CACHE_HEADER_SIZE
  let maybeSize := h.read sizePtr 8
  if 0 < maybeSize ∧ maybeSize ≤ MAX_CACHE_SIZE ∧ h.read sizePtr 4 ≠ MAGIC then
    sizeToClass (max (roundUpPow2 maybeSize) 16)
  else
    none

/-- `AethAlloc::dealloc`, which does not look at the layout. -/
def dealloc (h : Heap) (t : Nat) : Option Nat → Heap
  | none => h
  | some ptr =>
      if h.read (ptr - LARGE_HEADER_SIZE) 4 = LARGE_MAGIC then
        (h.unmapHeader (h.read (ptr - LARGE_HEADER_SIZE + 8) 8)).countFree t
      else
        match h.headerClass ptr with
        | some cls => h.deallocSmall t cls (ptr - CACHE_HEADER_SIZE)
        | none => (h.unmapHeader (pageHeaderFromPtr ptr)).countFree t

def getAllocSize (h : Heap) (ptr : Option Nat) : Nat := Abi.getAllocSize h.sys.mem ptr

end Heap

/-- The heap before the first call, in a process with any memory and any pages of its own. -/
def Heap.start (mem : Mem) (foreign : Nat → Bool) : Heap where
  sys := { mem := mem, mapped := fun _ => false, foreign := foreign, answers := [] }
  threads := fun _ => ThreadCache.new
  globalFreeLists := fun _ => GlobalFreeList.new
  globalMetrics := GlobalMetrics.new
  regions := []
  carved := fun _ => []

/-! ### Runs -/

structure World where
  heap : Heap
  live : List Allocation

inductive Label
  | alloc (t : Nat) (layout : Layout) (answers : List (Option Nat))
  | dealloc (t : Nat) (ptr : Option Nat)
  /-- The client writes a byte. -/
  | write (addr : Nat) (byte : UInt8)
  /-- The rest of the process maps or unmaps a page of its own. -/
  | foreign (page : Nat) (mapped : Bool)

namespace World

/-- The pointer is null or one the client holds. -/
def Holds (w : World) : Option Nat → Prop
  | none => True
  | some ptr => ∃ a ∈ w.live, a.ptr = ptr

instance (w : World) : (ptr : Option Nat) → Decidable (w.Holds ptr)
  | none => inferInstanceAs (Decidable True)
  | some ptr => inferInstanceAs (Decidable (∃ a ∈ w.live, a.ptr = ptr))

/-- The client may write the address. -/
def Writable (w : World) (addr : Nat) : Prop :=
  (∃ a ∈ w.live, a.ptr ≤ addr ∧ addr < a.ptr + a.size) ∨
    w.heap.sys.foreign (addr / PAGE_SIZE) = true

instance (w : World) (addr : Nat) : Decidable (w.Writable addr) :=
  inferInstanceAs (Decidable (_ ∨ _))

/-- The heap as a call finds it, with the kernel's answers to come. -/
def enter (w : World) (answers : List (Option Nat)) : Heap :=
  { w.heap with sys := { w.heap.sys with answers := answers } }

/-- A call returned `ptr` for a layout of `size` and `align`. -/
def gain (w : World) (r : Heap × Option Nat) (size align : Nat) : World where
  heap := r.1
  live :=
    match r.2 with
    | none => w.live
    | some ptr => { ptr := ptr, size := size, align := align } :: w.live

/-- A call freed `ptr`. -/
def lose (w : World) (heap : Heap) (ptr : Option Nat) : World where
  heap := heap
  live := w.live.filter fun a => some a.ptr ≠ ptr

end World

def step (w : World) : Label → Option World
  | .alloc t layout answers =>
      some (w.gain ((w.enter answers).alloc t layout) layout.size layout.align)
  | .dealloc t ptr => if w.Holds ptr then some (w.lose (w.heap.dealloc t ptr) ptr) else none
  | .write addr byte =>
      if w.Writable addr then
        some { w with heap := w.heap.setMem (Function.update w.heap.sys.mem addr byte) }
      else
        none
  | .foreign page mapped =>
      if w.heap.sys.mapped page = false then
        some { w with heap := { w.heap with
          sys := { w.heap.sys with foreign := Function.update w.heap.sys.foreign page mapped } } }
      else
        none

/-- Any number of threads in a process with any memory and any pages of its own. -/
def machine (mem : Mem) (foreign : Nat → Bool) : Machine World Label where
  init := { heap := Heap.start mem foreign, live := [] }
  step := step

end Aethalloc.Abi.Simple
