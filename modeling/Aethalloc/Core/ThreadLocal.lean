/-
The thread-local allocation cache.

`ThreadLocalCache` maps a block of its own for every small request and keeps blocks
that come back on ten lists, by size, up to 32 on each; the link is the first word
of the block.  A block that does not fit on its list is unmapped, and so is
everything on the lists when the cache is cleared or dropped.

How many pages a block has is computed in three places: from the list's size when
it is mapped and when the list is cleared, and from the size `dealloc` is given
when it is freed directly.

`Heap` is the cache with the memory and the kernel it works on.  `mappings` and
`unmaps` are history: the mappings that are still there, with their pages, and what
every unmapping was told beside what the block had been mapped with.  The walk of
`clear_slot` has no bound of its own, so it takes fuel and has no result when that
runs out.
-/
import Aethalloc.Lib.Machine
import Aethalloc.Lib.Word
import Aethalloc.Lib.FreeList
import Aethalloc.Core.Page
import Aethalloc.Core.SizeClass

namespace Aethalloc.ThreadLocal

open Lib

def TINY_CLASSES : Nat := 4
def SMALL_CLASSES : Nat := 6

/-- Maximum number of cached pointers per size class. -/
def CACHE_SIZE : Nat := 32

structure CacheSlot where
  head : Option Nat
  count : Nat

def CacheSlot.new : CacheSlot where
  head := none
  count := 0

/-- Which array a slot is in, and where. -/
structure Index where
  isTiny : Bool
  idx : Nat
  deriving DecidableEq

def Index.sizeForIndex (s : Index) : Nat :=
  if s.isTiny then 16 <<< s.idx else 256 <<< s.idx

/-- `n.div_ceil(d)`. -/
def divCeil (n d : Nat) : Nat := if n % d = 0 then n / d else n / d + 1

structure ThreadLocalCache where
  tiny : Nat → CacheSlot
  small : Nat → CacheSlot

namespace ThreadLocalCache

def new : ThreadLocalCache where
  tiny := fun _ => CacheSlot.new
  small := fun _ => CacheSlot.new

def slot (c : ThreadLocalCache) (s : Index) : CacheSlot :=
  if s.isTiny then c.tiny s.idx else c.small s.idx

def setSlot (c : ThreadLocalCache) (s : Index) (v : CacheSlot) : ThreadLocalCache :=
  if s.isTiny then
    { c with tiny := Function.update c.tiny s.idx v }
  else
    { c with small := Function.update c.small s.idx v }

/-- Get the cache slot for a given size. -/
def getSlot (size : Nat) : Option Index :=
  match SizeClass.classify size with
  | .tiny =>
      let allocSize := max (roundUpPow2 size) 16
      if allocSize > 128 then
        none
      else
        let idx := trailingZeros (allocSize / 16)
        if idx < TINY_CLASSES then some { isTiny := true, idx := idx } else none
  | .small =>
      let allocSize := roundUpPow2 size
      if ¬ (256 ≤ allocSize ∧ allocSize ≤ 8192) then
        none
      else
        let idx := trailingZeros (allocSize / 256)
        if idx < SMALL_CLASSES then some { isTiny := false, idx := idx } else none
  | _ => none

end ThreadLocalCache

open ThreadLocalCache (getSlot)

structure Mapping where
  base : Nat
  pages : Nat
  deriving DecidableEq

/-- A call of `PageAllocator::dealloc`, and the pages the block had been mapped with. -/
structure Unmap where
  ptr : Nat
  pages : Nat
  made : Option Nat

structure Heap where
  cache : ThreadLocalCache
  sys : System
  mappings : List Mapping
  unmaps : List Unmap

namespace Heap

def setSlot (h : Heap) (s : Index) (v : CacheSlot) : Heap :=
  { h with cache := h.cache.setSlot s v }

/-- `PageAllocator::alloc`. -/
def map (h : Heap) (pages : Nat) : Heap × Option Nat :=
  match PageAllocator.alloc h.sys pages with
  | (sys, none) => ({ h with sys := sys }, none)
  | (sys, some base) =>
      ({ h with sys := sys, mappings := { base := base, pages := pages } :: h.mappings }, some base)

/-- `PageAllocator::dealloc`. -/
def unmap (h : Heap) (ptr pages : Nat) : Heap :=
  { h with
    sys := PageAllocator.dealloc h.sys ptr pages
    mappings := h.mappings.filter (·.base ≠ ptr)
    unmaps := {
      ptr := ptr
      pages := pages
      made := (h.mappings.find? (·.base = ptr)).map Mapping.pages } :: h.unmaps }

/-- Allocate from thread-local cache. -/
def alloc (h : Heap) (size : Nat) : Heap × Option Nat :=
  match getSlot size with
  | none => (h, none)
  | some s =>
      let slot := h.cache.slot s
      match slot.head with
      | some ptr =>
          let next := Link.pointer.read h.sys.mem ptr
          (h.setSlot s { head := next, count := slot.count - 1 }, some ptr)
      | none =>
          let pages := divCeil s.sizeForIndex PAGE_SIZE
          h.map (max pages 1)

/-- Free a block directly. -/
def freePages (h : Heap) (ptr size : Nat) : Heap :=
  let allocSize := roundUpPow2 size
  let pages := divCeil allocSize PAGE_SIZE
  if pages > 0 then h.unmap ptr pages else h

/-- Return to thread-local cache. -/
def dealloc (h : Heap) (ptr size : Nat) : Heap :=
  match getSlot size with
  | none => h.freePages ptr size
  | some s =>
      let slot := h.cache.slot s
      if slot.count ≥ CACHE_SIZE then
        h.freePages ptr size
      else
        let h := { h with sys := { h.sys with mem := Link.pointer.write h.sys.mem ptr slot.head } }
        h.setSlot s { head := some ptr, count := slot.count + 1 }

/-- The loop of `clear_slot`, from the block at `current` on. -/
def clearLoop (s : Index) : Nat → Heap → Option Nat → Option Heap
  | _, h, none => some h
  | 0, _, some _ => none
  | fuel + 1, h, some ptr =>
      let next := Link.pointer.read h.sys.mem ptr
      let pages := divCeil s.sizeForIndex PAGE_SIZE
      clearLoop s fuel (if pages > 0 then h.unmap ptr pages else h) next

def clearSlot (fuel : Nat) (h : Heap) (s : Index) : Option Heap :=
  (clearLoop s fuel h (h.cache.slot s).head).map fun h => h.setSlot s CacheSlot.new

/-- The slots in the order `clear` goes through them. -/
def slots : List Index :=
  (List.range TINY_CLASSES).map (fun i => { isTiny := true, idx := i }) ++
    (List.range SMALL_CLASSES).map (fun i => { isTiny := false, idx := i })

/-- Clear all cached allocations; this is also what dropping the cache does. -/
def clear (fuel : Nat) (h : Heap) : Option Heap := slots.foldlM (clearSlot fuel) h

end Heap

/-! ### Runs -/

/-- What the client holds: a block, and the size it asked for. -/
structure Allocation where
  ptr : Nat
  size : Nat
  deriving DecidableEq

structure World where
  heap : Heap
  live : List Allocation

inductive Label
  | alloc (size : Nat) (answers : List (Option Nat))
  | dealloc (ptr size : Nat)
  | clear (fuel : Nat)
  /-- The client writes a byte. -/
  | write (addr : Nat) (byte : UInt8)
  /-- The rest of the process maps or unmaps a page of its own. -/
  | foreign (page : Nat) (mapped : Bool)

/-- The cache as a call finds it, with the kernel's answers to come. -/
def World.enter (w : World) (answers : List (Option Nat)) : Heap :=
  { w.heap with sys := { w.heap.sys with answers := answers } }

/-- The address is in the mapping of a live block, or in a page of the rest of the process. -/
def World.Writable (w : World) (addr : Nat) : Prop :=
  (∃ a ∈ w.live, ∃ m ∈ w.heap.mappings, m.base = a.ptr ∧
    a.ptr ≤ addr ∧ addr < a.ptr + m.pages * PAGE_SIZE) ∨
  w.heap.sys.foreign (addr / PAGE_SIZE) = true

instance (w : World) (addr : Nat) : Decidable (w.Writable addr) :=
  inferInstanceAs (Decidable (_ ∨ _))

def step (w : World) : Label → Option World
  | .alloc size answers =>
      if size < 2 ^ 64 then
        match (w.enter answers).alloc size with
        | (heap, none) => some { w with heap := heap }
        | (heap, some ptr) =>
            some { heap := heap, live := { ptr := ptr, size := size } :: w.live }
      else
        none
  | .dealloc ptr size =>
      if { ptr := ptr, size := size } ∈ w.live then
        some {
          heap := w.heap.dealloc ptr size
          live := w.live.erase { ptr := ptr, size := size } }
      else
        none
  | .clear fuel => (w.heap.clear fuel).map fun heap => { w with heap := heap }
  | .write addr byte =>
      if w.Writable addr then
        some { w with heap := { w.heap with
          sys := { w.heap.sys with mem := Function.update w.heap.sys.mem addr byte } } }
      else
        none
  | .foreign page mapped =>
      if w.heap.sys.mapped page = false then
        some { w with heap := { w.heap with
          sys := { w.heap.sys with foreign := Function.update w.heap.sys.foreign page mapped } } }
      else
        none

/-- A new cache in a process with any memory and any pages of its own. -/
def machine (mem : Mem) (foreign : Nat → Bool) : Machine World Label where
  init := {
    heap := {
      cache := ThreadLocalCache.new
      sys := { mem := mem, mapped := fun _ => false, foreign := foreign, answers := [] }
      mappings := []
      unmaps := [] }
    live := [] }
  step := step

end Aethalloc.ThreadLocal
