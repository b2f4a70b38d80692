/-
The buddy allocator.

`BuddyAllocator` serves blocks of 2^14 to 2^18 bytes.  Its free lists run through
headers at the start of the blocks themselves, so the model keeps the bytes: a
header is one byte of order, one byte that says whether the block is free, and
eight bytes of link, at the offsets `#[repr(C)]` gives them.  The sixteen bytes
belong to the block, and `alloc` returns the address just past them.

`alloc` and `alloc_new_region` call each other, and `remove_from_free_list` walks
a list until it ends.  Neither has a bound of its own, so both take fuel and have
no result when it runs out; the other loops count an order up or down and recurse
on what is left to count.

Addresses are natural numbers below 2^64, and a pointer that may be null is an
`Option`.  `regions` is the kernel's account of the regions it has mapped for the
allocator.  `merges` is history: for each merge `coalesce` makes, the buddy it
merges with, the order, and whether the walk found the buddy on its free list.
-/
import Mathlib.Logic.Function.Basic
import Aethalloc.Lib.Machine
import Aethalloc.Lib.Memory
import Aethalloc.Lib.Word
import Aethalloc.Lib.Chain
import Aethalloc.Core.Page

namespace Aethalloc.Buddy

open Lib

def MIN_ORDER : Nat := 14
def MAX_ORDER : Nat := 18
def NUM_ORDERS : Nat := MAX_ORDER - MIN_ORDER + 1

/-! ### Block headers -/

/-- `size_of::<BlockHeader>()`. -/
def HEADER_SIZE : Nat := 16

def order (m : Mem) (block : Nat) : Nat := (m block).toNat

def isFree (m : Mem) (block : Nat) : Bool := m (block + 1) != 0

def next (m : Mem) (block : Nat) : Option Nat := ofPtr (m.read (block + 8) 8)

def setOrder (m : Mem) (block : Nat) (order : Nat) : Mem := m.write block 1 order

def setIsFree (m : Mem) (block : Nat) (free : Bool) : Mem :=
  m.write (block + 1) 1 free.toNat

def setNext (m : Mem) (block : Nat) (next : Option Nat) : Mem :=
  m.write (block + 8) 8 (toPtr next)

/-- `core::ptr::write(block, BlockHeader { order, is_free, next })`. -/
def writeHeader (m : Mem) (block : Nat) (order : Nat) (free : Bool) (next : Option Nat) : Mem :=
  setNext (setIsFree (setOrder m block order) block free) block next

/-! ### The allocator -/

/-- The allocator's fields, the memory, and the kernel's account of the regions. -/
structure BuddyAllocator where
  freeLists : Nat → Option Nat
  base : Option Nat
  regionSize : Nat
  mem : Mem
  regions : List Nat
  merges : List (Nat × Nat × Bool)

/-- `BuddyAllocator::new`, in a memory with any contents. -/
def new (mem : Mem) : BuddyAllocator where
  freeLists := fun _ => none
  base := none
  regionSize := 0
  mem := mem
  regions := []
  merges := []

def setList (s : BuddyAllocator) (orderIdx : Nat) (head : Option Nat) : BuddyAllocator :=
  { s with freeLists := Function.update s.freeLists orderIdx head }

def init (s : BuddyAllocator) (ptr : Nat) (size : Nat) : BuddyAllocator :=
  let clampedOrder := max MIN_ORDER (min (trailingZeros size) MAX_ORDER)
  setList { s with
    base := some ptr
    regionSize := size
    mem := writeHeader s.mem ptr clampedOrder true none } (clampedOrder - MIN_ORDER) (some ptr)

/-- `PageAllocator::alloc` of one region: the kernel answers with a fresh page-aligned range, or
fails. -/
def FreshRegion (s : BuddyAllocator) (ptr : Nat) : Prop :=
  ptr ≠ 0 ∧ ptr % PAGE_SIZE = 0 ∧ ptr + 2 ^ MAX_ORDER ≤ 2 ^ 64 ∧
    ∀ r ∈ s.regions, r + 2 ^ MAX_ORDER ≤ ptr ∨ ptr + 2 ^ MAX_ORDER ≤ r

instance (s : BuddyAllocator) (ptr : Nat) : Decidable (FreshRegion s ptr) :=
  inferInstanceAs (Decidable (_ ∧ _ ∧ _ ∧ _))

/-- Map a region of `2 ^ MAX_ORDER` zeroed bytes at the address the kernel answers, if any. -/
def mapRegion (s : BuddyAllocator) : Option Nat → Option (BuddyAllocator × Nat)
  | none => none
  | some ptr =>
      if FreshRegion s ptr then
        some ({ s with
          mem := s.mem.fill ptr (2 ^ MAX_ORDER) 0
          regions := ptr :: s.regions }, ptr)
      else
        none

/-- The first order index from `idx` on whose free list is not empty, looking at `n` lists. -/
def findOrder (freeLists : Nat → Option Nat) : Nat → Nat → Nat
  | 0, idx => idx
  | n + 1, idx =>
      if idx < NUM_ORDERS ∧ freeLists idx = none then findOrder freeLists n (idx + 1) else idx

/-- One turn of the loop of `split`: the upper half of the block becomes a free block. -/
def splitOnce (s : BuddyAllocator) (block : Nat) (currentOrder : Nat) : BuddyAllocator :=
  let currentIdx := currentOrder - MIN_ORDER
  let buddy := block + 2 ^ (currentOrder - 1)
  let mem := writeHeader s.mem buddy (currentOrder - 1) true none
  let mem := setOrder mem block (currentOrder - 1)
  let buddyIdx := currentIdx - 1
  let mem := setNext mem buddy (s.freeLists buddyIdx)
  setList { s with mem := mem } buddyIdx (some buddy)

/-- Split a block from order `target + n` down to order `target`. -/
def split (s : BuddyAllocator) (block : Nat) (target : Nat) : Nat → BuddyAllocator
  | 0 => s
  | n + 1 => split (splitOnce s block (target + n + 1)) block target n

/-- The part of `alloc` after a non-empty list is found: unlink, split, mark. -/
def takeBlock (s : BuddyAllocator) (block : Nat) (foundIdx order : Nat) : BuddyAllocator × Nat :=
  let s := setList s foundIdx (next s.mem block)
  let s := split s block order (foundIdx + MIN_ORDER - order)
  let mem := setNext (setIsFree s.mem block false) block none
  ({ s with mem := mem }, block + HEADER_SIZE)

/-- `alloc_new_region(order)`, with the `alloc` it retries. -/
def allocNewRegion
    (alloc : BuddyAllocator → Nat → List (Option Nat) → Option (BuddyAllocator × Option Nat))
    (s : BuddyAllocator) (order : Nat) (answers : List (Option Nat)) :
    Option (BuddyAllocator × Option Nat) :=
  match mapRegion s answers.head?.join with
  | none => some (s, none)
  | some (s, ptr) => alloc (init s ptr (2 ^ MAX_ORDER)) (2 ^ order) answers.tail

/-- `alloc(size)`; `answers` are the kernel's answers to the mappings it asks for, in order. -/
def alloc : Nat → BuddyAllocator → Nat → List (Option Nat) →
    Option (BuddyAllocator × Option Nat)
  | 0, _, _, _ => none
  | fuel + 1, s, size, answers =>
      let order := trailingZeros size
      if order < MIN_ORDER ∨ MAX_ORDER < order then
        some (s, none)
      else
        let foundIdx := findOrder s.freeLists NUM_ORDERS (order - MIN_ORDER)
        if NUM_ORDERS ≤ foundIdx then
          allocNewRegion (alloc fuel) s order answers
        else
          -- `unwrap_unchecked` has no meaning on an empty list
          match s.freeLists foundIdx with
          | none => none
          | some block =>
              let (s, ptr) := takeBlock s block foundIdx order
              some (s, some ptr)

/-- The walk of `remove_from_free_list`; also says whether it found the block. -/
def removeLoop (s : BuddyAllocator) (block : Nat) (orderIdx : Nat) :
    Nat → Option Nat → Option Nat → Option (BuddyAllocator × Bool)
  | 0, _, _ => none
  | _ + 1, _, none => some (s, false)
  | fuel + 1, prev, some curr =>
      if curr = block then
        let nxt := next s.mem curr
        match prev with
        | some p => some ({ s with mem := setNext s.mem p nxt }, true)
        | none => some (setList s orderIdx nxt, true)
      else
        removeLoop s block orderIdx fuel (some curr) (next s.mem curr)

def removeFromFreeList (fuel : Nat) (s : BuddyAllocator) (block : Nat) (orderIdx : Nat) :
    Option (BuddyAllocator × Bool) :=
  removeLoop s block orderIdx fuel none (s.freeLists orderIdx)

/-- The loop of `coalesce`, with `n` orders left up to the largest. -/
def coalesceLoop (fuel : Nat) :
    Nat → BuddyAllocator → Nat → Nat → Option (BuddyAllocator × Nat × Nat)
  | 0, s, block, order => some (s, block, order)
  | n + 1, s, block, currentOrder =>
      let buddy := block ^^^ 2 ^ currentOrder
      match s.base with
      | none => some (s, block, currentOrder)
      | some base =>
          if buddy < base ∨ base + s.regionSize ≤ buddy then
            some (s, block, currentOrder)
          else if isFree s.mem buddy = false ∨ order s.mem buddy ≠ currentOrder then
            some (s, block, currentOrder)
          else
            match removeFromFreeList fuel s buddy (currentOrder - MIN_ORDER) with
            | none => none
            | some (s, found) =>
                let newBlock := if block < buddy then block else buddy
                coalesceLoop fuel n { s with
                  mem := setOrder s.mem newBlock (currentOrder + 1)
                  merges := (buddy, currentOrder, found) :: s.merges } newBlock (currentOrder + 1)

/-- Put a block in front of the list of its order. -/
def pushBlock (s : BuddyAllocator) (block : Nat) (order : Nat) : BuddyAllocator :=
  let orderIdx := order - MIN_ORDER
  setList { s with mem := setNext s.mem block (s.freeLists orderIdx) } orderIdx (some block)

def coalesce (fuel : Nat) (s : BuddyAllocator) (block : Nat) (order : Nat) :
    Option BuddyAllocator :=
  match coalesceLoop fuel (MAX_ORDER - order) s block order with
  | none => none
  | some (s, block, order) => some (pushBlock s block order)

def dealloc (fuel : Nat) (s : BuddyAllocator) (ptr : Nat) (size : Nat) : Option BuddyAllocator :=
  let order := trailingZeros size
  let block := ptr - HEADER_SIZE
  let mem := setOrder (setIsFree s.mem block true) block order
  coalesce fuel { s with mem := mem } block order

/-- `Drop::drop`: the calls of `PageAllocator::dealloc` it makes, with their addresses and pages. -/
def drop (s : BuddyAllocator) : List (Nat × Nat) :=
  match s.base with
  | none => []
  | some base =>
      let pages := s.regionSize / PAGE_SIZE
      if pages > 0 then [(base, pages)] else []

/-! ### Runs -/

/-- An allocation the client holds: what `alloc` returned, and for what size. -/
structure Allocation where
  ptr : Nat
  size : Nat
  deriving DecidableEq

/-- The block that was taken for an allocation. -/
def Allocation.block (a : Allocation) : Nat := a.ptr - HEADER_SIZE

def Allocation.order (a : Allocation) : Nat := trailingZeros a.size

/-- The allocator and what its client holds. -/
structure World where
  buddy : BuddyAllocator
  live : List Allocation

inductive Label
  | alloc (size : Nat) (answers : List (Option Nat)) (fuel : Nat)
  | dealloc (ptr : Nat) (size : Nat) (fuel : Nat)
  /-- The client writes a byte inside one of its blocks, past the header. -/
  | write (addr : Nat) (byte : UInt8)

/-- The address lies in the client's part of a live block. -/
def Writable (w : World) (addr : Nat) : Prop :=
  ∃ a ∈ w.live, a.ptr ≤ addr ∧ addr < a.block + 2 ^ a.order

instance (w : World) (addr : Nat) : Decidable (Writable w addr) :=
  inferInstanceAs (Decidable (∃ a ∈ w.live, _ ∧ _))

def step (w : World) : Label → Option World
  | .alloc size answers fuel =>
      if size < 2 ^ 64 then
        match alloc fuel w.buddy size answers with
        | none => none
        | some (buddy, none) => some { w with buddy := buddy }
        | some (buddy, some ptr) =>
            some { buddy := buddy, live := { ptr := ptr, size := size } :: w.live }
      else
        none
  | .dealloc ptr size fuel =>
      if { ptr := ptr, size := size } ∈ w.live then
        match dealloc fuel w.buddy ptr size with
        | none => none
        | some buddy =>
            some { buddy := buddy, live := w.live.erase { ptr := ptr, size := size } }
      else
        none
  | .write addr byte =>
      if Writable w addr then
        some { w with buddy := { w.buddy with mem := Function.update w.buddy.mem addr byte } }
      else
        none

/-- A new allocator in a memory with any contents. -/
def machine (mem : Mem) : Machine World Label where
  init := { buddy := new mem, live := [] }
  step := step

end Aethalloc.Buddy
