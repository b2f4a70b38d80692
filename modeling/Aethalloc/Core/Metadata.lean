/-
The metadata allocator, one atomic step at a time.

`MetadataAllocator` bumps an offset through the current metadata page and maps a
new page when the node no longer fits.  The page and the offset are two separate
atomics.  `alloc_node` is modelled as the program it is: each load, store,
compare-and-swap and system call is one step of one thread, and a label says which
thread moves and how the step turns out — whether a weak compare-and-swap fails
spuriously, and what page the kernel maps.

`pages` is the set of metadata pages mapped at the moment and belongs to the
kernel.  `returned` is history: the non-null pointers handed out so far, the
latest first.
-/
import Aethalloc.Lib.Machine
import Aethalloc.Lib.Word

namespace Aethalloc.Metadata

open Lib

variable {Tid : Type} [DecidableEq Tid]

def PAGE_SIZE : Nat := 4096

/-- `size_of::<MagazineNode>()`: the link, 64 block pointers and the count. -/
def NODE_SIZE : Nat := 8 + (64 * 8 + 8)

/-- `align_of::<MagazineNode>()`. -/
def NODE_ALIGN : Nat := 8

/-- Where a thread is inside `alloc_node`; a page pointer is null when it is 0. -/
inductive Pc
  | idle
  | loadOffset
  | casOffset (offset : Nat)
  /-- The offset is ours; `current_page` is loaded next. -/
  | loadPage (aligned : Nat)
  | mapPage
  /-- A new page is mapped; `current_page` is loaded next, to be compared against. -/
  | loadCurrent (newPage : Nat)
  | casPage (current newPage : Nat)
  /-- The new page is published; `offset` is stored next. -/
  | storeOffset (newPage : Nat)
  /-- The page was not published; it is unmapped next. -/
  | unmapPage (newPage : Nat)
  deriving DecidableEq

structure State (Tid : Type) where
  currentPage : Nat
  offset : Nat
  pc : Tid → Pc
  pages : List Nat
  returned : List Nat

inductive Label (Tid : Type)
  /-- The thread enters `alloc_node`. -/
  | call (t : Tid)
  /-- Its next load, store or unmap. -/
  | move (t : Tid)
  /-- Its next compare-and-swap, which may fail although the values agree. -/
  | cas (t : Tid) (spurious : Bool)
  /-- Its call of `alloc_metadata_page`, with the page the kernel maps, if any. -/
  | map (t : Tid) (page : Option Nat)

/-- The page the kernel maps is aligned, not null and not mapped yet. -/
def Fresh (s : State Tid) (page : Nat) : Prop :=
  page ≠ 0 ∧ page % PAGE_SIZE = 0 ∧ page + PAGE_SIZE ≤ 2 ^ 64 ∧ page ∉ s.pages

instance (s : State Tid) (page : Nat) : Decidable (Fresh s page) :=
  inferInstanceAs (Decidable (_ ∧ _ ∧ _ ∧ _))

def setPc (s : State Tid) (t : Tid) (pc : Pc) : State Tid :=
  { s with pc := Function.update s.pc t pc }

/-- The call returns `p`. -/
def ret (s : State Tid) (t : Tid) (p : Nat) : State Tid :=
  { s with pc := Function.update s.pc t .idle, returned := p :: s.returned }

def stepMove (s : State Tid) (t : Tid) : Option (State Tid) :=
  match s.pc t with
  | .loadOffset =>
      let aligned := alignUp s.offset NODE_ALIGN
      if aligned + NODE_SIZE ≤ PAGE_SIZE then
        some (setPc s t (.casOffset s.offset))
      else
        some (setPc s t .mapPage)
  | .loadPage aligned => some (ret s t (s.currentPage + aligned))
  | .loadCurrent newPage => some (setPc s t (.casPage s.currentPage newPage))
  | .storeOffset newPage => some (ret { s with offset := NODE_SIZE } t newPage)
  | .unmapPage newPage =>
      some (setPc { s with pages := s.pages.filter (· ≠ newPage) } t .loadOffset)
  | _ => none

def stepCas (s : State Tid) (t : Tid) (spurious : Bool) : Option (State Tid) :=
  match s.pc t with
  | .casOffset offset =>
      let aligned := alignUp offset NODE_ALIGN
      if s.offset = offset ∧ spurious = false then
        some (setPc { s with offset := aligned + NODE_SIZE } t (.loadPage aligned))
      else
        some (setPc s t .loadOffset)
  | .casPage current newPage =>
      if s.currentPage = current ∧ spurious = false then
        some (setPc { s with currentPage := newPage } t (.storeOffset newPage))
      else
        some (setPc s t (.unmapPage newPage))
  | _ => none

def stepMap (s : State Tid) (t : Tid) (page : Option Nat) : Option (State Tid) :=
  match s.pc t, page with
  | .mapPage, none => some (setPc s t .idle)
  | .mapPage, some newPage =>
      if Fresh s newPage then
        some (setPc { s with pages := newPage :: s.pages } t (.loadCurrent newPage))
      else
        none
  | _, _ => none

def step (s : State Tid) : Label Tid → Option (State Tid)
  | .call t => if s.pc t = .idle then some (setPc s t .loadOffset) else none
  | .move t => stepMove s t
  | .cas t spurious => stepCas s t spurious
  | .map t page => stepMap s t page

/-- `MetadataAllocator::new`: no page yet, and an offset that says it is full. -/
def start : State Tid where
  currentPage := 0
  offset := PAGE_SIZE
  pc := fun _ => .idle
  pages := []
  returned := []

variable (Tid) in
/-- Any number of threads calling `alloc_node`. -/
def machine : Machine (State Tid) (Label Tid) where
  init := start
  step := step

/-- Two nodes share no byte. -/
def Apart (p q : Nat) : Prop := p + NODE_SIZE ≤ q ∨ q + NODE_SIZE ≤ p

/-- The nodes handed out are pairwise apart, each inside one mapped page. -/
def NodesExclusive (s : State Tid) : Prop :=
  s.returned.Pairwise Apart ∧
    ∀ p ∈ s.returned, ∃ page ∈ s.pages, page ≤ p ∧ p + NODE_SIZE ≤ page + PAGE_SIZE

/--
The step does not cut another thread's pair of accesses in two: an offset is
claimed only while no thread stands between publishing a page and storing its
offset, and a page is published only while no thread stands between claiming an
offset and loading the page.
-/
def Undisturbed (s : State Tid) : Label Tid → Prop
  | .cas t false =>
      match s.pc t with
      | .casOffset offset => s.offset = offset → ∀ t' page, s.pc t' ≠ .storeOffset page
      | .casPage current _ => s.currentPage = current → ∀ t' aligned, s.pc t' ≠ .loadPage aligned
      | _ => True
  | _ => True

end Aethalloc.Metadata
