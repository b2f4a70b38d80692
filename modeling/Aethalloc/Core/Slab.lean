/-
Slabs.

A slab hands out slots of one size from up to four pages.  Fresh slots are taken
from the newest page one after the other; slots that come back go on a free list
whose links, an `Option<usize>` each, are stored in the slots themselves.

`State` is the slab with the memory and the kernel it works on.  The assertions of
debug builds are left out: they check a pointer that `dealloc` is given, and a
pointer the slab handed out passes them.  The end of a page is computed without
wrapping, since no mapping reaches the end of the address space.

`live` is what the client holds and `bumped` is history: the slots that were ever
taken fresh from a page.
-/
import Aethalloc.Lib.Machine
import Aethalloc.Lib.FreeList
import Aethalloc.Core.Page

namespace Aethalloc

open Lib

def MAX_SLAB_PAGES : Nat := 4

/-- Slab allocator for a single size class. -/
structure Slab where
  slotSize : Nat
  slotsPerPage : Nat
  freeHead : Option Nat
  allocated : Nat
  pages : Vector (Option Nat) MAX_SLAB_PAGES
  numPages : Nat
  /-- Next slot to allocate in the current page. -/
  nextSlot : Nat

namespace Slab

def new (slotSize : Nat) : Slab where
  slotSize := slotSize
  slotsPerPage := PAGE_SIZE / slotSize
  freeHead := none
  allocated := 0
  pages := Vector.replicate MAX_SLAB_PAGES none
  numPages := 0
  nextSlot := 0

/-- The entry of `pages`, which is `None` for a page that is not in use. -/
def page (s : Slab) (i : Nat) : Option Nat := s.pages[i]?.join

structure State where
  slab : Slab
  sys : System

namespace State

/-- Allocate a new page for this slab: `false` when the kernel refuses it. -/
def allocNewPage (st : State) : State × Bool :=
  match PageAllocator.alloc st.sys 1 with
  | (sys, none) => ({ st with sys := sys }, false)
  | (sys, some page) =>
      ({ slab := { st.slab with
          pages := st.slab.pages.setIfInBounds st.slab.numPages (some page)
          numPages := st.slab.numPages + 1
          nextSlot := 0 }
         sys := sys }, true)

/-- Allocate a fresh slot from the current page. -/
def bump (st : State) : State × Option Nat :=
  -- `unwrap_unchecked`: the entry of the current page is there
  match st.slab.page (st.slab.numPages - 1) with
  | none => (st, none)
  | some page =>
      ({ st with slab := { st.slab with
          nextSlot := st.slab.nextSlot + 1
          allocated := st.slab.allocated + 1 } },
        some (page + st.slab.nextSlot * st.slab.slotSize))

/-- The part of `alloc` after the first page is there. -/
def allocFresh (st : State) : State × Option Nat :=
  if st.slab.nextSlot ≥ st.slab.slotsPerPage then
    if st.slab.numPages ≥ MAX_SLAB_PAGES then
      (st, none)
    else
      match st.allocNewPage with
      | (st, false) => (st, none)
      | (st, true) => st.bump
  else
    st.bump

/-- Allocate a slot from this slab. -/
def alloc (st : State) : State × Option Nat :=
  match st.slab.freeHead with
  | some freePtr =>
      ({ st with slab := { st.slab with
          freeHead := Link.tagged.read st.sys.mem freePtr
          allocated := st.slab.allocated + 1 } }, some freePtr)
  | none =>
      if st.slab.numPages = 0 then
        match st.allocNewPage with
        | (st, false) => (st, none)
        | (st, true) => st.allocFresh
      else
        st.allocFresh

/-- The pointer lies in one of the pages in use. -/
def found (s : Slab) (ptr : Nat) : Bool :=
  (List.range s.numPages).any fun i =>
    match s.page i with
    | none => false
    | some page => decide (page ≤ ptr ∧ ptr < page + PAGE_SIZE)

/-- Return a slot to this slab. -/
def dealloc (st : State) (ptr : Nat) : State :=
  if found st.slab ptr then
    { slab := { st.slab with
        freeHead := some ptr
        allocated := st.slab.allocated - 1 }
      sys := { st.sys with mem := Link.tagged.write st.sys.mem ptr st.slab.freeHead } }
  else
    st

end State

/-! ### Runs -/

structure World extends State where
  live : List Nat
  bumped : List Nat

inductive Label
  | alloc (answers : List (Option Nat))
  | dealloc (ptr : Nat)
  /-- The client writes a byte. -/
  | write (addr : Nat) (byte : UInt8)
  /-- The rest of the process maps or unmaps a page of its own. -/
  | foreign (page : Nat) (mapped : Bool)

/-- The slab as a call finds it, with the kernel's answers to come. -/
def World.enter (w : World) (answers : List (Option Nat)) : State :=
  { w.toState with sys := { w.sys with answers := answers } }

/-- The address is in a live slot, or in a page of the rest of the process. -/
def World.Writable (w : World) (addr : Nat) : Prop :=
  (∃ p ∈ w.live, p ≤ addr ∧ addr < p + w.slab.slotSize) ∨ w.sys.foreign (addr / PAGE_SIZE) = true

instance (w : World) (addr : Nat) : Decidable (w.Writable addr) :=
  inferInstanceAs (Decidable (_ ∨ _))

def step (w : World) : Label → Option World
  | .alloc answers =>
      match (w.enter answers).alloc with
      | (st, none) => some { w with toState := st }
      | (st, some ptr) =>
          some {
            toState := st
            live := ptr :: w.live
            bumped := if w.slab.freeHead = none then ptr :: w.bumped else w.bumped }
  | .dealloc ptr =>
      if ptr ∈ w.live then
        some { w with toState := w.toState.dealloc ptr, live := w.live.erase ptr }
      else
        none
  | .write addr byte =>
      if w.Writable addr then
        some { w with sys := { w.sys with mem := Function.update w.sys.mem addr byte } }
      else
        none
  | .foreign page mapped =>
      if w.sys.mapped page = false then
        some { w with sys := { w.sys with foreign := Function.update w.sys.foreign page mapped } }
      else
        none

/-- A new slab in a process with any memory and any pages of its own. -/
def machine (slotSize : Nat) (mem : Mem) (foreign : Nat → Bool) : Machine World Label where
  init := {
    slab := new slotSize
    sys := { mem := mem, mapped := fun _ => false, foreign := foreign, answers := [] }
    live := []
    bumped := [] }
  step := step

end Slab

end Aethalloc
