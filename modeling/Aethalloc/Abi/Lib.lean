/-
The C interface, and runs of it.

`malloc`, `free`, `calloc`, `realloc`, `aligned_alloc` and `posix_memalign` as
whole calls.  Which of its two bodies `AethAlloc` has is chosen when it is built, and
the exported functions are the same text over both, so they are written over a
record of what they use of an allocator, which magazine caching fills in here.

The machine's steps are these calls on its heap, by any thread, with the client's
own writes between them.  A label carries the kernel's answers to the mappings its
call asks for.  The client keeps the C rules: it frees only null or what it holds,
and it writes only inside what it holds or outside the allocator's memory.

`live` is what the client holds.
-/
import Aethalloc.Lib.Machine
import Aethalloc.Abi.Global

namespace Aethalloc.Abi

open Lib

/-- What the exported functions use of an allocator, whose state is `σ`. -/
structure Allocator (σ : Type) where
  alloc : σ → Nat → Layout → σ × Option Nat
  dealloc : σ → Nat → Option Nat → σ
  getAllocSize : σ → Option Nat → Nat
  ensureInit : σ → σ
  sys : σ → System
  setSys : σ → System → σ

def EINVAL : Nat := 22
def ENOMEM : Nat := 12

namespace Allocator

variable {σ : Type} (A : Allocator σ)

def mem (h : σ) : Mem := (A.sys h).mem

def setMem (h : σ) (mem : Mem) : σ := A.setSys h { A.sys h with mem := mem }

/-- Allocate for a layout, if it is one. -/
def allocLayout (h : σ) (t : Nat) : Option Layout → σ × Option Nat
  | none => (h, none)
  | some layout => A.alloc h t layout

def malloc (h : σ) (t size : Nat) : σ × Option Nat :=
  let h := A.ensureInit h
  if size = 0 then
    (h, none)
  else
    A.allocLayout h t (Layout.fromSizeAlign size 8)

def free (h : σ) (t : Nat) (ptr : Option Nat) : σ := A.dealloc h t ptr

def calloc (h : σ) (t nmemb size : Nat) : σ × Option Nat :=
  if nmemb * size < 2 ^ 64 then
    match A.malloc h t (nmemb * size) with
    | (h, none) => (h, none)
    | (h, some ptr) => (A.setMem h ((A.mem h).fill ptr (nmemb * size) 0), some ptr)
  else
    (h, none)

def realloc (h : σ) (t : Nat) (ptr : Option Nat) (size : Nat) : σ × Option Nat :=
  match ptr with
  | none => A.malloc h t size
  | some ptr =>
      if size = 0 then
        (A.free h t (some ptr), none)
      else
        let oldSize := A.getAllocSize h (some ptr)
        match A.malloc h t size with
        | (h, none) => (h, none)
        | (h, some newPtr) =>
            let h := A.setMem h ((A.mem h).copy ptr newPtr (min oldSize size))
            (A.free h t (some ptr), some newPtr)

def alignedAlloc (h : σ) (t alignment size : Nat) : σ × Option Nat :=
  if alignment = 0 ∨ ¬ alignment.isPowerOfTwo then
    (h, none)
  else
    A.allocLayout h t (Layout.fromSizeAlign (max size 1) alignment)

def posixMemalign (h : σ) (t memptr alignment size : Nat) : σ × Nat :=
  if alignment = 0 ∨ ¬ alignment.isPowerOfTwo ∨ alignment % 8 ≠ 0 then
    (h, EINVAL)
  else
    match A.alignedAlloc h t alignment size with
    | (h, ptr) =>
        if ptr = none ∧ size ≠ 0 then
          (h, ENOMEM)
        else
          (A.setMem h ((A.mem h).write memptr 8 (toPtr ptr)), 0)

end Allocator

/-! ### Over magazine caching -/

def Heap.ensureInit (h : Heap) : Heap := { h with initialized := true }

def magazineMode : Allocator Heap where
  alloc := Heap.alloc
  dealloc := Heap.dealloc
  getAllocSize := Heap.getAllocSize
  ensureInit := Heap.ensureInit
  sys := Heap.sys
  setSys := fun h sys => { h with sys := sys }

namespace Heap

def malloc (h : Heap) (t size : Nat) : Heap × Option Nat := magazineMode.malloc h t size

def free (h : Heap) (t : Nat) (ptr : Option Nat) : Heap := magazineMode.free h t ptr

def calloc (h : Heap) (t nmemb size : Nat) : Heap × Option Nat :=
  magazineMode.calloc h t nmemb size

def realloc (h : Heap) (t : Nat) (ptr : Option Nat) (size : Nat) : Heap × Option Nat :=
  magazineMode.realloc h t ptr size

def alignedAlloc (h : Heap) (t alignment size : Nat) : Heap × Option Nat :=
  magazineMode.alignedAlloc h t alignment size

def posixMemalign (h : Heap) (t memptr alignment size : Nat) : Heap × Nat :=
  magazineMode.posixMemalign h t memptr alignment size

end Heap

/-! ### Runs -/

/-- What the client holds: a pointer, and the size and alignment of the layout it was allocated
for. -/
structure Allocation where
  ptr : Nat
  size : Nat
  align : Nat
  deriving DecidableEq

structure World where
  heap : Heap
  live : List Allocation

inductive Label
  | alloc (t : Nat) (layout : Layout) (answers : List (Option Nat))
  | dealloc (t : Nat) (ptr : Option Nat) (answers : List (Option Nat))
  | malloc (t size : Nat) (answers : List (Option Nat))
  | free (t : Nat) (ptr : Option Nat) (answers : List (Option Nat))
  | calloc (t nmemb size : Nat) (answers : List (Option Nat))
  | realloc (t : Nat) (ptr : Option Nat) (size : Nat) (answers : List (Option Nat))
  | alignedAlloc (t alignment size : Nat) (answers : List (Option Nat))
  | posixMemalign (t memptr alignment size : Nat) (answers : List (Option Nat))
  /-- The client writes a byte. -/
  | write (addr : Nat) (byte : UInt8)
  /-- The rest of the process maps or unmaps a page of its own. -/
  | foreign (page : Nat) (mapped : Bool)

namespace World

/-- The pointer is null or one the client holds. -/
def Holds (w : World) : Option Nat → Prop
  | none => True
  | some ptr => ∃ a ∈ w.live, a.ptr = ptr

instance (w : World) : (ptr : Option Nat) → Decidable (w.Holds ptr)
  | none => inferInstanceAs (Decidable True)
  | some ptr => inferInstanceAs (Decidable (∃ a ∈ w.live, a.ptr = ptr))

/-- The client may write the address. -/
def Writable (w : World) (addr : Nat) : Prop :=
  (∃ a ∈ w.live, a.ptr ≤ addr ∧ addr < a.ptr + a.size) ∨
    w.heap.sys.foreign (addr / PAGE_SIZE) = true

instance (w : World) (addr : Nat) : Decidable (w.Writable addr) :=
  inferInstanceAs (Decidable (_ ∨ _))

/-- The heap as a call finds it, with the kernel's answers to come. -/
def enter (w : World) (answers : List (Option Nat)) : Heap :=
  { w.heap with sys := { w.heap.sys with answers := answers } }

/-- A call returned `ptr` for a layout of `size` and `align`. -/
def gain (w : World) (r : Heap × Option Nat) (size align : Nat) : World where
  heap := r.1
  live :=
    match r.2 with
    | none => w.live
    | some ptr => { ptr := ptr, size := size, align := align } :: w.live

/-- A call freed `ptr`. -/
def lose (w : World) (heap : Heap) (ptr : Option Nat) : World where
  heap := heap
  live := w.live.filter fun a => some a.ptr ≠ ptr

end World

def step (w : World) : Label → Option World
  | .alloc t layout answers =>
      some (w.gain ((w.enter answers).alloc t layout) layout.size layout.align)
  | .dealloc t ptr answers =>
      if w.Holds ptr then some (w.lose ((w.enter answers).dealloc t ptr) ptr) else none
  | .malloc t size answers =>
      if size < 2 ^ 64 then some (w.gain ((w.enter answers).malloc t size) size 8) else none
  | .free t ptr answers =>
      if w.Holds ptr then some (w.lose ((w.enter answers).free t ptr) ptr) else none
  | .calloc t nmemb size answers =>
      if nmemb < 2 ^ 64 ∧ size < 2 ^ 64 then
        some (w.gain ((w.enter answers).calloc t nmemb size) (nmemb * size) 8)
      else
        none
  | .realloc t ptr size answers =>
      if w.Holds ptr ∧ size < 2 ^ 64 then
        match (w.enter answers).realloc t ptr size with
        -- a failure with a size that is not zero leaves the old block with the client
        | (heap, none) =>
            if size = 0 then some (w.lose heap ptr) else some { w with heap := heap }
        | (heap, some newPtr) => some ((w.lose heap ptr).gain (heap, some newPtr) size 8)
      else
        none
  | .alignedAlloc t alignment size answers =>
      if alignment < 2 ^ 64 ∧ size < 2 ^ 64 then
        some (w.gain ((w.enter answers).alignedAlloc t alignment size) (max size 1) alignment)
      else
        none
  | .posixMemalign t memptr alignment size answers =>
      if alignment < 2 ^ 64 ∧ size < 2 ^ 64 ∧ memptr + 8 ≤ 2 ^ 64 ∧
          ∀ i < 8, w.Writable (memptr + i) then
        match (w.enter answers).posixMemalign t memptr alignment size with
        | (heap, code) =>
            let ptr := heap.read memptr 8
            if code = 0 ∧ ptr ≠ 0 then
              some (w.gain (heap, some ptr) (max size 1) alignment)
            else
              some { w with heap := heap }
      else
        none
  | .write addr byte =>
      if w.Writable addr then
        some { w with heap := { w.heap with
          sys := { w.heap.sys with mem := Function.update w.heap.sys.mem addr byte } } }
      else
        none
  | .foreign page mapped =>
      if w.heap.sys.mapped page = false then
        some { w with heap := { w.heap with
          sys := { w.heap.sys with foreign := Function.update w.heap.sys.foreign page mapped } } }
      else
        none

/-- Any number of threads in a process with any memory and any pages of its own. -/
def machine (mem : Mem) (foreign : Nat → Bool) : Machine World Label where
  init := { heap := Heap.start mem foreign, live := [] }
  step := step

end Aethalloc.Abi
