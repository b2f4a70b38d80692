/-
Runs of the C interface over either mode of the allocator.

The exported functions of `Abi.Lib` are the same for both modes, and here so are the
runs: the steps are those of `Abi.Label`, calls by any thread, with the kernel's
answers, and the client's own writes between them.  Over magazine caching this is
the machine of `Abi.Lib`; simple caching fills in the record at the end.

The flag `ensure_init` sets is looked at by nothing else; the heap of the simple
mode does not have it.
-/
import Aethalloc.Abi.SimpleCache

namespace Aethalloc.Abi

open Lib

/-! ### Runs -/

namespace Interface

/-- The allocator and what the client holds. -/
structure World (σ : Type) where
  heap : σ
  live : List Allocation

variable {σ : Type} (A : Allocator σ)

/-- The pointer is null or one the client holds. -/
def World.Holds (w : World σ) : Option Nat → Prop
  | none => True
  | some ptr => ∃ a ∈ w.live, a.ptr = ptr

instance (w : World σ) : (ptr : Option Nat) → Decidable (w.Holds ptr)
  | none => inferInstanceAs (Decidable True)
  | some ptr => inferInstanceAs (Decidable (∃ a ∈ w.live, a.ptr = ptr))

/-- The client may write the address. -/
def Writable (w : World σ) (addr : Nat) : Prop :=
  (∃ a ∈ w.live, a.ptr ≤ addr ∧ addr < a.ptr + a.size) ∨
    (A.sys w.heap).foreign (addr / PAGE_SIZE) = true

instance (w : World σ) (addr : Nat) : Decidable (Writable A w addr) :=
  inferInstanceAs (Decidable (_ ∨ _))

/-- The heap as a call finds it, with the kernel's answers to come. -/
def enter (w : World σ) (answers : List (Option Nat)) : σ :=
  A.setSys w.heap { A.sys w.heap with answers := answers }

/-- A call returned `ptr` for a layout of `size` and `align`. -/
def World.gain (w : World σ) (r : σ × Option Nat) (size align : Nat) : World σ where
  heap := r.1
  live :=
    match r.2 with
    | none => w.live
    | some ptr => { ptr := ptr, size := size, align := align } :: w.live

/-- A call freed `ptr`. -/
def World.lose (w : World σ) (heap : σ) (ptr : Option Nat) : World σ where
  heap := heap
  live := w.live.filter fun a => some a.ptr ≠ ptr

def step (w : World σ) : Label → Option (World σ)
  | .alloc t layout answers =>
      some (w.gain (A.alloc (enter A w answers) t layout) layout.size layout.align)
  | .dealloc t ptr answers =>
      if w.Holds ptr then some (w.lose (A.dealloc (enter A w answers) t ptr) ptr) else none
  | .malloc t size answers =>
      if size < 2 ^ 64 then some (w.gain (A.malloc (enter A w answers) t size) size 8) else none
  | .free t ptr answers =>
      if w.Holds ptr then some (w.lose (A.free (enter A w answers) t ptr) ptr) else none
  | .calloc t nmemb size answers =>
      if nmemb < 2 ^ 64 ∧ size < 2 ^ 64 then
        some (w.gain (A.calloc (enter A w answers) t nmemb size) (nmemb * size) 8)
      else
        none
  | .realloc t ptr size answers =>
      if w.Holds ptr ∧ size < 2 ^ 64 then
        match A.realloc (enter A w answers) t ptr size with
        -- a failure with a size that is not zero leaves the old block with the client
        | (heap, none) =>
            if size = 0 then some (w.lose heap ptr) else some { w with heap := heap }
        | (heap, some newPtr) => some ((w.lose heap ptr).gain (heap, some newPtr) size 8)
      else
        none
  | .alignedAlloc t alignment size answers =>
      if alignment < 2 ^ 64 ∧ size < 2 ^ 64 then
        some (w.gain (A.alignedAlloc (enter A w answers) t alignment size) (max size 1) alignment)
      else
        none
  | .posixMemalign t memptr alignment size answers =>
      if alignment < 2 ^ 64 ∧ size < 2 ^ 64 ∧ memptr + 8 ≤ 2 ^ 64 ∧
          ∀ i < 8, Writable A w (memptr + i) then
        match A.posixMemalign (enter A w answers) t memptr alignment size with
        | (heap, code) =>
            let ptr := (A.mem heap).read memptr 8
            if code = 0 ∧ ptr ≠ 0 then
              some (w.gain (heap, some ptr) (max size 1) alignment)
            else
              some { w with heap := heap }
      else
        none
  | .write addr byte =>
      if Writable A w addr then
        some { w with heap := A.setMem w.heap (Function.update (A.mem w.heap) addr byte) }
      else
        none
  | .foreign page mapped =>
      if (A.sys w.heap).mapped page = false then
        some { w with heap := A.setSys w.heap { A.sys w.heap with
          foreign := Function.update (A.sys w.heap).foreign page mapped } }
      else
        none

/-- Any number of threads on a heap. -/
def machine (heap : σ) : Machine (World σ) Label where
  init := { heap := heap, live := [] }
  step := step A

end Interface

/-! ### The simple mode -/

def simpleMode : Allocator Simple.Heap where
  alloc := Simple.Heap.alloc
  dealloc := Simple.Heap.dealloc
  getAllocSize := Simple.Heap.getAllocSize
  ensureInit := id
  sys := Simple.Heap.sys
  setSys := fun h sys => { h with sys := sys }

end Aethalloc.Abi
