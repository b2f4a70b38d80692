/-
Pages, and the part of the kernel that hands them out.

`System` is what the process shares with the kernel: the bytes of memory, which
pages the allocator has mapped, and which belong to the rest of the process
(stacks, statics, other mappings).  What the kernel will answer to the mappings to
come is a list that each call uses up from the front: an address, or nothing when
the mapping fails.  An address that the kernel could not have answered with,
because something is mapped there already, counts as a failure too.

Page numbers are addresses divided by the page size.
-/
import Aethalloc.Lib.Memory

namespace Aethalloc

open Lib

def PAGE_SIZE : Nat := 4096

/-- The memory of the process and the kernel's account of it. -/
structure System where
  mem : Mem
  mapped : Nat → Bool
  foreign : Nat → Bool
  answers : List (Option Nat)

namespace System

/-- The `len` bytes at `base` are pages that nobody has mapped. -/
def Free (s : System) (base len : Nat) : Prop :=
  base ≠ 0 ∧ base % PAGE_SIZE = 0 ∧ base + len ≤ 2 ^ 64 ∧
    ∀ i < len / PAGE_SIZE, s.mapped (base / PAGE_SIZE + i) = false ∧
      s.foreign (base / PAGE_SIZE + i) = false

instance (s : System) (base len : Nat) : Decidable (s.Free base len) :=
  inferInstanceAs (Decidable (_ ∧ _ ∧ _ ∧ _))

/-- Mark the pages of the `len` bytes at `base`. -/
def setMapped (s : System) (base len : Nat) (b : Bool) : Nat → Bool := fun page =>
  if base / PAGE_SIZE ≤ page ∧ page < base / PAGE_SIZE + len / PAGE_SIZE then b else s.mapped page

/-- An anonymous `mmap` of `len` bytes, a multiple of the page size: zeroed pages, or a failure. -/
def mmap (s : System) (len : Nat) : System × Option Nat :=
  match s.answers with
  | [] => (s, none)
  | none :: rest => ({ s with answers := rest }, none)
  | some base :: rest =>
      if len ≠ 0 ∧ s.Free base len then
        ({ s with
          mem := s.mem.fill base len 0
          mapped := s.setMapped base len true
          answers := rest }, some base)
      else
        ({ s with answers := rest }, none)

/-- `munmap`; an address that is not page-aligned or an empty range is refused. -/
def munmap (s : System) (ptr len : Nat) : System :=
  if ptr % PAGE_SIZE = 0 ∧ len ≠ 0 then { s with mapped := s.setMapped ptr len false } else s

end System

namespace PageAllocator

/-- `NonNull::<u8>::dangling()`. -/
def DANGLING : Nat := 1

def alloc (s : System) (pages : Nat) : System × Option Nat :=
  if pages = 0 then (s, some DANGLING) else s.mmap (pages * PAGE_SIZE % 2 ^ 64)

def dealloc (s : System) (ptr pages : Nat) : System :=
  if pages = 0 then s else s.munmap ptr (pages * PAGE_SIZE % 2 ^ 64)

end PageAllocator

end Aethalloc
