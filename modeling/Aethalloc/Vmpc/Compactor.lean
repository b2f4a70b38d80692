/-
The page compactor.

`try_relocate_page` gives a range of pages new physical memory behind the same
addresses: it copies them to a temporary mapping, unmaps them, maps fresh pages in
their place and copies back.  In between, the only copy of the data is the
temporary one, and any of the system calls can fail.

The kernel here is what these calls see of it: the bytes of memory, which pages are
mapped in the process, `errno`, and the answers to the calls to come, in order.  A
call that fails sets `errno` and changes nothing else; fresh pages are zeroed.  The
pointers that are copied from and to are valid by the caller's promise, so the
copies are plain ones.
-/
import Aethalloc.Lib.Memory

namespace Aethalloc.Vmpc

open Lib

def PAGE_SIZE : Nat := 4096

def ENOMEM : Int := 12
def EINVAL : Int := 22

inductive CompactError
  | invalidAddress
  | permissionDenied
  | outOfMemory
  | crossProcessFailed
  | unknown (errno : Int)
  deriving DecidableEq

inductive CompactResult
  | success
  | partialSuccess (pagesMoved : Nat)
  | failed (error : CompactError)
  | noAction
  deriving DecidableEq

/-! ### System calls -/

/-- What the kernel answers to a call: success, with the address if it is to choose one, or an
error. -/
inductive Answer
  | ok (addr : Nat)
  | fail (errno : Int)
  deriving DecidableEq

def Answer.isOk : Answer → Bool
  | ok _ => true
  | fail _ => false

structure Kernel where
  mem : Mem
  mapped : Nat → Bool
  errno : Int
  answers : Nat → Answer

/-- The page is one of those of the `len` bytes at `addr`. -/
def InPages (addr len page : Nat) : Prop :=
  addr / PAGE_SIZE ≤ page ∧ page < addr / PAGE_SIZE + len / PAGE_SIZE

instance (addr len page : Nat) : Decidable (InPages addr len page) :=
  inferInstanceAs (Decidable (_ ∧ _))

namespace Kernel

/-- The kernel with the first of its answers used up. -/
def answered (k : Kernel) : Kernel := { k with answers := fun i => k.answers (i + 1) }

def failed (k : Kernel) (errno : Int) : Kernel := { k.answered with errno := errno }

def setMapped (k : Kernel) (addr len : Nat) (b : Bool) : Kernel :=
  { k with mapped := fun page => if InPages addr len page then b else k.mapped page }

/-- Zeroed pages at an address. -/
def mapAt (k : Kernel) (addr len : Nat) : Kernel :=
  { k.setMapped addr len true with mem := k.mem.fill addr len 0 }

/-- The `len` bytes at `addr` are pages that are not mapped. -/
def Unused (k : Kernel) (addr len : Nat) : Prop :=
  addr ≠ 0 ∧ addr % PAGE_SIZE = 0 ∧ addr + len ≤ 2 ^ 64 ∧
    ∀ i < len / PAGE_SIZE, k.mapped (addr / PAGE_SIZE + i) = false

instance (k : Kernel) (addr len : Nat) : Decidable (k.Unused addr len) :=
  inferInstanceAs (Decidable (_ ∧ _ ∧ _ ∧ _))

/-- `mmap(null, len, …, MAP_PRIVATE | MAP_ANONYMOUS, -1, 0)`. -/
def mmap (k : Kernel) (len : Nat) : Kernel × Option Nat :=
  match k.answers 0 with
  | .fail errno => (k.failed errno, none)
  | .ok addr =>
      if k.Unused addr len then
        (k.answered.mapAt addr len, some addr)
      else
        (k.failed ENOMEM, none)

/-- `mmap(addr, len, …, MAP_PRIVATE | MAP_ANONYMOUS | MAP_FIXED, -1, 0)`, which replaces what is
mapped there. -/
def mmapFixed (k : Kernel) (addr len : Nat) : Kernel × Bool :=
  match k.answers 0 with
  | .fail errno => (k.failed errno, false)
  | .ok _ =>
      if addr % PAGE_SIZE = 0 then
        (k.answered.mapAt addr len, true)
      else
        (k.failed EINVAL, false)

def munmap (k : Kernel) (addr len : Nat) : Kernel × Bool :=
  match k.answers 0 with
  | .fail errno => (k.failed errno, false)
  | .ok _ =>
      if addr % PAGE_SIZE = 0 then
        (k.answered.setMapped addr len false, true)
      else
        (k.failed EINVAL, false)

/-- `core::ptr::copy_nonoverlapping`. -/
def copy (k : Kernel) (src dst len : Nat) : Kernel := { k with mem := k.mem.copy src dst len }

end Kernel

/-! ### Relocation -/

/-- `Compactor::try_relocate_page`. -/
def tryRelocatePage (k : Kernel) (src size : Nat) :
    Kernel × Except CompactError CompactResult :=
  if size = 0 ∨ size % PAGE_SIZE ≠ 0 then
    (k, .error .invalidAddress)
  else
    -- allocate a temporary buffer to hold the contents
    match k.mmap size with
    | (k, none) => (k, .error .outOfMemory)
    | (k, some tempBuf) =>
        let k := k.copy src tempBuf size
        -- unmap the original pages
        match k.munmap src size with
        | (k, false) =>
            let (k, restored) := k.mmapFixed src size
            let k := if restored then k.copy tempBuf src size else k
            let (k, _) := k.munmap tempBuf size
            (k, .error (.unknown k.errno))
        | (k, true) =>
            -- map new pages at the original address
            match k.mmapFixed src size with
            | (k, false) =>
                let (k, _) := k.munmap tempBuf size
                (k, .error (.unknown k.errno))
            | (k, true) =>
                let k := k.copy tempBuf src size
                let (k, _) := k.munmap tempBuf size
                (k, .ok .success)

/-- `Compactor::compact_pages`. -/
def compactPages (k : Kernel) (src size : Nat) : Kernel × Except CompactError CompactResult :=
  tryRelocatePage k src size

end Aethalloc.Vmpc
