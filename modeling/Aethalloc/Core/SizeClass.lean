/-
Size classes, and rounding a size up to a power of two.

`round_up_pow2` counts leading zeros and shifts, on 64-bit words.  A shift by the
whole width keeps only the low six bits of its amount, as the release build's
machine shift does, so sizes above 2^63 come out as 1.  The product in `alloc_size`
keeps the low 64 bits, for the same reason.
-/
import Mathlib.Data.Nat.Log
import Aethalloc.Core.Page

namespace Aethalloc

/-- `usize::leading_zeros`, of a 64-bit word. -/
def leadingZeros (n : Nat) : Nat := if n = 0 then 64 else 63 - Nat.log2 n

/-- `1usize << k`. -/
def shiftOne (k : Nat) : Nat := 2 ^ (k % 64)

/-- Round up to next power of 2. -/
def roundUpPow2 (size : Nat) : Nat :=
  if size = 0 then
    1
  else if size.isPowerOfTwo then
    size
  else
    shiftOne (64 - leadingZeros size)

/-- Size classes for allocation. -/
inductive SizeClass
  /-- 16-128 bytes, power-of-2. -/
  | tiny
  /-- 256B - 8KB, slab allocation. -/
  | small
  /-- 16KB - 256KB, buddy system. -/
  | medium
  /-- More than 256KB, direct mmap. -/
  | large
  deriving DecidableEq

/-- Classify a size request into a size class. -/
def SizeClass.classify (size : Nat) : SizeClass :=
  if size = 0 then
    .tiny
  else if size ≤ 128 then
    .tiny
  else if size ≤ 8 * 1024 then
    .small
  else if size ≤ 256 * 1024 then
    .medium
  else
    .large

/-- The allocation size for this class, rounded up to class boundary. -/
def SizeClass.allocSize (c : SizeClass) (requested : Nat) : Nat :=
  match c with
  | .tiny =>
      if requested = 0 then
        16
      else
        let pow2 := roundUpPow2 requested
        if pow2 < 16 then 16 else pow2
  | .small => roundUpPow2 requested
  | .medium => roundUpPow2 requested
  | .large =>
      let pages :=
        if requested % PAGE_SIZE > 0 then requested / PAGE_SIZE + 1 else requested / PAGE_SIZE
      pages * PAGE_SIZE % 2 ^ 64

end Aethalloc
