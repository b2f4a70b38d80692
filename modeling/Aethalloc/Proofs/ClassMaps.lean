/-
The maps from sizes to classes agree.

Three maps choose a class for a size: the table of `size_to_class`, and the two
index computations of `get_slot`, from 16 and from 256 bytes.  All start from
`round_up_pow2`, so each of them is read off at the power of two that it returns,
and that is the least one.  The class size then is the least of all class sizes, and
it is the same one for all three, so a block always returns to a class it is large
enough for.
-/
import Aethalloc.Core.Magazine
import Aethalloc.Proofs.SizeClass
import Aethalloc.Proofs.ThreadLocal

namespace Aethalloc

open Lib
open Abi (sizeToClass)
open ThreadLocal.ThreadLocalCache (getSlot)

variable {n c : Nat}

/-- The sizes of the blocks in the global pools. -/
def blockSizes : Set Nat := { m | ∃ c < NUM_SIZE_CLASSES, m = 16 <<< c }

theorem isPowerOfTwo_shift (c : Nat) : (16 <<< c).isPowerOfTwo := by
  rw [Nat.shiftLeft_eq, show 16 = 2 ^ 4 from rfl, ← Nat.pow_add]
  exact ⟨_, rfl⟩

/-- A class that the table has is the one of the rounded size. -/
theorem rounded_of_class (h : sizeToClass n = some c) :
    max (roundUpPow2 n) 16 = 16 <<< c ∧ c < NUM_SIZE_CLASSES := by
  unfold sizeToClass at h
  simp only at h
  split at h
  case h_14 => cases h
  all_goals
    rename_i heq
    obtain rfl := Option.some.inj h
    exact ⟨heq, by decide⟩

/-- Rounding first makes no difference to the table. -/
theorem sizeToClass_rounded (h : (max (roundUpPow2 n) 16).isPowerOfTwo) :
    sizeToClass (max (roundUpPow2 n) 16) = sizeToClass n := by
  unfold sizeToClass
  rw [roundUpPow2_self h, Nat.max_assoc, Nat.max_self]

/-- The table has every power of two up to 65536. -/
theorem class_of_rounded {k : Nat} (hround : roundUpPow2 n = 2 ^ k) (hk : k < 17) :
    sizeToClass n = some (k - 4) ∧ 16 <<< (k - 4) = max (2 ^ k) 16 := by
  obtain ⟨hclass, hsize⟩ := Abi.sizeToClass_two_pow k hk
  have hshift : 16 <<< (k - 4) = max (2 ^ k) 16 := by
    rw [hsize, Nat.shiftLeft_eq]
    rfl
  have hpow : (max (roundUpPow2 n) 16).isPowerOfTwo := by
    rw [hround, ← hshift]
    exact isPowerOfTwo_shift (k - 4)
  rw [← sizeToClass_rounded hpow, hround]
  exact ⟨hclass, hshift⟩

/-- A class is found for the sizes up to 65536 only. -/
theorem sizeToClass_isSome_iff (hpos : 0 < n) (hle : n ≤ 2 ^ 63) :
    (sizeToClass n).isSome = true ↔ n ≤ 65536 := by
  have hround := roundUpPow2_rounds hpos hle
  constructor
  · intro hsome
    obtain ⟨c, hc⟩ := Option.isSome_iff_exists.mp hsome
    obtain ⟨hmax, hlt⟩ := rounded_of_class hc
    have htop : 16 <<< c ≤ 65536 := by
      rw [Nat.shiftLeft_eq]
      exact Nat.mul_le_mul_left 16 (Nat.pow_le_pow_right (by decide) (Nat.le_of_lt_succ hlt))
    have hn := hround.le
    omega
  · intro hn
    obtain ⟨k, hk⟩ := hround.mem
    have htop : 2 ^ k ≤ 2 ^ 16 := hk ▸ hround.le_of_mem ⟨16, rfl⟩ hn
    have hlt : k < 17 := Nat.lt_succ_of_le ((Nat.pow_le_pow_iff_right (by decide)).mp htop)
    rw [(class_of_rounded hk hlt).1]
    rfl

/-- Its blocks are the smallest that are large enough. -/
theorem class_rounds (hpos : 0 < n) (hle : n ≤ 2 ^ 63) (hc : sizeToClass n = some c) :
    RoundsTo blockSizes n (16 <<< c) := by
  have hround := roundUpPow2_rounds hpos hle
  obtain ⟨hmax, hlt⟩ := rounded_of_class hc
  refine ⟨⟨⟨c, hlt, rfl⟩, ?_⟩, ?_⟩
  · rw [← hmax]
    exact hround.le.trans (Nat.le_max_left _ _)
  · rintro m ⟨⟨c', -, rfl⟩, hm⟩
    have hlow : 16 ≤ 16 <<< c' := by
      rw [Nat.shiftLeft_eq]
      exact Nat.le_mul_of_pos_right 16 (Nat.two_pow_pos c')
    rw [← hmax]
    exact Nat.max_le.mpr ⟨hround.le_of_mem (isPowerOfTwo_shift c') hm, hlow⟩

/-- Up to 8 KB the thread-local cache chooses blocks of the same size. -/
theorem getSlot_class (hle : n ≤ 8192) : ∃ s c, getSlot n = some s ∧ sizeToClass n = some c ∧
    s.sizeForIndex = 16 <<< c := by
  have htiny : ∀ k < 8, ({ isTiny := true, idx := k - 4 } : ThreadLocal.Index).sizeForIndex
      = 16 <<< (k - 4) := fun _ _ => rfl
  have hsmall : ∀ j < 6, ({ isTiny := false, idx := j } : ThreadLocal.Index).sizeForIndex
      = 16 <<< (j + 4) := by decide
  obtain ⟨k, -, hround, ⟨hk, hslot⟩ | ⟨hk7, hk, hslot⟩⟩ := ThreadLocal.getSlot_cases hle
  · exact ⟨_, _, hslot, (class_of_rounded hround (by omega)).1, htiny k hk⟩
  · refine ⟨_, _, hslot, (class_of_rounded hround (by omega)).1, ?_⟩
    rw [hsmall (k - 8) (by omega), show k - 8 + 4 = k - 4 by omega]

/--
**The class maps are exact.**  For every size from 1 to 2^63, `round_up_pow2` returns
the least power of two that is at least the size; `size_to_class` has a class for it
if and only if the size is at most 65536, and then the class has a global pool and the
smallest blocks that are large enough; and up to 8 KB the thread-local cache chooses
blocks of the same size.
-/
theorem class_maps_exact (n : Nat) (hpos : 0 < n) (hle : n ≤ 2 ^ 63) :
    RoundsTo powersOfTwo n (roundUpPow2 n) ∧
    ((sizeToClass n).isSome = true ↔ n ≤ 65536) ∧
    (∀ c, sizeToClass n = some c → c < 13 ∧ RoundsTo blockSizes n (16 <<< c) ∧
      ∀ p : GlobalMagazinePools, (p.get c).isSome = true) ∧
    (n ≤ 8192 → ∃ s c, getSlot n = some s ∧ sizeToClass n = some c ∧
      s.sizeForIndex = 16 <<< c) := by
  refine ⟨roundUpPow2_rounds hpos hle, sizeToClass_isSome_iff hpos hle, fun c hc => ?_,
    getSlot_class⟩
  obtain ⟨-, hlt⟩ := rounded_of_class hc
  refine ⟨hlt, class_rounds hpos hle hc, fun p => ?_⟩
  unfold GlobalMagazinePools.get
  rw [Vector.getElem?_eq_getElem hlt]
  rfl

/-- The size after a boundary of all three maps. -/
theorem class_maps_exact_above : roundUpPow2 4097 = 8192 ∧ sizeToClass 4097 = some 9 ∧
    RoundsTo blockSizes 4097 (16 <<< 9) := by
  have hclass : sizeToClass 4097 = some 9 := by decide
  obtain ⟨-, -, hexact, -⟩ := class_maps_exact 4097 (by decide) (by decide)
  exact ⟨by decide, hclass, (hexact 9 hclass).2.1⟩

end Aethalloc
