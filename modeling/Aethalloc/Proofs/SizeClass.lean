/-
Size classes are powers of two from 16 to 65536.

`round_up_pow2` is described once, by the power of two it returns; the class of a
size then follows for every size a small request can have.

`SizeClass` rounds by other rules at both ends, to 16 at least and to whole pages
above 256 KB.  All of them together round into one set, the class sizes, and that
the result is large enough, grows with the size and is its own rounding are the
laws of rounding into a set.  What is left is the top of the address space, where
the last multiple of a page does not fit into a word.
-/
import Mathlib.Tactic.ByContra
import Aethalloc.Lib.Rounding
import Aethalloc.Lib.Word
import Aethalloc.Abi.Global

namespace Aethalloc

open Lib

/-- Below 2^63 `round_up_pow2` returns the least power of two that is large enough. -/
theorem roundUpPow2_eq {n k : Nat} (hk : k < 64) (hle : n ≤ 2 ^ k) (hgt : 2 ^ k < 2 * n) :
    roundUpPow2 n = 2 ^ k := by
  have hn : n ≠ 0 := by
    intro h0
    rw [h0] at hgt
    omega
  unfold roundUpPow2
  rw [if_neg hn]
  split
  · -- a power of two between 2^(k-1) and 2^k is 2^k
    rename_i hpow
    obtain ⟨j, rfl⟩ := hpow
    have h1 : j ≤ k := (Nat.pow_le_pow_iff_right (by decide)).mp hle
    have h2 : k < j + 1 := by
      rw [← Nat.pow_succ'] at hgt
      exact (Nat.pow_lt_pow_iff_right (by decide)).mp hgt
    rw [show j = k by omega]
  · rename_i hpow
    have hlt : n < 2 ^ k := Nat.lt_of_le_of_ne hle fun hc => hpow ⟨k, hc⟩
    obtain ⟨j, rfl⟩ : ∃ j, k = j + 1 := by
      cases k with
      | zero => rw [Nat.pow_zero] at hlt; omega
      | succ j => exact ⟨j, rfl⟩
    have hlog : Nat.log2 n = j := by
      rw [Nat.log2_eq_iff hn]
      rw [Nat.pow_succ'] at hgt
      exact ⟨by omega, hlt⟩
    unfold shiftOne leadingZeros
    rw [if_neg hn, hlog, show 64 - (63 - j) = j + 1 by omega, Nat.mod_eq_of_lt hk]

/-- Every number from 1 on lies just below some power of two. -/
theorem exists_two_pow {n : Nat} (hn : n ≠ 0) : ∃ k, n ≤ 2 ^ k ∧ 2 ^ k < 2 * n := by
  rcases Nat.eq_or_lt_of_le (Nat.log2_self_le hn) with heq | hlt
  · exact ⟨Nat.log2 n, by omega, by omega⟩
  · refine ⟨Nat.log2 n + 1, Nat.le_of_lt Nat.lt_log2_self, ?_⟩
    rw [Nat.pow_succ']
    omega

/-- A power of two is not rounded. -/
theorem roundUpPow2_self {n : Nat} (h : n.isPowerOfTwo) : roundUpPow2 n = n := by
  unfold roundUpPow2
  rw [if_neg (Nat.ne_of_gt (Nat.pos_of_isPowerOfTwo h)), if_pos h]

def powersOfTwo : Set Nat := { m | m.isPowerOfTwo }

theorem roundUpPow2_rounds {n : Nat} (hpos : 0 < n) (hle : n ≤ 2 ^ 63) :
    RoundsTo powersOfTwo n (roundUpPow2 n) := by
  obtain ⟨k, hk, hk'⟩ := exists_two_pow (Nat.ne_of_gt hpos)
  have hlt : k < 64 := by
    by_contra hc
    have hpow : 2 ^ 64 ≤ 2 ^ k := Nat.pow_le_pow_right (by decide) (Nat.not_lt.mp hc)
    omega
  rw [roundUpPow2_eq hlt hk hk']
  refine ⟨⟨⟨k, rfl⟩, hk⟩, ?_⟩
  rintro m ⟨⟨j, rfl⟩, hj⟩
  -- a smaller power would be at most half of this one, and so below `n`
  refine Nat.pow_le_pow_right (by decide) ?_
  by_contra hc
  have hhalf : 2 ^ (j + 1) ≤ 2 ^ k := Nat.pow_le_pow_right (by decide) (by omega)
  rw [Nat.pow_succ'] at hhalf
  omega

namespace SizeClass

/-! ### Rounding to class sizes -/

/-- Powers of two from 16 to 256 KB, and whole pages above. -/
def classSizes : Set Nat :=
  { m | (m.isPowerOfTwo ∧ 16 ≤ m ∧ m ≤ 256 * 1024) ∨ (256 * 1024 < m ∧ PAGE_SIZE ∣ m) }

/-- The rounded size. -/
def rounded (size : Nat) : Nat := (classify size).allocSize size

/-- Up to 256 KB the class sizes are the powers of two with a floor of 16. -/
theorem pow2_rounds {size : Nat} (hpos : 0 < size) (hle : size ≤ 256 * 1024) :
    RoundsTo classSizes size (max (roundUpPow2 size) 16) := by
  have hround := roundUpPow2_rounds hpos (by omega)
  have htop : roundUpPow2 size ≤ 256 * 1024 := hround.le_of_mem ⟨18, rfl⟩ hle
  refine ⟨⟨Or.inl ⟨?_, Nat.le_max_right _ _, by omega⟩, hround.le.trans (Nat.le_max_left _ _)⟩, ?_⟩
  · rcases Nat.le_total (roundUpPow2 size) 16 with hlow | hhigh
    · rw [Nat.max_eq_right hlow]
      exact ⟨4, rfl⟩
    · rw [Nat.max_eq_left hhigh]
      exact hround.mem
  · rintro m ⟨⟨hpow, hlow, -⟩ | ⟨hhigh, -⟩, hm⟩
    · exact Nat.max_le.mpr ⟨hround.le_of_mem hpow hm, hlow⟩
    · omega

/-- Above 128 bytes the floor is no matter. -/
theorem pow2_rounds_above {size : Nat} (hgt : 128 < size) (hle : size ≤ 256 * 1024) :
    RoundsTo classSizes size (roundUpPow2 size) := by
  have hround := pow2_rounds (by omega) hle
  have hlow := (roundUpPow2_rounds (by omega) (by omega : size ≤ 2 ^ 63)).le
  rw [Nat.max_eq_left (by omega)] at hround
  exact hround

/-- Above 256 KB they are the multiples of a page. -/
theorem pages_round {size pages : Nat} (hgt : 256 * 1024 < size)
    (hpages : pages = if size % PAGE_SIZE > 0 then size / PAGE_SIZE + 1 else size / PAGE_SIZE) :
    RoundsTo classSizes size (pages * PAGE_SIZE) := by
  have hbounds : size ≤ pages * PAGE_SIZE ∧ pages * PAGE_SIZE < size + PAGE_SIZE := by
    unfold PAGE_SIZE at *
    split at hpages <;> omega
  refine ⟨⟨Or.inr ⟨by omega, Nat.dvd_mul_left _ _⟩, hbounds.1⟩, ?_⟩
  rintro m ⟨⟨-, -, hle⟩ | ⟨-, q, rfl⟩, hm⟩
  · omega
  · unfold PAGE_SIZE at *
    omega

/-- Which sizes a class is for. -/
theorem classify_cases (size : Nat) :
    (size ≤ 128 ∧ classify size = .tiny) ∨
    (128 < size ∧ size ≤ 8 * 1024 ∧ classify size = .small) ∨
    (8 * 1024 < size ∧ size ≤ 256 * 1024 ∧ classify size = .medium) ∨
    (256 * 1024 < size ∧ classify size = .large) := by
  unfold classify
  by_cases hzero : size = 0
  · exact Or.inl ⟨by omega, if_pos hzero⟩
  · rw [if_neg hzero]
    split
    · exact Or.inl ⟨by omega, rfl⟩
    · split
      · exact Or.inr (Or.inl ⟨by omega, by omega, rfl⟩)
      · split
        · exact Or.inr (Or.inr (Or.inl ⟨by omega, by omega, rfl⟩))
        · exact Or.inr (Or.inr (Or.inr ⟨by omega, rfl⟩))

/-- Sizes on the same side of every boundary are of the same class. -/
theorem classify_congr {size size' : Nat} (htiny : size ≤ 128 ↔ size' ≤ 128)
    (hsmall : size ≤ 8 * 1024 ↔ size' ≤ 8 * 1024)
    (hmedium : size ≤ 256 * 1024 ↔ size' ≤ 256 * 1024) : classify size = classify size' := by
  rcases classify_cases size with ⟨h, heq⟩ | ⟨h, h', heq⟩ | ⟨h, h', heq⟩ | ⟨h, heq⟩ <;>
    rcases classify_cases size' with ⟨k, heq'⟩ | ⟨k, k', heq'⟩ | ⟨k, k', heq'⟩ | ⟨k, heq'⟩ <;>
    first | exact heq.trans heq'.symm | omega

/-- Every size is rounded to the least class size that is large enough, unless that is 2^64. -/
theorem rounded_rounds {size : Nat} (hle : size ≤ 2 ^ 64 - PAGE_SIZE) :
    RoundsTo classSizes size (rounded size) := by
  unfold rounded
  rcases classify_cases size with ⟨h, heq⟩ | ⟨h, h', heq⟩ | ⟨h, h', heq⟩ | ⟨h, heq⟩
  · rw [heq]
    by_cases hzero : size = 0
    · subst hzero
      refine ⟨⟨Or.inl ⟨⟨4, rfl⟩, by decide, by decide⟩, by decide⟩, ?_⟩
      rintro m ⟨hm, -⟩
      show 16 ≤ m
      rcases hm with ⟨-, hlow, -⟩ | ⟨hhigh, -⟩
      · exact hlow
      · omega
    · have hmax : allocSize .tiny size = max (roundUpPow2 size) 16 := by
        unfold allocSize
        simp only [if_neg hzero]
        split <;> omega
      rw [hmax]
      exact pow2_rounds (Nat.pos_of_ne_zero hzero) (by omega)
  · rw [heq]
    exact pow2_rounds_above h (by omega)
  · rw [heq]
    exact pow2_rounds_above (by omega) h'
  · rw [heq]
    unfold allocSize
    simp only
    generalize hpages : (if size % PAGE_SIZE > 0 then size / PAGE_SIZE + 1
      else size / PAGE_SIZE) = pages
    have hround := pages_round h hpages.symm
    have hfits : pages * PAGE_SIZE < 2 ^ 64 := by
      -- 2^64 is a multiple of a page as well, and the size is a page below it
      have hmem : 2 ^ 64 - PAGE_SIZE ∈ classSizes := Or.inr ⟨by decide, by decide⟩
      exact Nat.lt_of_le_of_lt (hround.le_of_mem hmem hle) (by decide)
    rw [Nat.mod_eq_of_lt hfits]
    exact hround

/-! ### Without overflow -/

/-- `1usize << k`, or nothing if the shift is as wide as the word. -/
def checkedShiftOne (k : Nat) : Option Nat := if k < 64 then some (2 ^ k) else none

def checkedRoundUpPow2 (size : Nat) : Option Nat :=
  if size = 0 then
    some 1
  else if size.isPowerOfTwo then
    some size
  else
    checkedShiftOne (64 - leadingZeros size)

/-- `alloc_size` with every operation checked. -/
def checkedAllocSize (c : SizeClass) (requested : Nat) : Option Nat :=
  match c with
  | .tiny =>
      if requested = 0 then
        some 16
      else do
        let pow2 ← checkedRoundUpPow2 requested
        return if pow2 < 16 then 16 else pow2
  | .small => checkedRoundUpPow2 requested
  | .medium => checkedRoundUpPow2 requested
  | .large => do
      let pages ← checkedDivCeil requested PAGE_SIZE
      checkedMul pages PAGE_SIZE

theorem checkedRoundUpPow2_eq {size : Nat} (hle : size ≤ 2 ^ 63) :
    checkedRoundUpPow2 size = some (roundUpPow2 size) := by
  unfold checkedRoundUpPow2 roundUpPow2
  split
  · rfl
  · rename_i hzero
    split
    · rfl
    · rename_i hpow
      have hlt : size < 2 ^ 63 := Nat.lt_of_le_of_ne hle fun hc => hpow ⟨63, hc⟩
      have hlog : Nat.log2 size < 63 := (Nat.log2_lt hzero).mpr hlt
      have hshift : 64 - leadingZeros size < 64 := by
        unfold leadingZeros
        rw [if_neg hzero]
        omega
      unfold checkedShiftOne shiftOne
      rw [if_pos hshift, Nat.mod_eq_of_lt hshift]

/-- A large size overflows in the last multiplication or not at all. -/
theorem checkedAllocSize_large {size : Nat} (hlt : size < 2 ^ 64) :
    checkedAllocSize .large size
      = if size ≤ 2 ^ 64 - PAGE_SIZE then some (allocSize .large size) else none := by
  have hdiv : checkedDivCeil size PAGE_SIZE = some (if size % PAGE_SIZE > 0 then
      size / PAGE_SIZE + 1 else size / PAGE_SIZE) := by
    unfold checkedDivCeil
    split
    · exact checkedAdd_of_lt (by unfold PAGE_SIZE; omega)
    · rfl
  unfold checkedAllocSize allocSize
  simp only [hdiv, Option.bind_eq_bind, Option.bind_some]
  generalize hpages : (if size % PAGE_SIZE > 0 then size / PAGE_SIZE + 1
    else size / PAGE_SIZE) = pages
  have hiff : size ≤ 2 ^ 64 - PAGE_SIZE ↔ pages * PAGE_SIZE < 2 ^ 64 := by
    unfold PAGE_SIZE at *
    split at hpages <;> omega
  unfold checkedMul
  by_cases hfits : pages * PAGE_SIZE < 2 ^ 64
  · rw [if_pos hfits, if_pos (hiff.mpr hfits), Nat.mod_eq_of_lt hfits]
  · rw [if_neg hfits, if_neg (mt hiff.mp hfits)]

/-- Rounding this size overflows nowhere and obeys the laws of rounding. -/
structure Sound (size : Nat) : Prop where
  computed : (classify size).checkedAllocSize size = some (rounded size)
  atLeast : size ≤ rounded size
  sameClass : classify (rounded size) = classify size
  idempotent : rounded (rounded size) = rounded size
  monotone : ∀ smaller ≤ size, rounded smaller ≤ rounded size

theorem computed_iff {size : Nat} (hlt : size < 2 ^ 64) :
    (classify size).checkedAllocSize size = some (rounded size) ↔ size ≤ 2 ^ 64 - PAGE_SIZE := by
  have htop : 256 * 1024 ≤ 2 ^ 64 - PAGE_SIZE := by decide
  unfold rounded
  rcases classify_cases size with ⟨h, heq⟩ | ⟨h, h', heq⟩ | ⟨h, h', heq⟩ | ⟨h, heq⟩ <;> rw [heq]
  · refine iff_of_true ?_ (by omega)
    unfold checkedAllocSize allocSize
    simp only [checkedRoundUpPow2_eq (show size ≤ 2 ^ 63 by omega)]
    split <;> rfl
  · exact iff_of_true (checkedRoundUpPow2_eq (by omega)) (by omega)
  · exact iff_of_true (checkedRoundUpPow2_eq (by omega)) (by omega)
  · rw [checkedAllocSize_large hlt]
    split
    · exact iff_of_true rfl ‹_›
    · exact iff_of_false nofun ‹_›

/--
**Rounding is sound up to the last page.**  For every 64-bit size, the rounded size
is computed without overflow, is at least the size, has the same class and the same
rounded size, and is at least that of every smaller size, if and only if the size is
at most 2^64 less a page.
-/
theorem rounding_sound_iff (size : Nat) (hlt : size < 2 ^ 64) :
    Sound size ↔ size ≤ 2 ^ 64 - PAGE_SIZE := by
  refine ⟨fun h => (computed_iff hlt).mp h.computed, fun hle => ?_⟩
  have hround := rounded_rounds hle
  have hmem : 2 ^ 64 - PAGE_SIZE ∈ classSizes := Or.inr ⟨by decide, by decide⟩
  have hagain : RoundsTo classSizes (rounded size) (rounded (rounded size)) :=
    rounded_rounds (hround.le_of_mem hmem hle)
  -- the boundaries between the classes are class sizes
  have htiny : 128 ∈ classSizes := Or.inl ⟨⟨7, rfl⟩, by decide, by decide⟩
  have hsmall : 8 * 1024 ∈ classSizes := Or.inl ⟨⟨13, rfl⟩, by decide, by decide⟩
  have hmedium : 256 * 1024 ∈ classSizes := Or.inl ⟨⟨18, rfl⟩, by decide, by decide⟩
  exact {
    computed := (computed_iff hlt).mpr hle
    atLeast := hround.le
    sameClass := classify_congr (hround.le_iff htiny) (hround.le_iff hsmall)
      (hround.le_iff hmedium)
    idempotent := hagain.unique (RoundsTo.self hround.mem)
    monotone := fun smaller hsmaller =>
      (rounded_rounds (hsmaller.trans hle)).mono hround hsmaller }

/-- The largest size that is rounded soundly is a whole number of pages. -/
theorem rounding_sound_last : rounded (2 ^ 64 - 4096) = 2 ^ 64 - 4096 ∧ Sound (2 ^ 64 - 4096) :=
  ⟨by decide, (rounding_sound_iff _ (by decide)).mpr (by decide)⟩

/-- The last size of all is rounded to nothing. -/
theorem rounding_wraps : classify (2 ^ 64 - 1) = .large ∧ rounded (2 ^ 64 - 1) = 0 ∧
    (classify (2 ^ 64 - 1)).checkedAllocSize (2 ^ 64 - 1) = none ∧ ¬ Sound (2 ^ 64 - 1) := by
  have hzero : rounded (2 ^ 64 - 1) = 0 := by decide
  refine ⟨by decide, hzero, by decide, fun h => ?_⟩
  have hle := h.atLeast
  rw [hzero] at hle
  exact absurd hle (by decide)

end SizeClass

namespace Abi

/-- The alignment of `malloc`. -/
theorem isPowerOfTwo_eight : (8 : Nat).isPowerOfTwo := ⟨3, rfl⟩

/-- The bytes a block of the class holds for the client. -/
def classSize (cls : Nat) : Nat := 16 * 2 ^ cls

/-- The whole block, with its header. -/
def blockSize (cls : Nat) : Nat := classSize cls + CACHE_HEADER_SIZE

/-- The class of a small size. -/
def classOf (size : Nat) : Option Nat := sizeToClass (max (roundUpPow2 size) 16)

/-- The class of a power of two is its exponent less four, and at least 0. -/
theorem sizeToClass_two_pow : ∀ k < 17,
    sizeToClass (max (2 ^ k) 16) = some (k - 4) ∧ max (2 ^ k) 16 = classSize (k - 4) := by
  decide

/-- Every size from 1 to 65536 has a class, and its blocks are large enough. -/
theorem classOf_spec {size : Nat} (hpos : 0 < size) (hle : size ≤ MAX_CACHE_SIZE) :
    ∃ cls < 13, classOf size = some cls ∧ max (roundUpPow2 size) 16 = classSize cls ∧
      size ≤ classSize cls := by
  obtain ⟨k, hk, hk'⟩ := exists_two_pow (Nat.ne_of_gt hpos)
  have hk17 : k < 17 := by
    by_contra hc
    have : 2 ^ 17 ≤ 2 ^ k := Nat.pow_le_pow_right (by decide) (by omega)
    unfold MAX_CACHE_SIZE at hle
    omega
  obtain ⟨hclass, hsize⟩ := sizeToClass_two_pow k hk17
  refine ⟨k - 4, by omega, ?_, ?_, ?_⟩
  · unfold classOf
    rw [roundUpPow2_eq (by omega) hk hk']
    exact hclass
  · rw [roundUpPow2_eq (by omega) hk hk']
    exact hsize
  · rw [← hsize]
    exact Nat.le_trans hk (Nat.le_max_left _ _)

end Abi

end Aethalloc
