/-
Machine words as natural numbers.

Addresses and sizes are 64-bit words in the source.  The development keeps them as
natural numbers, which is faithful as long as no operation wraps, and takes the
bit operations from `BitVec 64`, where they are exactly the hardware's.  The
lemmas translate each bit trick into the arithmetic it stands for.
-/
import Mathlib.Data.Nat.Bitwise
import Mathlib.Tactic.Ring

namespace Lib

/-- `x & !m` on 64-bit words. -/
def andNot (x m : Nat) : Nat := (BitVec.ofNat 64 x &&& ~~~BitVec.ofNat 64 m).toNat

/-- Masking off the low `k` bits rounds down to a multiple of `2 ^ k`. -/
theorem andNot_two_pow_sub_one {x k : Nat} (hx : x < 2 ^ 64) :
    andNot x (2 ^ k - 1) = x / 2 ^ k * 2 ^ k := by
  refine Nat.eq_of_testBit_eq fun i => ?_
  have hround : x / 2 ^ k * 2 ^ k = (x >>> k) <<< k := by
    rw [Nat.shiftRight_eq_div_pow, Nat.shiftLeft_eq]
  rw [hround, Nat.testBit_shiftLeft, Nat.testBit_shiftRight]
  unfold andNot
  rw [← BitVec.getLsbD, BitVec.getLsbD_and, BitVec.getLsbD_not, BitVec.getLsbD_ofNat,
    BitVec.getLsbD_ofNat, Nat.testBit_two_pow_sub_one]
  by_cases hi : i < 64
  · rcases Nat.lt_or_ge i k with hik | hik
    · simp [hi, hik, Nat.not_le.mpr hik]
    · simp [hi, Nat.not_lt.mpr hik, hik, Nat.add_sub_cancel' hik]
  · -- above the word every bit of `x` is clear
    have hhigh : x.testBit (k + (i - k)) = false ∨ i < k := by
      rcases Nat.lt_or_ge i k with hik | hik
      · exact Or.inr hik
      · left
        rw [Nat.add_sub_cancel' hik]
        exact Nat.testBit_lt_two_pow
          (Nat.lt_of_lt_of_le hx (Nat.pow_le_pow_right (by decide) (Nat.not_lt.mp hi)))
    rcases hhigh with hclear | hik
    · simp [hi, hclear]
    · simp [hi, Nat.not_le.mpr hik]

/-- `(addr + align - 1) & !(align - 1)`. -/
def alignUp (addr align : Nat) : Nat := andNot (addr + align - 1) (align - 1)

/-- For a power of two, `alignUp` is the least multiple from `addr` on. -/
theorem alignUp_spec {addr k : Nat} (h : addr + 2 ^ k ≤ 2 ^ 64) :
    2 ^ k ∣ alignUp addr (2 ^ k) ∧ addr ≤ alignUp addr (2 ^ k) ∧
      alignUp addr (2 ^ k) < addr + 2 ^ k := by
  have hpos : 0 < 2 ^ k := Nat.two_pow_pos k
  unfold alignUp
  rw [andNot_two_pow_sub_one (by omega)]
  have hdiv := Nat.div_add_mod (addr + 2 ^ k - 1) (2 ^ k)
  have hmod := Nat.mod_lt (addr + 2 ^ k - 1) hpos
  rw [Nat.mul_comm] at hdiv
  refine ⟨Nat.dvd_mul_left _ _, ?_, ?_⟩ <;> omega

/-- An address that is aligned already stays. -/
theorem alignUp_of_dvd {addr k : Nat} (h : addr + 2 ^ k ≤ 2 ^ 64) (hd : 2 ^ k ∣ addr) :
    alignUp addr (2 ^ k) = addr := by
  obtain ⟨hdvd, hle, hlt⟩ := alignUp_spec h
  have hsub : 2 ^ k ∣ alignUp addr (2 ^ k) - addr := Nat.dvd_sub hdvd hd
  have := Nat.eq_zero_of_dvd_of_lt hsub (by omega)
  omega

/-- The number of trailing zero bits of a 64-bit word. -/
def trailingZeros (n : Nat) : Nat := ((List.range 64).find? n.testBit).getD 64

/-- A word with fewer than 64 trailing zeros is at least the power they stand for. -/
theorem two_pow_trailingZeros_le {n : Nat} (h : trailingZeros n < 64) :
    2 ^ trailingZeros n ≤ n := by
  unfold trailingZeros at h ⊢
  cases hf : (List.range 64).find? n.testBit with
  | none => simp [hf] at h
  | some i =>
      have hbit : n.testBit i = true := List.find?_some hf
      exact Nat.ge_two_pow_of_testBit hbit

theorem trailingZeros_two_pow {k : Nat} (h : k < 64) : trailingZeros (2 ^ k) = k := by
  have hfind : (List.range 64).find? (2 ^ k).testBit = some k := by
    rw [List.find?_range_eq_some]
    refine ⟨by simp [Nat.testBit_two_pow_self], List.mem_range.mpr h, fun j hj => ?_⟩
    simp [Nat.testBit_two_pow_of_ne (Nat.ne_of_gt hj)]
  unfold trailingZeros
  rw [hfind]
  rfl

/-- Flipping one bit adds or subtracts its power, depending on the bit. -/
theorem xor_two_pow (a k : Nat) :
    a ^^^ 2 ^ k = if a / 2 ^ k % 2 = 0 then a + 2 ^ k else a - 2 ^ k := by
  have hpos : 0 < 2 ^ k := Nat.two_pow_pos k
  have hdiv : (a ^^^ 2 ^ k) / 2 ^ k = a / 2 ^ k ^^^ 1 := by
    rw [Nat.xor_div_two_pow, Nat.div_self hpos]
  have hmod : (a ^^^ 2 ^ k) % 2 ^ k = a % 2 ^ k := by
    rw [Nat.xor_mod_two_pow, Nat.mod_self, Nat.xor_zero]
  have hsplit := Nat.div_add_mod (a ^^^ 2 ^ k) (2 ^ k)
  have hsplit' := Nat.div_add_mod a (2 ^ k)
  rw [hdiv, hmod] at hsplit
  split
  · rename_i heven
    rw [Nat.xor_one_of_even (Nat.even_iff.mpr heven), Nat.mul_add] at hsplit
    omega
  · rename_i hodd
    have hone : a / 2 ^ k % 2 = 1 := by omega
    rw [Nat.xor_one_of_odd (Nat.odd_iff.mpr hone), Nat.mul_sub] at hsplit
    have hle : 2 ^ k * 1 ≤ 2 ^ k * (a / 2 ^ k) :=
      Nat.mul_le_mul_left _ (Nat.one_le_iff_ne_zero.mpr fun h0 => hodd (by simp [h0]))
    omega

/-! ### Fields

A word that keeps a field above its low bits, and what the usual masks and shifts do
with it.
-/

/-- The low `k` bits of `x`, and `t` from bit `k` on. -/
def pack (k x t : Nat) : Nat := x % 2 ^ k + 2 ^ k * t

theorem pack_eq_or (k x t : Nat) : pack k x t = (x &&& (2 ^ k - 1)) ||| (t <<< k) := by
  have hlt : x % 2 ^ k < 2 ^ k := Nat.mod_lt x (Nat.two_pow_pos k)
  unfold pack
  rw [Nat.and_two_pow_sub_one_eq_mod, Nat.shiftLeft_eq, Nat.mul_comm t, Nat.or_comm,
    ← Nat.two_pow_add_eq_or_of_lt hlt, Nat.add_comm]

@[simp] theorem pack_mod (k x t : Nat) : pack k x t % 2 ^ k = x % 2 ^ k := by
  unfold pack
  rw [Nat.add_mul_mod_self_left, Nat.mod_mod]

@[simp] theorem pack_div (k x t : Nat) : pack k x t / 2 ^ k = t := by
  unfold pack
  rw [Nat.add_mul_div_left _ _ (Nat.two_pow_pos k),
    Nat.div_eq_of_lt (Nat.mod_lt x (Nat.two_pow_pos k)), Nat.zero_add]

/-- The last field written stays. -/
@[simp] theorem pack_pack (k x t u : Nat) : pack k (pack k x t) u = pack k x u :=
  congrArg (· + 2 ^ k * u) (pack_mod k x t)

/-- Masking off a field of `w` bits leaves what is below it. -/
theorem andNot_pack {k w x t : Nat} (ht : t < 2 ^ w) (hk : k ≤ 64) :
    andNot (pack k x t) ((2 ^ w - 1) <<< k) = x % 2 ^ k := by
  refine Nat.eq_of_testBit_eq fun i => ?_
  rw [pack_eq_or]
  unfold andNot
  rw [← BitVec.getLsbD, BitVec.getLsbD_and, BitVec.getLsbD_not, BitVec.getLsbD_ofNat,
    BitVec.getLsbD_ofNat, Nat.testBit_or, Nat.testBit_and, Nat.testBit_two_pow_sub_one,
    Nat.testBit_shiftLeft, Nat.testBit_shiftLeft, Nat.testBit_two_pow_sub_one,
    Nat.testBit_mod_two_pow]
  rcases Nat.lt_or_ge i k with hik | hik
  · simp [hik, Nat.not_le.mpr hik, Nat.lt_of_lt_of_le hik hk]
  · -- a bit of the field is masked off, and above the field all bits are clear
    rcases Nat.lt_or_ge (i - k) w with hiw | hiw
    · simp [hik, hiw, Nat.not_lt.mpr hik]
    · have hclear : t.testBit (i - k) = false :=
        Nat.testBit_lt_two_pow (Nat.lt_of_lt_of_le ht (Nat.pow_le_pow_right (by decide) hiw))
      simp [hclear, Nat.not_lt.mpr hik]

/-! ### Arithmetic that may not wrap -/

/-- The sum, or nothing if it does not fit into a word. -/
def checkedAdd (a b : Nat) : Option Nat := if a + b < 2 ^ 64 then some (a + b) else none

/-- The difference, or nothing if it would be negative. -/
def checkedSub (a b : Nat) : Option Nat := if b ≤ a then some (a - b) else none

/-- The product, or nothing if it does not fit into a word. -/
def checkedMul (a b : Nat) : Option Nat := if a * b < 2 ^ 64 then some (a * b) else none

/-- `div_ceil`: the quotient, and one more if there is a remainder. -/
def checkedDivCeil (a b : Nat) : Option Nat :=
  if a % b > 0 then checkedAdd (a / b) 1 else some (a / b)

theorem checkedAdd_of_lt {a b : Nat} (h : a + b < 2 ^ 64) : checkedAdd a b = some (a + b) :=
  if_pos h

theorem checkedSub_of_le {a b : Nat} (h : b ≤ a) : checkedSub a b = some (a - b) := if_pos h

theorem checkedMul_of_lt {a b : Nat} (h : a * b < 2 ^ 64) : checkedMul a b = some (a * b) :=
  if_pos h

theorem checkedDivCeil_of_lt {a b : Nat} (hb : 0 < b) (ha : a + 1 < 2 ^ 64) :
    checkedDivCeil a b = some ((a + b - 1) / b) := by
  have hle : a / b ≤ a := Nat.div_le_self a b
  have hdiv := Nat.div_add_mod a b
  have hmod := Nat.mod_lt a hb
  unfold checkedDivCeil
  split
  · rename_i hrem
    rw [checkedAdd_of_lt (by omega)]
    refine congrArg some (Nat.div_eq_of_lt_le ?_ ?_).symm
    · rw [Nat.succ_mul, Nat.mul_comm]
      omega
    · rw [Nat.succ_mul, Nat.succ_mul, Nat.mul_comm]
      omega
  · rename_i hrem
    refine congrArg some (Nat.div_eq_of_lt_le ?_ ?_).symm
    · rw [Nat.mul_comm]
      omega
    · rw [Nat.succ_mul, Nat.mul_comm]
      omega

end Lib
