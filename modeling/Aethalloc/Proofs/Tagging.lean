/-
When a tagged pointer comes back as it was.

Each of the three functions of `X86TagManager` is read once, as arithmetic on the
two parts of a word: the address below the bit where the tag stands, and the tag.
The round trip is then whether the address fits below that bit.  With hardware
tagging that is bit 56, and every valid address does.  Without it the tag stands at
bit 48 whatever the width of an address is, so with five-level paging the high bits
of an address are lost.  The software tag manager keeps bit 56 in every case.
-/
import Aethalloc.Lib.Word
import Aethalloc.Hess.X86

namespace Aethalloc.Hess

open Lib

variable {p : UInt64} {t : Tag}

/-! ### The three functions as arithmetic -/

/-- Where the tag stands. -/
def X86FeatureFlags.tagShift (f : X86FeatureFlags) : Nat :=
  if f.hasHardwareTagging then 56 else 48

theorem toNat_le_of_le (ht : t ≤ 15) : t.toNat ≤ 15 := UInt16.le_iff_toNat_le.mp ht

/-- A tag fits into a word above bit 56. -/
theorem toNat_tag_shiftLeft (ht : t ≤ 15) {k : UInt64} (hk : k.toNat ≤ 56) :
    (t.toUInt64 <<< k).toNat = t.toNat <<< k.toNat := by
  have hle := toNat_le_of_le ht
  have hpow : 2 ^ k.toNat ≤ 2 ^ 56 := Nat.pow_le_pow_right (by decide) hk
  have hfits : t.toNat * 2 ^ k.toNat < 2 ^ 64 :=
    Nat.lt_of_le_of_lt (Nat.mul_le_mul hle hpow) (by decide)
  rw [UInt64.toNat_shiftLeft, UInt16.toNat_toUInt64, Nat.mod_eq_of_lt (by omega : k.toNat < 64),
    Nat.shiftLeft_eq, Nat.mod_eq_of_lt hfits]

/-- A tag put above the bits that a mask keeps. -/
theorem toNat_and_or_tag (p : UInt64) (ht : t ≤ 15) {mask k : UInt64}
    (hmask : mask.toNat = 2 ^ k.toNat - 1) (hk : k.toNat ≤ 56) :
    ((p &&& mask) ||| (t.toUInt64 <<< k)).toNat = pack k.toNat p.toNat t.toNat := by
  rw [pack_eq_or, UInt64.toNat_or, UInt64.toNat_and, hmask, toNat_tag_shiftLeft ht hk]

/-- The four bits from bit `k` on. -/
theorem toNat_shiftRight_tag (x k : UInt64) :
    ((x >>> k) &&& 0xF).toUInt16.toNat = x.toNat / 2 ^ (k.toNat % 64) % 16 := by
  rw [UInt64.toNat_toUInt16, UInt64.toNat_and, show (0xF : UInt64).toNat = 2 ^ 4 - 1 from rfl,
    Nat.and_two_pow_sub_one_eq_mod, UInt64.toNat_shiftRight, Nat.shiftRight_eq_div_pow]
  exact Nat.mod_eq_of_lt (Nat.lt_of_lt_of_le (Nat.mod_lt _ (by decide)) (by decide))

namespace X86TagManager

variable (m : X86TagManager)

theorem toNat_tagPointer (p : UInt64) (ht : t ≤ 15) :
    (m.tagPointer p t).toNat = pack m.features.tagShift p.toNat t.toNat := by
  have hle : ¬ t > 15 := UInt16.not_lt.mpr ht
  unfold tagPointer X86FeatureFlags.tagShift
  rw [if_neg hle]
  split
  · exact toNat_and_or_tag p ht rfl (by decide)
  · exact toNat_and_or_tag p ht rfl (by decide)

theorem toNat_untagPointer (p : UInt64) :
    (m.untagPointer p).toNat = p.toNat % 2 ^ m.features.tagShift := by
  unfold untagPointer X86FeatureFlags.tagShift
  rw [← Nat.and_two_pow_sub_one_eq_mod]
  split
  · exact UInt64.toNat_and _ _
  · exact UInt64.toNat_and _ _

theorem toNat_getTag (p : UInt64) :
    (m.getTag p).toNat = p.toNat / 2 ^ m.features.tagShift % 16 := by
  unfold getTag X86FeatureFlags.tagShift
  split
  · exact toNat_shiftRight_tag p 56
  · exact toNat_shiftRight_tag p 48

end X86TagManager

/-! ### Valid addresses -/

/-- A non-null address of user space. -/
def X86FeatureFlags.ValidAddress (f : X86FeatureFlags) (p : UInt64) : Prop :=
  p ≠ 0 ∧ (p.toNat < 2 ^ 47 ∨ (f.hasLa57 = true ∧ p.toNat < 2 ^ 56))

instance (f : X86FeatureFlags) (p : UInt64) : Decidable (f.ValidAddress p) :=
  inferInstanceAs (Decidable (_ ∧ _))

/-- Tagging this pointer can be undone, and done again. -/
structure RoundTrips (m : X86TagManager) (p : UInt64) (t : Tag) : Prop where
  untag : m.untagPointer (m.tagPointer p t) = p
  tag : m.getTag (m.tagPointer p t) = t
  retag : ∀ u ≤ 15, m.tagPointer (m.tagPointer p t) u = m.tagPointer p u

/-- The tag always comes back. -/
theorem getTag_tagPointer (m : X86TagManager) (p : UInt64) (ht : t ≤ 15) :
    m.getTag (m.tagPointer p t) = t := by
  have hle := toNat_le_of_le ht
  apply UInt16.toNat_inj.mp
  rw [m.toNat_getTag, m.toNat_tagPointer p ht, pack_div, Nat.mod_eq_of_lt (by omega)]

/-- The last tag counts. -/
theorem tagPointer_tagPointer (m : X86TagManager) (p : UInt64) (ht : t ≤ 15) {u : Tag}
    (hu : u ≤ 15) : m.tagPointer (m.tagPointer p t) u = m.tagPointer p u := by
  apply UInt64.toNat_inj.mp
  rw [m.toNat_tagPointer _ hu, m.toNat_tagPointer p ht, m.toNat_tagPointer p hu, pack_pack]

/-- The address comes back if and only if it lies below the tag. -/
theorem untagPointer_tagPointer_iff (m : X86TagManager) (p : UInt64) (ht : t ≤ 15) :
    m.untagPointer (m.tagPointer p t) = p ↔ p.toNat < 2 ^ m.features.tagShift := by
  rw [← UInt64.toNat_inj, m.toNat_untagPointer, m.toNat_tagPointer p ht, pack_mod]
  constructor
  · intro heq
    rw [← heq]
    exact Nat.mod_lt _ (Nat.two_pow_pos _)
  · exact Nat.mod_eq_of_lt

/--
**Tagging loses the high bits of an address when there is no hardware for it.**  For
every set of features, every address valid under it and every tag from 0 to 15, the
address and the tag come back from the tagged pointer, and another tag takes the place
of the first, if and only if the processor has hardware tagging or the address is
below 2^48.
-/
theorem tagging_round_trips_iff (m : X86TagManager) (p : UInt64) (t : Tag)
    (hp : m.features.ValidAddress p) (ht : t ≤ 15) :
    RoundTrips m p t ↔ m.features.hasHardwareTagging = true ∨ p.toNat < 2 ^ 48 := by
  have hshift : p.toNat < 2 ^ m.features.tagShift ↔
      m.features.hasHardwareTagging = true ∨ p.toNat < 2 ^ 48 := by
    unfold X86FeatureFlags.tagShift
    by_cases hhw : m.features.hasHardwareTagging = true
    · rw [if_pos hhw]
      refine iff_of_true ?_ (Or.inl hhw)
      rcases hp.2 with hlow | ⟨-, hhigh⟩
      · exact Nat.lt_trans hlow (by decide)
      · exact hhigh
    · rw [if_neg hhw, or_iff_right hhw]
  rw [← hshift, ← untagPointer_tagPointer_iff m p ht]
  refine ⟨RoundTrips.untag, fun huntag => ?_⟩
  exact ⟨huntag, getTag_tagPointer m p ht, fun u hu => tagPointer_tagPointer m p ht hu⟩

/-- With hardware tagging, an address that needs five-level paging comes back. -/
theorem tagging_round_trips_high : RoundTrips
    { features := { hasIntelLam := true, hasAmdUai := false, hasLa57 := true },
      nextTag := 1, usedTags := 0 } 0x00FF000000001000 15 :=
  (tagging_round_trips_iff _ _ _ (by decide) (by decide)).mpr (Or.inl rfl)

/-- An Intel processor with five-level paging and without LAM. -/
def la57Only (leaf : UInt32) : CpuidResult :=
  if leaf = 0 then
    { eax := 7, ebx := 0x756E6547, ecx := 0x6C65746E, edx := 0x49656E69 }
  else
    { eax := 0, ebx := 0, ecx := 0x00010000, edx := 0 }

/-- On that processor bit 48 of an address is lost. -/
theorem tagging_loses_high_bits :
    (X86TagManager.new la57Only).features =
      { hasIntelLam := false, hasAmdUai := false, hasLa57 := true } ∧
    (X86TagManager.new la57Only).features.ValidAddress 0x0001000000001000 ∧
    (X86TagManager.new la57Only).untagPointer
      ((X86TagManager.new la57Only).tagPointer 0x0001000000001000 5) = 0x1000 ∧
    ¬ RoundTrips (X86TagManager.new la57Only) 0x0001000000001000 5 := by
  have huntag : (X86TagManager.new la57Only).untagPointer
      ((X86TagManager.new la57Only).tagPointer 0x0001000000001000 5) = 0x1000 := by decide
  refine ⟨by decide, by decide, huntag, fun h => ?_⟩
  have heq := huntag.symm.trans h.untag
  exact absurd heq (by decide)

/-! ### The software tag manager -/

theorem toNat_and_not (x y : UInt64) : (x &&& ~~~y).toNat = andNot x.toNat y.toNat := by
  have hofNat : ∀ z : UInt64, BitVec.ofNat 64 z.toNat = z.toBitVec := fun z =>
    BitVec.ofNat_toNat 64 z.toBitVec
  unfold andNot
  rw [hofNat, hofNat]
  rfl

/-- The mask of the software tag manager leaves an address below 2^56 alone. -/
theorem toNat_software_mask {x : UInt64} {u : Nat} (hu : u < 2 ^ 4)
    (hx : x.toNat = pack 56 p.toNat u) (hp : p.toNat < 2 ^ 56) :
    (x &&& (~~~0x0F00000000000000 : UInt64)).toNat = p.toNat := by
  rw [toNat_and_not, hx]
  exact (andNot_pack hu (by decide)).trans (Nat.mod_eq_of_lt hp)

/-- Its tag stands above every address there is, whatever the processor. -/
theorem software_round_trips (m : SoftwareTagManager) (hp : p.toNat < 2 ^ 56) (ht : t ≤ 15) :
    ∃ tagged, m.tagPointer p t = .ok tagged ∧ m.untagPointer tagged = p ∧
      m.getTag tagged = t := by
  have hle := toNat_le_of_le ht
  have hself : p.toNat = pack 56 p.toNat 0 := (Nat.mod_eq_of_lt hp).symm
  have hmask := toNat_software_mask (by decide) hself hp
  have htagged : ((p &&& (~~~0x0F00000000000000 : UInt64)) ||| (t.toUInt64 <<< 56)).toNat =
      pack 56 p.toNat t.toNat := by
    rw [pack_eq_or, UInt64.toNat_or, hmask, toNat_tag_shiftLeft ht (by decide),
      Nat.and_two_pow_sub_one_eq_mod, Nat.mod_eq_of_lt hp]
    rfl
  refine ⟨_, if_neg (UInt16.not_lt.mpr ht), ?_, ?_⟩
  · apply UInt64.toNat_inj.mp
    exact toNat_software_mask (by omega) htagged hp
  · apply UInt16.toNat_inj.mp
    unfold SoftwareTagManager.getTag
    rw [toNat_shiftRight_tag, htagged]
    exact (congrArg (· % 16) (pack_div 56 _ _)).trans (Nat.mod_eq_of_lt (by omega))

end Aethalloc.Hess
