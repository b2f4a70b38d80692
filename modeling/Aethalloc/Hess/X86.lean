/-
Pointer tagging on x86_64.

`X86TagManager` finds out from `cpuid` whether the processor ignores the high bits
of an address, by Intel's LAM or AMD's UAI, and with that puts the tag at bit 56.
Without it the tag stands at bit 48.  The loop of `allocate_tag` and all masks are
written out here once more and not taken from the software tag manager.

`cpuid` is what the instruction answers for each leaf.
-/
import Aethalloc.Hess.TagManager

namespace Aethalloc.Hess

/-- The registers that `cpuid` sets. -/
structure CpuidResult where
  eax : UInt32
  ebx : UInt32
  ecx : UInt32
  edx : UInt32

structure X86FeatureFlags where
  hasIntelLam : Bool
  hasAmdUai : Bool
  hasLa57 : Bool
  deriving DecidableEq

/-- `b"GenuineIntel"`. -/
def genuineIntel : List UInt8 :=
  [0x47, 0x65, 0x6E, 0x75, 0x69, 0x6E, 0x65, 0x49, 0x6E, 0x74, 0x65, 0x6C]

/-- `b"AuthenticAMD"`. -/
def authenticAmd : List UInt8 :=
  [0x41, 0x75, 0x74, 0x68, 0x65, 0x6E, 0x74, 0x69, 0x63, 0x41, 0x4D, 0x44]

namespace X86FeatureFlags

def detect (cpuid : UInt32 → CpuidResult) : X86FeatureFlags :=
  let flags : X86FeatureFlags := { hasIntelLam := false, hasAmdUai := false, hasLa57 := false }
  let vendor := cpuid 0
  let vendorBytes : List UInt8 := [
    (vendor.ebx &&& 0xFF).toUInt8,
    ((vendor.ebx >>> 8) &&& 0xFF).toUInt8,
    ((vendor.ebx >>> 16) &&& 0xFF).toUInt8,
    ((vendor.ebx >>> 24) &&& 0xFF).toUInt8,
    (vendor.edx &&& 0xFF).toUInt8,
    ((vendor.edx >>> 8) &&& 0xFF).toUInt8,
    ((vendor.edx >>> 16) &&& 0xFF).toUInt8,
    ((vendor.edx >>> 24) &&& 0xFF).toUInt8,
    (vendor.ecx &&& 0xFF).toUInt8,
    ((vendor.ecx >>> 8) &&& 0xFF).toUInt8,
    ((vendor.ecx >>> 16) &&& 0xFF).toUInt8,
    ((vendor.ecx >>> 24) &&& 0xFF).toUInt8]
  let isIntel := vendorBytes = genuineIntel
  let isAmd := vendorBytes = authenticAmd
  if isIntel ∧ vendor.eax ≥ 7 then
    let leaf7 := cpuid 0x07
    let flags :=
      if leaf7.edx &&& ((1 : UInt32) <<< 26) ≠ 0 then
        { flags with hasIntelLam := true }
      else
        flags
    if leaf7.ecx &&& ((1 : UInt32) <<< 16) ≠ 0 then { flags with hasLa57 := true } else flags
  else if isAmd ∧ vendor.eax ≥ 0x80000000 then
    let maxExt := cpuid 0x80000000
    if maxExt.eax ≥ 0x80000001 then
      let ext := cpuid 0x80000001
      if ext.ecx &&& ((1 : UInt32) <<< 6) ≠ 0 then { flags with hasAmdUai := true } else flags
    else
      flags
  else
    flags

def hasHardwareTagging (f : X86FeatureFlags) : Bool := f.hasIntelLam || f.hasAmdUai

end X86FeatureFlags

structure X86TagManager where
  features : X86FeatureFlags
  nextTag : Tag
  usedTags : UInt16
  deriving DecidableEq

namespace X86TagManager

def new (cpuid : UInt32 → CpuidResult) : X86TagManager where
  features := X86FeatureFlags.detect cpuid
  nextTag := 1
  usedTags := 0

/-- The loop of `allocate_tag`, with so many turns left. -/
def allocateLoop : Nat → X86TagManager → Except TagError Tag × X86TagManager
  | 0, m => (.error .outOfTags, m)
  | n + 1, m =>
      let tag := m.nextTag
      let m := { m with nextTag := if m.nextTag ≥ 15 then 1 else m.nextTag + 1 }
      if m.usedTags &&& ((1 : UInt16) <<< tag) = 0 then
        (.ok tag, { m with usedTags := m.usedTags ||| ((1 : UInt16) <<< tag) })
      else
        allocateLoop n m

def allocateTag (m : X86TagManager) : Except TagError Tag × X86TagManager := allocateLoop 15 m

def freeTag (m : X86TagManager) (tag : Tag) : Except TagError Unit × X86TagManager :=
  if tag = 0 ∨ tag > 15 then
    (.error .invalidTag, m)
  else
    (.ok (), { m with usedTags := m.usedTags &&& ~~~((1 : UInt16) <<< tag) })

def tagPointer (m : X86TagManager) (addr : UInt64) (tag : Tag) : UInt64 :=
  if tag > 15 then
    addr
  else if m.features.hasHardwareTagging then
    (addr &&& (0x00FFFFFFFFFFFFFF : UInt64)) ||| (tag.toUInt64 <<< 56)
  else
    (addr &&& (0x0000FFFFFFFFFFFF : UInt64)) ||| (tag.toUInt64 <<< 48)

def untagPointer (m : X86TagManager) (addr : UInt64) : UInt64 :=
  if m.features.hasHardwareTagging then
    addr &&& 0x00FFFFFFFFFFFFFF
  else
    addr &&& 0x0000FFFFFFFFFFFF

def getTag (m : X86TagManager) (addr : UInt64) : Tag :=
  if m.features.hasHardwareTagging then
    ((addr >>> 56) &&& 0xF).toUInt16
  else
    ((addr >>> 48) &&& 0xF).toUInt16

end X86TagManager

/-- The tag manager of a processor. -/
def x86 (cpuid : UInt32 → CpuidResult) : TagManager X86TagManager where
  new := X86TagManager.new cpuid
  isTagUsed := fun m tag => m.usedTags &&& ((1 : UInt16) <<< tag) != 0
  allocateTag := X86TagManager.allocateTag
  freeTag := X86TagManager.freeTag

end Aethalloc.Hess
