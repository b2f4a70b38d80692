/-
Tags and the software tag manager.

A tag is a 16-bit number, and the tags that are handed out are 1 to 15.  The
manager keeps the tag it tries next and a word with one bit for each tag in use.
`allocate_tag` tries every tag once, from the next one on; the turns that are left
of its loop are counted down.  A shift by 16 or more takes the amount modulo 16, as
a build without overflow checks does.

An address is a 64-bit word, as `usize` is on the targets with tags.
`NonNull::new_unchecked` checks nothing, so it is left out.
-/
import Mathlib.Data.Finset.Basic
import Aethalloc.Lib.Machine

namespace Aethalloc.Hess

open Lib

abbrev Tag := UInt16

def MAX_TAG : Tag := 15
def MIN_TAG : Tag := 1

inductive TagError
  | outOfTags
  | invalidTag
  | hardwareNotSupported
  | alignmentError
  deriving DecidableEq

structure SoftwareTagManager where
  nextTag : Tag
  usedTags : UInt16
  deriving DecidableEq

namespace SoftwareTagManager

def new : SoftwareTagManager where
  nextTag := MIN_TAG
  usedTags := 0

def isTagUsed (m : SoftwareTagManager) (tag : Tag) : Bool :=
  m.usedTags &&& ((1 : UInt16) <<< tag) != 0

def markTagUsed (m : SoftwareTagManager) (tag : Tag) : SoftwareTagManager :=
  { m with usedTags := m.usedTags ||| ((1 : UInt16) <<< tag) }

def markTagFree (m : SoftwareTagManager) (tag : Tag) : SoftwareTagManager :=
  { m with usedTags := m.usedTags &&& ~~~((1 : UInt16) <<< tag) }

/-- The loop of `allocate_tag`, with so many turns left. -/
def allocateLoop : Nat → SoftwareTagManager → Except TagError Tag × SoftwareTagManager
  | 0, m => (.error .outOfTags, m)
  | n + 1, m =>
      let tag := m.nextTag
      let m := { m with nextTag := if m.nextTag ≥ MAX_TAG then MIN_TAG else m.nextTag + 1 }
      if !m.isTagUsed tag then
        (.ok tag, m.markTagUsed tag)
      else
        allocateLoop n m

def allocateTag (m : SoftwareTagManager) : Except TagError Tag × SoftwareTagManager :=
  allocateLoop (MAX_TAG.toNat - MIN_TAG.toNat + 1) m

def freeTag (m : SoftwareTagManager) (tag : Tag) : Except TagError Unit × SoftwareTagManager :=
  if ¬ (MIN_TAG ≤ tag ∧ tag ≤ MAX_TAG) then
    (.error .invalidTag, m)
  else
    (.ok (), m.markTagFree tag)

def tagPointer (_ : SoftwareTagManager) (addr : UInt64) (tag : Tag) : Except TagError UInt64 :=
  if tag > MAX_TAG then
    .error .invalidTag
  else
    .ok ((addr &&& (~~~0x0F00000000000000 : UInt64)) ||| (tag.toUInt64 <<< 56))

def untagPointer (_ : SoftwareTagManager) (addr : UInt64) : UInt64 :=
  addr &&& (~~~0x0F00000000000000 : UInt64)

def getTag (_ : SoftwareTagManager) (addr : UInt64) : Tag := ((addr >>> 56) &&& 0xF).toUInt16

end SoftwareTagManager

/-! ### Runs of calls -/

/-- What every tag manager offers, and which tags it takes for used. -/
structure TagManager (σ : Type) where
  new : σ
  isTagUsed : σ → Tag → Bool
  allocateTag : σ → Except TagError Tag × σ
  freeTag : σ → Tag → Except TagError Unit × σ

def software : TagManager SoftwareTagManager where
  new := SoftwareTagManager.new
  isTagUsed := SoftwareTagManager.isTagUsed
  allocateTag := SoftwareTagManager.allocateTag
  freeTag := SoftwareTagManager.freeTag

inductive Call
  | allocateTag
  | freeTag (tag : Tag)

inductive Reply
  | allocateTag (result : Except TagError Tag)
  | freeTag (result : Except TagError Unit)

/-- The manager with its client's account: the tags it has and all replies it got. -/
structure Client (σ : Type) where
  manager : σ
  allocated : Finset Tag
  replies : List Reply

namespace TagManager

variable {σ : Type} (M : TagManager σ)

def init : Client σ where
  manager := M.new
  allocated := ∅
  replies := []

/-- A call, and what the client makes of the reply. -/
def call (c : Client σ) : Call → Client σ
  | .allocateTag =>
      match M.allocateTag c.manager with
      | (.ok tag, manager) =>
          { manager, allocated := insert tag c.allocated,
            replies := c.replies ++ [.allocateTag (.ok tag)] }
      | (.error e, manager) =>
          { c with manager, replies := c.replies ++ [.allocateTag (.error e)] }
  | .freeTag tag =>
      match M.freeTag c.manager tag with
      | (.ok (), manager) =>
          { manager, allocated := c.allocated.erase tag,
            replies := c.replies ++ [.freeTag (.ok ())] }
      | (.error e, manager) =>
          { c with manager, replies := c.replies ++ [.freeTag (.error e)] }

/-- Any calls in any order: no call has to wait for anything. -/
def machine : Machine (Client σ) Call where
  init := M.init
  step := fun c l => some (M.call c l)

end TagManager

end Aethalloc.Hess
