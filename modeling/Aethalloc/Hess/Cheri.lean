/-
Tags on CHERI hardware.

A capability carries its own bounds, so this manager leaves pointers as they are and
only keeps account of the tags.  It has the word of bits that the other managers
have, and no place to go on from: every search starts at the first tag.
-/
import Aethalloc.Hess.TagManager

namespace Aethalloc.Hess

structure CheriTagManager where
  usedTags : UInt16
  deriving DecidableEq

namespace CheriTagManager

def new : CheriTagManager where
  usedTags := 0

/-- The test that is in the loop. -/
def isTagUsed (m : CheriTagManager) (tag : Tag) : Bool :=
  m.usedTags &&& ((1 : UInt16) <<< tag) != 0

/-- `1..=MAX_TAG`. -/
def tagRange : List Tag := (List.range' 1 MAX_TAG.toNat).map UInt16.ofNat

/-- The loop of `allocate_tag`, with the tags it has still to look at. -/
def allocateLoop (m : CheriTagManager) : List Tag → Except TagError Tag × CheriTagManager
  | [] => (.error .outOfTags, m)
  | tag :: rest =>
      if m.usedTags &&& ((1 : UInt16) <<< tag) = 0 then
        (.ok tag, { usedTags := m.usedTags ||| ((1 : UInt16) <<< tag) })
      else
        allocateLoop m rest

def allocateTag (m : CheriTagManager) : Except TagError Tag × CheriTagManager :=
  m.allocateLoop tagRange

def freeTag (m : CheriTagManager) (tag : Tag) : Except TagError Unit × CheriTagManager :=
  if tag = 0 ∨ tag > MAX_TAG then
    (.error .invalidTag, m)
  else
    (.ok (), { usedTags := m.usedTags &&& ~~~((1 : UInt16) <<< tag) })

end CheriTagManager

def cheri : TagManager CheriTagManager where
  new := CheriTagManager.new
  isTagUsed := CheriTagManager.isTagUsed
  allocateTag := CheriTagManager.allocateTag
  freeTag := CheriTagManager.freeTag

end Aethalloc.Hess
