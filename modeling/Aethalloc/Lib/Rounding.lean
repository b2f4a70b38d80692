/-
Rounding up into a set.

To round a value up is to take the least element of some set that is not below it:
the powers of two, the sizes of a list of classes, the multiples of a page.  All
laws of rounding follow from that alone, whatever the set is and however the value
was computed, so a function has only to be shown to round into its set.
-/
import Mathlib.Order.Bounds.Basic

namespace Lib

variable {α : Type*} [PartialOrder α] {S : Set α} {a b r s : α}

/-- `r` is the least element of `S` that is at least `a`. -/
def RoundsTo (S : Set α) (a r : α) : Prop := IsLeast {m | m ∈ S ∧ a ≤ m} r

namespace RoundsTo

theorem mem (h : RoundsTo S a r) : r ∈ S := h.1.1

theorem le (h : RoundsTo S a r) : a ≤ r := h.1.2

theorem le_of_mem (h : RoundsTo S a r) (hb : b ∈ S) (hab : a ≤ b) : r ≤ b := h.2 ⟨hb, hab⟩

theorem unique (h : RoundsTo S a r) (h' : RoundsTo S a s) : r = s := IsLeast.unique h h'

/-- What is in the set is rounded to itself. -/
theorem self (hr : r ∈ S) : RoundsTo S r r := ⟨⟨hr, le_rfl⟩, fun _ hm => hm.2⟩

theorem mono (h : RoundsTo S a r) (h' : RoundsTo S b s) (hab : a ≤ b) : r ≤ s :=
  h.le_of_mem h'.mem (hab.trans h'.le)

/-- Rounding passes no element of the set. -/
theorem le_iff (h : RoundsTo S a r) (hb : b ∈ S) : r ≤ b ↔ a ≤ b :=
  ⟨h.le.trans, h.le_of_mem hb⟩

end RoundsTo

end Lib
