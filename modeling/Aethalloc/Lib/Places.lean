/-
Things that are at places.

A system that passes things around — blocks between lists, messages between
queues — has a map from the things to their places, and what is to be shown of it
is that each container holds exactly the things whose place it is.  Nothing can
then be in two containers or in none.  A step moves some things to one place, and
the lemmas say who is where afterwards: at the place the things went to, at the
one they came from, and at all the others.
-/
import Mathlib.Data.List.Nodup

namespace Lib

variable {α β : Type*} {place place' : α → β} {bs l : List α} {b : α} {p q : β}

/-- The things of a list go to one place. -/
def moved [DecidableEq α] (place : α → β) (bs : List α) (p : β) (b : α) : β :=
  if b ∈ bs then p else place b

/-- The list has everything that is at a place, once. -/
def AllAt (place : α → β) (q : β) (l : List α) : Prop := l.Nodup ∧ ∀ b, b ∈ l ↔ place b = q

section Moved

variable [DecidableEq α]

theorem moved_of_notMem (h : b ∉ bs) : moved place bs p b = place b := if_neg h

theorem moved_of_mem (h : b ∈ bs) : moved place bs p b = p := if_pos h

/-- Who is at the place the things went to. -/
theorem moved_iff : moved place bs p b = p ↔ b ∈ bs ∨ place b = p := by
  by_cases h : b ∈ bs
  · simp [moved_of_mem h, h]
  · simp [moved_of_notMem h, h]

/-- Who is at another place. -/
theorem moved_iff_of_ne (hne : p ≠ q) : moved place bs p b = q ↔ b ∉ bs ∧ place b = q := by
  by_cases h : b ∈ bs
  · simp [moved_of_mem h, h, hne]
  · simp [moved_of_notMem h, h]

/-- Things that stay where they are. -/
theorem moved_self (h : ∀ x ∈ bs, place x = p) : moved place bs p = place := by
  funext x
  by_cases hx : x ∈ bs
  · rw [moved_of_mem hx, h x hx]
  · rw [moved_of_notMem hx]

/-- A place that nothing comes from or goes to. -/
theorem moved_iff_of_not (hne : p ≠ q) (hold : ∀ x ∈ bs, place x ≠ q) :
    moved place bs p b = q ↔ place b = q := by
  rw [moved_iff_of_ne hne]
  refine ⟨fun h => h.2, fun h => ⟨fun hb => hold b hb h, h⟩⟩

end Moved

namespace AllAt

theorem mem (h : AllAt place q l) (hb : b ∈ l) : place b = q := (h.2 b).mp hb

/-- A container does not notice what happens at other places. -/
theorem keep (h : AllAt place q l) (hplace : ∀ b, place' b = q ↔ place b = q) :
    AllAt place' q l :=
  ⟨h.1, fun b => (h.2 b).trans (hplace b).symm⟩

variable [DecidableEq α]

theorem keep_moved (h : AllAt place q l) (hp : p ≠ q) (hbs : ∀ b ∈ bs, place b ≠ q) :
    AllAt (moved place bs p) q l :=
  h.keep fun _ => moved_iff_of_not hp hbs

theorem arrive (h : AllAt place q l) (hnd : bs.Nodup) (hbs : ∀ b ∈ bs, place b ≠ q) :
    AllAt (moved place bs q) q (l ++ bs) := by
  refine ⟨List.nodup_append.mpr ⟨h.1, hnd, fun x hx y hy hxy => ?_⟩, fun b => ?_⟩
  · exact hbs y hy (hxy ▸ h.mem hx)
  · rw [moved_iff, List.mem_append, h.2 b]
    exact or_comm

/-- What is left when the rest goes elsewhere. -/
theorem leave (h : AllAt place q (l ++ bs)) (hp : p ≠ q) : AllAt (moved place bs p) q l := by
  obtain ⟨hnd, hmem⟩ := h
  obtain ⟨hl, -, hdisj⟩ := List.nodup_append.mp hnd
  refine ⟨hl, fun b => ?_⟩
  rw [moved_iff_of_ne hp, ← hmem b, List.mem_append]
  constructor
  · intro hb
    exact ⟨fun hc => hdisj b hb b hc rfl, Or.inl hb⟩
  · intro hb
    exact hb.2.resolve_right hb.1

/-- Everything at a place goes to one where nothing is. -/
theorem relocate (h : AllAt place q l) (hq : ∀ b, place b ≠ p) : AllAt (moved place l p) p l := by
  refine ⟨h.1, fun b => ?_⟩
  rw [moved_iff]
  simp [hq b]

end AllAt

end Lib
