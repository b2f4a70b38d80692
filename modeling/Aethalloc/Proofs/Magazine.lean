/-
A magazine is a bounded stack of blocks.

Each operation is read off once as what it does to `slots`, the contents of the
magazine; nothing after this file looks at the array again.
-/
import Mathlib.Data.List.Basic
import Aethalloc.Core.Magazine

namespace Aethalloc.Magazine

variable {m m' : Magazine} {p : Addr}

/-- The count never exceeds the capacity. -/
def OK (m : Magazine) : Prop := m.count ≤ MAGAZINE_CAPACITY

theorem slots_length (h : m.OK) : m.slots.length = m.count := by
  unfold slots
  rw [List.length_take, Vector.length_toList]
  exact Nat.min_eq_left h

@[simp] theorem new_slots : new.slots = [] := by simp [slots, new]

theorem isEmpty_of_nil (h : m.OK) (hnil : m.slots = []) : m.isEmpty = true := by
  have hlen := slots_length h
  rw [hnil] at hlen
  unfold isEmpty
  rw [← hlen]
  rfl

theorem new_ok : new.OK := Nat.zero_le _

theorem clear_ok : m.clear.OK := Nat.zero_le _

/-- Writing the slot at the count and raising the count appends. -/
theorem take_set {blocks : Vector Addr MAGAZINE_CAPACITY} {i : Nat} (hi : i < MAGAZINE_CAPACITY) :
    (blocks.setIfInBounds i p).toList.take (i + 1) = blocks.toList.take i ++ [p] := by
  have hlen : blocks.toList.length = MAGAZINE_CAPACITY := Vector.length_toList
  rw [Vector.toList_setIfInBounds, List.take_add_one, List.take_set_of_le (Nat.le_refl i),
    List.getElem?_set_self (by omega)]
  rfl

theorem push_of_full (h : MAGAZINE_CAPACITY ≤ m.count) : m.push p = (false, m) := by
  unfold push
  rw [if_pos h]

theorem push_of_room (h : m.count < MAGAZINE_CAPACITY) :
    ∃ m', m.push p = (true, m') ∧ m'.OK ∧ m'.slots = m.slots ++ [p] := by
  refine ⟨_, if_neg (Nat.not_le.mpr h), ?_, take_set h⟩
  exact h

/-- `push` succeeds exactly when there is room, and then appends. -/
theorem push_cases (h : m.OK) :
    (m.slots.length = MAGAZINE_CAPACITY ∧ m.push p = (false, m)) ∨
    (m.slots.length < MAGAZINE_CAPACITY ∧
      ∃ m', m.push p = (true, m') ∧ m'.OK ∧ m'.slots = m.slots ++ [p]) := by
  rw [slots_length h]
  rcases Nat.lt_or_ge m.count MAGAZINE_CAPACITY with hlt | hge
  · exact Or.inr ⟨hlt, push_of_room hlt⟩
  · exact Or.inl ⟨Nat.le_antisymm h hge, push_of_full hge⟩

/-- `pop` takes the last block, if there is one. -/
theorem pop_cases (h : m.OK) :
    (m.slots = [] ∧ m.pop = (none, m)) ∨
    ∃ b m', m.pop = (some b, m') ∧ m'.OK ∧ m.slots = m'.slots ++ [b] := by
  by_cases h0 : m.count = 0
  · refine Or.inl ⟨?_, if_pos h0⟩
    simp [slots, h0]
  · right
    have hlt : m.count - 1 < MAGAZINE_CAPACITY := by
      unfold OK at h
      omega
    refine ⟨m.blocks[m.count - 1], { m with count := m.count - 1 }, ?_, Nat.le_of_lt hlt, ?_⟩
    · unfold pop
      rw [if_neg h0, Vector.getElem?_eq_getElem hlt]
    · have hlen : m.blocks.toList.length = MAGAZINE_CAPACITY := Vector.length_toList
      show m.blocks.toList.take m.count = m.blocks.toList.take (m.count - 1) ++ _
      conv_lhs => rw [show m.count = m.count - 1 + 1 by omega]
      rw [List.take_add_one, List.getElem?_eq_getElem (by omega)]
      simp

theorem slots_of_pop {b : Addr} (h : m.OK) (hpop : m.pop = (some b, m')) :
    m.slots = m'.slots ++ [b] := by
  rcases pop_cases h with ⟨-, hnone⟩ | ⟨b', m₁, hsome, -, hslots⟩
  · rw [hnone] at hpop
    exact absurd (Prod.mk.inj hpop).1 (by simp)
  · rw [hsome] at hpop
    obtain ⟨hb, rfl⟩ := Prod.mk.inj hpop
    obtain rfl := Option.some.inj hb
    exact hslots

theorem bulkInit_fold {base blockSize c : Nat} :
    ∀ (n : Nat) (blocks : Vector Addr MAGAZINE_CAPACITY), c + n ≤ MAGAZINE_CAPACITY →
      ((List.range n).foldl
        (fun blocks i => blocks.setIfInBounds (c + i) (base + i * blockSize)) blocks).toList.take
          (c + n)
        = blocks.toList.take c ++ (List.range n).map fun i => base + i * blockSize := by
  intro n
  induction n with
  | zero => intro blocks _; simp
  | succ n ih =>
      intro blocks hle
      rw [List.range_succ, List.foldl_append, List.foldl_cons, List.foldl_nil, ← Nat.add_assoc,
        take_set (by omega), ih blocks (by omega), List.map_append, List.append_assoc]
      rfl

/-- `bulk_init` appends as many of the blocks as fit. -/
theorem bulkInit_slots (h : m.OK) (base : Addr) (blockSize count : Nat) :
    (m.bulkInit base blockSize count).OK ∧
    (m.bulkInit base blockSize count).slots = m.slots ++
      (List.range (min count (MAGAZINE_CAPACITY - m.slots.length))).map
        fun i => base + i * blockSize := by
  have hlen := slots_length h
  have hle : m.count + min count (MAGAZINE_CAPACITY - m.count) ≤ MAGAZINE_CAPACITY := by
    unfold OK at h
    omega
  refine ⟨hle, ?_⟩
  rw [hlen]
  exact bulkInit_fold _ _ hle

end Aethalloc.Magazine
