/-
Handing out the elements of a cycle in turn.

A pool remembers which elements are in use and which one to try next.  To take an
element it goes on from there, one turn of a loop after another, until it finds one
that is not in use.  `Pool.take_cases` says what comes of that: a free element, or
every element the loop came by is in use.  On a cycle as long as the loop these are
all elements there are, wherever the loop starts.
-/
import Mathlib.Data.Finset.Image
import Mathlib.Data.Finset.Range
import Mathlib.Dynamics.PeriodicPts.Defs

namespace Lib

variable {α : Type*} [DecidableEq α] {f : α → α} {a b : α} {n : Nat}

/-! ### Cycles -/

/-- The elements that `n` turns from `a` come by. -/
def orbit (f : α → α) (a : α) (n : Nat) : Finset α := (Finset.range n).image fun i => f^[i] a

theorem mem_orbit : b ∈ orbit f a n ↔ ∃ i < n, f^[i] a = b := by
  simp [orbit]

theorem orbit_succ : orbit f a (n + 1) = insert a (orbit f (f a) n) := by
  ext b
  rw [Finset.mem_insert, mem_orbit, mem_orbit]
  constructor
  · rintro ⟨i, hi, rfl⟩
    cases i with
    | zero => exact Or.inl rfl
    | succ i => exact Or.inr ⟨i, by omega, rfl⟩
  · rintro (rfl | ⟨i, hi, rfl⟩)
    · exact ⟨0, by omega, rfl⟩
    · exact ⟨i + 1, by omega, rfl⟩

/-- Once around, no number of turns leaves the cycle. -/
theorem iterate_mem_orbit (hn : 0 < n) (hcycle : f.IsPeriodicPt n a) (i : Nat) :
    f^[i] a ∈ orbit f a n :=
  mem_orbit.mpr ⟨i % n, Nat.mod_lt i hn, hcycle.iterate_mod_apply i⟩

theorem apply_mem_orbit (hn : 0 < n) (hcycle : f.IsPeriodicPt n a) (hb : b ∈ orbit f a n) :
    f b ∈ orbit f a n := by
  obtain ⟨i, -, rfl⟩ := mem_orbit.mp hb
  rw [← Function.iterate_succ_apply' f i a]
  exact iterate_mem_orbit hn hcycle (i + 1)

/-- A cycle is the same from every element of it. -/
theorem orbit_of_mem (hcycle : f.IsPeriodicPt n a) (hb : b ∈ orbit f a n) :
    orbit f b n = orbit f a n := by
  obtain ⟨i, hi, rfl⟩ := mem_orbit.mp hb
  have hn : 0 < n := by omega
  ext c
  constructor
  · intro hc
    obtain ⟨j, -, rfl⟩ := mem_orbit.mp hc
    rw [← Function.iterate_add_apply]
    exact iterate_mem_orbit hn hcycle (j + i)
  · intro hc
    obtain ⟨j, -, rfl⟩ := mem_orbit.mp hc
    -- on to the end of the cycle, and from its start to `c`
    have hreach : f^[j + (n - i)] (f^[i] a) = f^[j] a := by
      rw [← Function.iterate_add_apply, show j + (n - i) + i = j + n by omega,
        Function.iterate_add_apply, hcycle.eq]
    rw [← hreach]
    exact iterate_mem_orbit hn (hcycle.apply_iterate i) _

/-! ### Pools -/

/-- The element to try next, and those in use. -/
structure Pool (α : Type*) where
  next : α
  used : Finset α

namespace Pool

/-- Try one element a turn, for at most `n` turns. -/
def take (f : α → α) : Nat → Pool α → Option α × Pool α
  | 0, p => (none, p)
  | n + 1, p =>
      if p.next ∈ p.used then
        take f n { p with next := f p.next }
      else
        (some p.next, { next := f p.next, used := insert p.next p.used })

def give (p : Pool α) (a : α) : Pool α := { p with used := p.used.erase a }

/-- A free element among those the loop comes by, or none of them is free. -/
theorem take_cases (f : α → α) (n : Nat) (p : Pool α) :
    (∃ a ∈ orbit f p.next n, a ∉ p.used ∧
      p.take f n = (some a, { next := f a, used := insert a p.used })) ∨
    (orbit f p.next n ⊆ p.used ∧ p.take f n = (none, { p with next := f^[n] p.next })) := by
  induction n generalizing p with
  | zero => exact Or.inr ⟨Finset.empty_subset _, rfl⟩
  | succ n ih =>
      rw [orbit_succ, take]
      by_cases hused : p.next ∈ p.used
      · rw [if_pos hused]
        rcases ih { p with next := f p.next } with ⟨a, ha, hfree, htake⟩ | ⟨hall, htake⟩
        · exact Or.inl ⟨a, Finset.mem_insert_of_mem ha, hfree, htake⟩
        · exact Or.inr ⟨Finset.insert_subset hused hall, htake⟩
      · rw [if_neg hused]
        exact Or.inl ⟨p.next, Finset.mem_insert_self _ _, hused, rfl⟩

end Pool

end Lib
