/-
What mapping and unmapping pages does.

The two calls are read off once, in pages: a mapping fails and changes nothing that
matters, or yields zeroed pages that nobody had; unmapping gives up exactly the
pages it is told.
-/
import Aethalloc.Core.Page

namespace Aethalloc

open Lib

variable {s : System} {base pages page : Nat}

/-- Nobody has mapped the pages. -/
def System.FreePages (s : System) (base pages : Nat) : Prop :=
  base ≠ 0 ∧ base % PAGE_SIZE = 0 ∧ base + pages * PAGE_SIZE ≤ 2 ^ 64 ∧
    ∀ i < pages, s.mapped (base / PAGE_SIZE + i) = false ∧ s.foreign (base / PAGE_SIZE + i) = false

/-- Which pages are mapped after some were set. -/
def System.setPages (s : System) (base pages : Nat) (b : Bool) : Nat → Bool := fun page =>
  if base / PAGE_SIZE ≤ page ∧ page < base / PAGE_SIZE + pages then b else s.mapped page

theorem System.setMapped_eq {b : Bool} :
    s.setMapped base (pages * PAGE_SIZE) b = s.setPages base pages b := by
  have hpages : pages * PAGE_SIZE / PAGE_SIZE = pages := Nat.mul_div_cancel _ (by decide)
  unfold System.setMapped System.setPages
  rw [hpages]

theorem System.free_iff : s.Free base (pages * PAGE_SIZE) ↔ s.FreePages base pages := by
  have hpages : pages * PAGE_SIZE / PAGE_SIZE = pages := Nat.mul_div_cancel _ (by decide)
  unfold System.Free System.FreePages
  rw [hpages]

theorem System.setPages_true_iff : s.setPages base pages true page = true ↔
    (base / PAGE_SIZE ≤ page ∧ page < base / PAGE_SIZE + pages) ∨ s.mapped page = true := by
  unfold System.setPages
  split
  · rename_i hin
    exact iff_of_true rfl (Or.inl hin)
  · rename_i hout
    exact ⟨Or.inr, fun hor => hor.resolve_left hout⟩

theorem System.setPages_false_iff : s.setPages base pages false page = true ↔
    ¬ (base / PAGE_SIZE ≤ page ∧ page < base / PAGE_SIZE + pages) ∧ s.mapped page = true := by
  unfold System.setPages
  split
  · rename_i hin
    exact iff_of_false (by decide) fun hand => hand.1 hin
  · rename_i hout
    exact ⟨fun hmapped => ⟨hout, hmapped⟩, And.right⟩

theorem System.FreePages.fresh (h : s.FreePages base pages)
    (hin : base / PAGE_SIZE ≤ page ∧ page < base / PAGE_SIZE + pages) :
    s.mapped page = false ∧ s.foreign page = false := by
  have hpage := h.2.2.2 (page - base / PAGE_SIZE) (by omega)
  rw [Nat.add_sub_cancel' hin.1] at hpage
  exact hpage

theorem System.FreePages.fresh_byte {x : Nat} (h : s.FreePages base pages) (h1 : base ≤ x)
    (h2 : x < base + pages * PAGE_SIZE) : s.mapped (x / PAGE_SIZE) = false := by
  obtain ⟨-, hal, -, -⟩ := id h
  refine (h.fresh ?_).1
  unfold PAGE_SIZE at *
  omega

/-- Mapping such pages takes none that is another's. -/
theorem System.FreePages.own (h : s.FreePages base pages)
    (hown : ∀ page, s.mapped page = true → s.foreign page = false) :
    ∀ page, s.setPages base pages true page = true → s.foreign page = false := by
  intro page hpage
  rcases System.setPages_true_iff.mp hpage with hin | hmapped
  · exact (h.fresh hin).2
  · exact hown page hmapped

namespace PageAllocator

/-- A mapping fails and changes nothing, or yields pages nobody had. -/
theorem alloc_cases (s : System) (pages : Nat) (hpos : pages ≠ 0)
    (hlt : pages * PAGE_SIZE < 2 ^ 64) :
    (∃ rest, alloc s pages = ({ s with answers := rest }, none)) ∨
      ∃ base rest, s.FreePages base pages ∧ alloc s pages = ({ s with
        mem := s.mem.fill base (pages * PAGE_SIZE) 0
        mapped := s.setPages base pages true
        answers := rest }, some base) := by
  unfold alloc System.mmap
  rw [if_neg hpos, Nat.mod_eq_of_lt hlt]
  cases hans : s.answers with
  | nil => exact Or.inl ⟨s.answers, rfl⟩
  | cons x rest =>
      cases x with
      | none => exact Or.inl ⟨rest, rfl⟩
      | some base =>
          by_cases hfree : pages * PAGE_SIZE ≠ 0 ∧ s.Free base (pages * PAGE_SIZE)
          · simp only [if_pos hfree, System.setMapped_eq]
            exact Or.inr ⟨base, rest, System.free_iff.mp hfree.2, rfl⟩
          · simp only [if_neg hfree]
            exact Or.inl ⟨rest, rfl⟩

theorem dealloc_eq (hpos : pages ≠ 0) (hal : base % PAGE_SIZE = 0)
    (hlt : pages * PAGE_SIZE < 2 ^ 64) :
    dealloc s base pages = { s with mapped := s.setPages base pages false } := by
  have hne : pages * PAGE_SIZE ≠ 0 := by
    unfold PAGE_SIZE
    omega
  unfold dealloc System.munmap
  rw [if_neg hpos, Nat.mod_eq_of_lt hlt, if_pos ⟨hal, hne⟩, System.setMapped_eq]

end PageAllocator

end Aethalloc
