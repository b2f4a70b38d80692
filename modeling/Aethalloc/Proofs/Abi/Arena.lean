/-
The memory both modes of the allocator work in.

Whatever the allocator keeps its free blocks in, it maps regions of whole pages,
carves the small ones into a grid of blocks, and writes a header before what it
hands out.  `Regions` says that the mappings in use are apart from each other,
`Carved` that a block is one of the grid of its region, `Lives` that the headers of
what the client holds still say what was written into them.  `Ground` is the three
together, and none of them knows where the free blocks are.
-/
import Mathlib.Data.List.Pairwise
import Aethalloc.Abi.Lib
import Aethalloc.Proofs.Page
import Aethalloc.Proofs.SizeClass

namespace Aethalloc.Abi

open Lib

/-! ### Regions -/

namespace Region

def len (r : Region) : Nat := r.pages * PAGE_SIZE

/-- The address lies in the region. -/
def Has (r : Region) (x : Nat) : Prop := r.base ≤ x ∧ x < r.base + r.len

def Apart (r r' : Region) : Prop := r.base + r.len ≤ r'.base ∨ r'.base + r'.len ≤ r.base

end Region

/-- The mappings in use. -/
structure Regions (mapped foreign : Nat → Bool) (R : List Region) : Prop where
  page : ∀ r ∈ R, r.base ≠ 0 ∧ r.base % PAGE_SIZE = 0 ∧ r.pages ≠ 0 ∧
    r.base + r.len ≤ 2 ^ 64
  inMapped : ∀ r ∈ R, ∀ x, r.Has x → mapped (x / PAGE_SIZE) = true
  apart : R.Pairwise Region.Apart
  own : ∀ p, mapped p = true → foreign p = false
  small : ∀ r ∈ R, ∀ c, r.purpose = .small c → c < 13 ∧ blockSize c ≤ r.len

/-- The bytes of memory, whose pages are whose, and what the mappings in use were made for. -/
structure Arena where
  mem : Mem
  mapped : Nat → Bool
  foreign : Nat → Bool
  regions : List Region

namespace Arena

/-- Nobody has mapped the pages. -/
def Free (A : Arena) (base pages : Nat) : Prop :=
  base ≠ 0 ∧ base % PAGE_SIZE = 0 ∧ base + pages * PAGE_SIZE ≤ 2 ^ 64 ∧
    ∀ i < pages, A.mapped (base / PAGE_SIZE + i) = false ∧ A.foreign (base / PAGE_SIZE + i) = false

/-- The arena after zeroed pages were mapped. -/
def map (A : Arena) (base pages : Nat) (purpose : Purpose) : Arena :=
  { A with
    mem := A.mem.fill base (pages * PAGE_SIZE) 0
    mapped := fun page =>
      if base / PAGE_SIZE ≤ page ∧ page < base / PAGE_SIZE + pages then true else A.mapped page
    regions := { base := base, pages := pages, purpose := purpose } :: A.regions }

/-- The arena after pages were unmapped. -/
def unmap (A : Arena) (base pages : Nat) : Arena :=
  { A with
    mapped := fun page =>
      if base / PAGE_SIZE ≤ page ∧ page < base / PAGE_SIZE + pages then false else A.mapped page
    regions := A.regions.filter (·.base ≠ base) }

end Arena

namespace Regions

variable {mapped foreign : Nat → Bool} {R : List Region} {A : Arena} {r r' : Region} {x : Nat}

/-- Two regions that share an address are one. -/
theorem unique (h : Regions mapped foreign R) (hr : r ∈ R) (hr' : r' ∈ R) (hx : r.Has x)
    (hx' : r'.Has x) : r = r' := by
  by_contra hne
  have : Std.Symm Region.Apart := ⟨fun _ _ => Or.symm⟩
  have hap : r.Apart r' := h.apart.forall hr hr' hne
  unfold Region.Apart at hap
  unfold Region.Has at hx hx'
  omega

/-- A region holds its own start. -/
theorem has_base (h : Regions mapped foreign R) (hr : r ∈ R) : r.Has r.base := by
  obtain ⟨-, -, hpages, -⟩ := h.page r hr
  unfold Region.Has Region.len PAGE_SIZE
  omega

/-- A fresh mapping is apart from the regions in use. -/
theorem fresh_apart {base pages : Nat} (h : Regions A.mapped A.foreign A.regions)
    (hfree : A.Free base pages) (hpos : pages ≠ 0) (hr : r ∈ A.regions) :
    base + pages * PAGE_SIZE ≤ r.base ∨ r.base + r.len ≤ base := by
  by_contra hc
  -- the larger of the two starts lies in both
  obtain ⟨hnz, hal, hend, hpg⟩ := hfree
  obtain ⟨-, hral, hrpages, -⟩ := h.page r hr
  have hx : r.Has (max base r.base) := by
    unfold Region.Has Region.len at *
    unfold PAGE_SIZE at *
    omega
  have hmap := h.inMapped r hr _ hx
  have hidx : (max base r.base) / PAGE_SIZE - base / PAGE_SIZE < pages := by
    unfold Region.len at hc
    unfold PAGE_SIZE at *
    omega
  have hnot := (hpg _ hidx).1
  rw [Nat.add_sub_cancel' (Nat.div_le_div_right (Nat.le_max_left _ _)), hmap] at hnot
  exact absurd hnot (by decide)

/-- A fresh mapping joins the regions. -/
theorem map {base pages : Nat} {purpose : Purpose} (h : Regions A.mapped A.foreign A.regions)
    (hfree : A.Free base pages) (hpos : pages ≠ 0)
    (hsmall : ∀ c, purpose = .small c → c < 13 ∧ blockSize c ≤ pages * PAGE_SIZE) :
    Regions (A.map base pages purpose).mapped A.foreign (A.map base pages purpose).regions where
  page r hr := by
    rcases List.mem_cons.mp hr with rfl | hr
    · exact ⟨hfree.1, hfree.2.1, hpos, hfree.2.2.1⟩
    · exact h.page r hr
  inMapped r hr x hx := by
    show (if base / PAGE_SIZE ≤ x / PAGE_SIZE ∧ x / PAGE_SIZE < base / PAGE_SIZE + pages then true
      else A.mapped (x / PAGE_SIZE)) = true
    rcases List.mem_cons.mp hr with rfl | hr
    · obtain ⟨-, hal, -⟩ := hfree
      refine if_pos ?_
      unfold Region.Has Region.len at hx
      unfold PAGE_SIZE at *
      simp only at hx
      omega
    · split
      · rfl
      · exact h.inMapped r hr x hx
  apart := List.pairwise_cons.mpr ⟨fun r hr => h.fresh_apart hfree hpos hr, h.apart⟩
  own p hp := by
    have hp' : (if base / PAGE_SIZE ≤ p ∧ p < base / PAGE_SIZE + pages then true
      else A.mapped p) = true := hp
    split at hp'
    · rename_i hin
      have := (hfree.2.2.2 (p - base / PAGE_SIZE) (by omega)).2
      rw [Nat.add_sub_cancel' hin.1] at this
      exact this
    · exact h.own p hp'
  small r hr c hc := by
    rcases List.mem_cons.mp hr with rfl | hr
    · exact hsmall c hc
    · exact h.small r hr c hc

/-- A region is given up, whatever part of it is unmapped. -/
theorem unmap {pages : Nat} (h : Regions A.mapped A.foreign A.regions) (hr : r ∈ A.regions)
    (hpages : pages ≤ r.pages) :
    Regions (A.unmap r.base pages).mapped A.foreign (A.unmap r.base pages).regions := by
  have hsub : ∀ r' ∈ (A.unmap r.base pages).regions, r' ∈ A.regions ∧ r' ≠ r := by
    intro r' hr'
    obtain ⟨hmem, hne⟩ := List.mem_filter.mp hr'
    refine ⟨hmem, fun hc => ?_⟩
    subst hc
    simp at hne
  exact {
    page := fun r' hr' => h.page r' (hsub r' hr').1
    inMapped := by
      intro r' hr' x hx
      show (if r.base / PAGE_SIZE ≤ x / PAGE_SIZE ∧ x / PAGE_SIZE < r.base / PAGE_SIZE + pages
        then false else A.mapped (x / PAGE_SIZE)) = true
      rw [if_neg fun hin => ?_]
      · exact h.inMapped r' (hsub r' hr').1 x hx
      · obtain ⟨-, hal, -⟩ := h.page r hr
        refine (hsub r' hr').2 (h.unique (hsub r' hr').1 hr hx ?_)
        unfold Region.Has Region.len
        unfold PAGE_SIZE at *
        omega
    apart := h.apart.filter _
    own := by
      intro p hp
      have hp' : (if r.base / PAGE_SIZE ≤ p ∧ p < r.base / PAGE_SIZE + pages then false
        else A.mapped p) = true := hp
      split at hp'
      · exact absurd hp' (by decide)
      · exact h.own p hp'
    small := fun r' hr' => h.small r' (hsub r' hr').1 }

end Regions

/-! ### Blocks -/

/-- The block is one of the grid its region was carved into, for the class of the region. -/
def Carved (R : List Region) (b c : Nat) : Prop :=
  ∃ r ∈ R, r.purpose = .small c ∧ ∃ i, b = r.base + i * blockSize c ∧
    b + blockSize c ≤ r.base + r.len

theorem blockSize_pos (c : Nat) : 32 ≤ blockSize c := by
  have : 1 ≤ 2 ^ c := Nat.one_le_two_pow
  unfold blockSize classSize CACHE_HEADER_SIZE
  omega

theorem blockSize_le {c : Nat} (hc : c < 13) : blockSize c ≤ 65552 := by
  have hpow : 2 ^ c ≤ 2 ^ 12 := Nat.pow_le_pow_right (by decide) (by omega)
  unfold blockSize classSize CACHE_HEADER_SIZE
  omega

theorem Carved.has {R : List Region} {b c : Nat} (h : Carved R b c) : ∃ r ∈ R,
    r.purpose = .small c ∧ ∀ x, b ≤ x → x < b + blockSize c → r.Has x := by
  obtain ⟨r, hr, hp, i, hb, hend⟩ := h
  refine ⟨r, hr, hp, fun x h1 h2 => ?_⟩
  unfold Region.Has
  have : r.base ≤ b := by rw [hb]; exact Nat.le_add_right _ _
  omega

/-- Two blocks that share an address are the same block of the same class. -/
theorem Carved.unique {mapped foreign : Nat → Bool} {R : List Region} {b b' c c' x : Nat}
    (hk : Regions mapped foreign R) (h : Carved R b c) (h' : Carved R b' c')
    (hx : b ≤ x ∧ x < b + blockSize c) (hx' : b' ≤ x ∧ x < b' + blockSize c') :
    b = b' ∧ c = c' := by
  obtain ⟨r, hr, hp, hhas⟩ := h.has
  obtain ⟨r', hr', hp', hhas'⟩ := h'.has
  have hrr : r = r' := hk.unique hr hr' (hhas x hx.1 hx.2) (hhas' x hx'.1 hx'.2)
  subst hrr
  rw [hp] at hp'
  obtain rfl := Purpose.small.inj hp'
  refine ⟨?_, rfl⟩
  obtain ⟨r₁, hr₁, hp₁, i, hb, hend⟩ := h
  obtain ⟨r₂, hr₂, hp₂, j, hb', hend'⟩ := h'
  have hpos := blockSize_pos c
  -- both regions are the one above, so the blocks are in one grid
  have h₁ : r₁ = r := hk.unique hr₁ hr (x := b)
    ⟨by rw [hb]; exact Nat.le_add_right _ _, by omega⟩ (hhas b (Nat.le_refl b) (by omega))
  have h₂ : r₂ = r := hk.unique hr₂ hr (x := b')
    ⟨by rw [hb']; exact Nat.le_add_right _ _, by omega⟩ (hhas' b' (Nat.le_refl b') (by omega))
  subst h₁
  subst h₂
  have hij : i = j := by
    have h1 : i * blockSize c < (j + 1) * blockSize c := by rw [Nat.succ_mul]; omega
    have h2 : j * blockSize c < (i + 1) * blockSize c := by rw [Nat.succ_mul]; omega
    have h3 := Nat.lt_of_mul_lt_mul_right h1
    have h4 := Nat.lt_of_mul_lt_mul_right h2
    omega
  rw [hb, hb', hij]

/-- Different blocks share no byte, so the words at their starts are apart. -/
theorem Carved.apart {mapped foreign : Nat → Bool} {R : List Region} {b b' c c' : Nat}
    (hk : Regions mapped foreign R) (h : Carved R b c) (h' : Carved R b' c') (hne : b' ≠ b) :
    b' + 8 ≤ b ∨ b + 8 ≤ b' := by
  by_contra hc
  have hpos := blockSize_pos c
  have hpos' := blockSize_pos c'
  refine hne (h'.unique hk h (x := max b b') ?_ ?_).1 <;> omega

/-- The address of a block is a pointer that is not null. -/
theorem Carved.pointer {mapped foreign : Nat → Bool} {R : List Region} {b c : Nat}
    (hk : Regions mapped foreign R) (h : Carved R b c) : b ≠ 0 ∧ b < 2 ^ 64 := by
  obtain ⟨r, hr, -, hhas⟩ := h.has
  have hpos := blockSize_pos c
  have hb := hhas b (Nat.le_refl b) (by omega)
  obtain ⟨hnz, -, -, hend⟩ := hk.page r hr
  unfold Region.Has at hb
  omega

/-- No block is in fresh pages. -/
theorem Carved.not_fresh {A : Arena} {b c base pages : Nat}
    (hk : Regions A.mapped A.foreign A.regions) (h : Carved A.regions b c)
    (hfree : A.Free base pages) (hpos : pages ≠ 0) {x : Nat} (hx : b ≤ x ∧ x < b + blockSize c) :
    ¬ (base ≤ x ∧ x < base + pages * PAGE_SIZE) := by
  intro hin
  obtain ⟨r, hr, -, hhas⟩ := h.has
  have hrx := hhas x hx.1 hx.2
  have hap := hk.fresh_apart hfree hpos hr
  unfold Region.Has at hrx
  omega

/-- Mapping more pages leaves the grids alone. -/
theorem Carved.map {A : Arena} {b c : Nat} (h : Carved A.regions b c) (base pages : Nat)
    (purpose : Purpose) : Carved (A.map base pages purpose).regions b c := by
  obtain ⟨r, hr, hrest⟩ := h
  exact ⟨r, List.mem_cons_of_mem _ hr, hrest⟩

/-- The grid of a fresh mapping. -/
theorem carved_map {A : Arena} {c i base pages : Nat}
    (hle : (i + 1) * blockSize c ≤ pages * PAGE_SIZE) :
    Carved (A.map base pages (.small c)).regions (base + i * blockSize c) c := by
  refine ⟨_, List.mem_cons_self .., rfl, i, rfl, ?_⟩
  rw [Nat.succ_mul] at hle
  unfold Region.len
  simp only
  omega

/-- Small enough, and aligned loosely enough, to be served from a magazine. -/
def Allocation.Small (a : Allocation) : Prop := a.size ≤ MAX_CACHE_SIZE ∧ a.align ≤ 8

instance (a : Allocation) : Decidable a.Small := inferInstanceAs (Decidable (_ ∧ _))

/-- The block of a small allocation. -/
def Allocation.block (a : Allocation) : Nat := a.ptr - CACHE_HEADER_SIZE

/-- The blocks of a class that the client holds. -/
def liveBlocks (L : List Allocation) (c : Nat) : List Nat :=
  (L.filter fun a => a.Small ∧ classOf a.size = some c).map Allocation.block

/-! ### What the client holds -/

/-- A large allocation in its region, with the headers `alloc` wrote. -/
structure LargeAt (mem : Mem) (R : List Region) (r : Region) (a : Allocation) : Prop where
  region : r ∈ R
  purpose : r.purpose = .large
  low : r.base + PAGE_HEADER_SIZE + LARGE_HEADER_SIZE ≤ a.ptr
  high : a.ptr + a.size ≤ r.base + r.len
  magic : mem.read (a.ptr - LARGE_HEADER_SIZE) 4 = LARGE_MAGIC
  basePtr : mem.read (a.ptr - LARGE_HEADER_SIZE + 8) 8 = r.base
  pageMagic : mem.read r.base 4 = MAGIC
  numPages : mem.read (r.base + 4) 4 = r.pages % 2 ^ 32
  requested : mem.read (r.base + 8) 8 = a.size

structure Lives (mem : Mem) (R : List Region) (L : List Allocation) : Prop where
  ptrs : (L.map Allocation.ptr).Nodup
  pos : ∀ a ∈ L, 0 < a.size
  small : ∀ a ∈ L, a.Small → mem.read a.block 8 = a.size
  large : ∀ a ∈ L, ¬ a.Small → ∃ r, LargeAt mem R r a
  /-- A large region belongs to one allocation. -/
  alone : ∀ a ∈ L, ∀ a' ∈ L, ¬ a.Small → ¬ a'.Small → ∀ r ∈ R,
    r.Has a.ptr → r.Has a'.ptr → a = a'

/-- The mappings, the headers in them, and the blocks that are live. -/
structure Ground (A : Arena) (L : List Allocation) : Prop where
  regions : Regions A.mapped A.foreign A.regions
  lives : Lives A.mem A.regions L
  carved : ∀ c, ∀ b ∈ liveBlocks L c, Carved A.regions b c

end Aethalloc.Abi
