/-
Where the bytes of the live allocations are.

A small allocation occupies its block, a large one its region.  Footprints of
different allocations are apart, and apart from every block that is not live; the
client's range and the allocator's headers lie inside the footprint, apart from
each other.  So whatever is written inside a range, outside all footprints or in
foreign memory leaves every header alone, which is all that `Lives` needs of
memory.
-/
import Mathlib.Data.List.Nodup
import Aethalloc.Proofs.Abi.Arena

namespace Aethalloc.Abi

open Lib

/-- The bytes the client may use. -/
def Allocation.InRange (a : Allocation) (x : Nat) : Prop := a.ptr ≤ x ∧ x < a.ptr + a.size

/-- The bytes an allocation occupies: its block, or its whole region. -/
def Footprint (R : List Region) (a : Allocation) (x : Nat) : Prop :=
  if a.Small then ∃ c, classOf a.size = some c ∧ a.block ≤ x ∧ x < a.block + blockSize c
  else ∃ r ∈ R, r.Has a.ptr ∧ r.Has x

/-- The bytes of an allocation's headers. -/
def Header (R : List Region) (a : Allocation) (x : Nat) : Prop :=
  (a.block ≤ x ∧ x < a.ptr) ∨
    (¬ a.Small ∧ ∃ r ∈ R, r.Has a.ptr ∧ r.base ≤ x ∧ x < r.base + PAGE_HEADER_SIZE)

variable {A : Arena} {L : List Allocation} {a a' : Allocation} {x b c : Nat}

/-! ### Small and large allocations -/

theorem mem_liveBlocks : b ∈ liveBlocks L c ↔
    ∃ a ∈ L, a.Small ∧ classOf a.size = some c ∧ a.block = b := by
  unfold liveBlocks
  simp [List.mem_map, List.mem_filter, and_assoc]

namespace Ground

/-- A small allocation is a live block of its class, a header before the pointer. -/
theorem small_block (h : Ground A L) (ha : a ∈ L) (hs : a.Small) :
    ∃ c < 13, classOf a.size = some c ∧ a.block ∈ liveBlocks L c ∧ Carved A.regions a.block c ∧
      a.ptr = a.block + CACHE_HEADER_SIZE ∧ a.size ≤ classSize c := by
  obtain ⟨c, hc, hclass, -, hle⟩ := classOf_spec (h.lives.pos a ha) hs.1
  have hmem : a.block ∈ liveBlocks L c := mem_liveBlocks.mpr ⟨a, ha, hs, hclass, rfl⟩
  have hcarved : Carved A.regions a.block c := h.carved c a.block hmem
  obtain ⟨r, hr, -, hhas⟩ := hcarved.has
  have hpos := blockSize_pos c
  have hbase := (hhas a.block (Nat.le_refl _) (by omega)).1
  have hnz := (h.regions.page r hr).1
  refine ⟨c, hc, hclass, hmem, hcarved, ?_, hle⟩
  unfold Allocation.block at *
  omega

/-- A large allocation lies in one region, past both headers. -/
theorem large_region (h : Ground A L) (ha : a ∈ L) (hs : ¬ a.Small) :
    ∃ r, LargeAt A.mem A.regions r a ∧ r.Has a.ptr := by
  obtain ⟨r, hr⟩ := h.lives.large a ha hs
  have hpos := h.lives.pos a ha
  have hlow := hr.low
  have hhigh := hr.high
  exact ⟨r, hr, by unfold Region.Has; omega⟩

/-- The client's range is part of the footprint. -/
theorem range_footprint (h : Ground A L) (ha : a ∈ L) (hx : a.InRange x) :
    Footprint A.regions a x := by
  unfold Footprint
  unfold Allocation.InRange at hx
  split
  · rename_i hs
    obtain ⟨c, -, hclass, -, -, hptr, hle⟩ := h.small_block ha hs
    refine ⟨c, hclass, ?_⟩
    unfold blockSize
    omega
  · rename_i hs
    obtain ⟨r, hr, hhas⟩ := h.large_region ha hs
    have hhigh := hr.high
    unfold Region.Has at hhas
    exact ⟨r, hr.region, hhas, by unfold Region.Has; omega⟩

/-- So are the headers. -/
theorem header_footprint (h : Ground A L) (ha : a ∈ L) (hx : Header A.regions a x) :
    Footprint A.regions a x := by
  unfold Footprint
  split
  · rename_i hs
    obtain ⟨c, -, hclass, -, -, hptr, -⟩ := h.small_block ha hs
    rcases hx with hx | ⟨hns, -⟩
    · refine ⟨c, hclass, hx.1, ?_⟩
      have := blockSize_pos c
      unfold CACHE_HEADER_SIZE at hptr
      omega
    · exact absurd hs hns
  · rename_i hs
    obtain ⟨r, hr, hhas⟩ := h.large_region ha hs
    have hlow := hr.low
    unfold PAGE_HEADER_SIZE LARGE_HEADER_SIZE at hlow
    rcases hx with hx | ⟨-, r', hr', hhas', hx⟩
    · refine ⟨r, hr.region, hhas, ?_⟩
      unfold Allocation.block CACHE_HEADER_SIZE at hx
      unfold Region.Has at *
      omega
    · have hrr : r' = r := h.regions.unique hr' hr.region hhas' hhas
      subst hrr
      refine ⟨r', hr', hhas', ?_⟩
      unfold PAGE_HEADER_SIZE at hx
      unfold Region.Has at *
      omega

/-- The client's range holds no header byte of its own allocation. -/
theorem range_not_header (h : Ground A L) (ha : a ∈ L) (hx : a.InRange x) :
    ¬ Header A.regions a x := by
  intro hh
  unfold Allocation.InRange at hx
  rcases hh with hh | ⟨hns, r', hr', hhas', hh⟩
  · omega
  · obtain ⟨r, hr, hhas⟩ := h.large_region ha hns
    have hrr : r' = r := h.regions.unique hr' hr.region hhas' hhas
    subst hrr
    have hlow := hr.low
    omega

/-- Footprints lie in mapped pages. -/
theorem footprint_region (h : Ground A L) (ha : a ∈ L) (hx : Footprint A.regions a x) :
    ∃ r ∈ A.regions, r.Has x := by
  unfold Footprint at hx
  split at hx
  · rename_i hs
    obtain ⟨c, -, hclass, -, hcarved, -⟩ := h.small_block ha hs
    obtain ⟨c', hclass', hx⟩ := hx
    rw [hclass] at hclass'
    obtain rfl := Option.some.inj hclass'
    obtain ⟨r, hr, -, hhas⟩ := hcarved.has
    exact ⟨r, hr, hhas x hx.1 hx.2⟩
  · obtain ⟨r, hr, -, hhas⟩ := hx
    exact ⟨r, hr, hhas⟩

theorem footprint_mapped (h : Ground A L) (ha : a ∈ L) (hx : Footprint A.regions a x) :
    A.mapped (x / PAGE_SIZE) = true := by
  obtain ⟨r, hr, hhas⟩ := h.footprint_region ha hx
  exact h.regions.inMapped r hr x hhas

/-- What a small footprint is, once the class is known. -/
theorem footprint_small (h : Ground A L) (ha : a ∈ L) (hs : a.Small)
    (hx : Footprint A.regions a x) : ∃ c, Carved A.regions a.block c ∧ a.block ∈ liveBlocks L c ∧
      a.ptr = a.block + CACHE_HEADER_SIZE ∧ a.block ≤ x ∧ x < a.block + blockSize c := by
  unfold Footprint at hx
  rw [if_pos hs] at hx
  obtain ⟨c, -, hclass, hmem, hcarved, hptr, -⟩ := h.small_block ha hs
  obtain ⟨c', hclass', hx⟩ := hx
  rw [hclass] at hclass'
  obtain rfl := Option.some.inj hclass'
  exact ⟨c, hcarved, hmem, hptr, hx⟩

/-- A byte of a carved block is in no large region. -/
theorem not_large (h : Ground A L) (hb : Carved A.regions b c)
    (hx : b ≤ x ∧ x < b + blockSize c) (ha : a ∈ L) (hs : ¬ a.Small) :
    ¬ Footprint A.regions a x := by
  intro hf
  unfold Footprint at hf
  rw [if_neg hs] at hf
  obtain ⟨r, hr, hhas, hrx⟩ := hf
  obtain ⟨r', hr', hp', hhas'⟩ := hb.has
  have hrr : r = r' := h.regions.unique hr hr' hrx (hhas' x hx.1 hx.2)
  obtain ⟨r'', hr'', hhas''⟩ := h.large_region ha hs
  have hrr' : r = r'' := h.regions.unique hr hr''.region hhas hhas''
  have hp := hr''.purpose
  rw [← hrr', hrr, hp'] at hp
  exact absurd hp (by simp)

/-- A byte of a carved block that is not live is in no footprint. -/
theorem not_footprint (h : Ground A L) (hb : Carved A.regions b c)
    (hdead : ∀ c, b ∉ liveBlocks L c) (hx : b ≤ x ∧ x < b + blockSize c) (ha : a ∈ L) :
    ¬ Footprint A.regions a x := by
  by_cases hs : a.Small
  · intro hf
    obtain ⟨c', hcarved, hmem, -, hx'⟩ := h.footprint_small ha hs hf
    obtain ⟨hbb, -⟩ := hb.unique h.regions hcarved hx hx'
    rw [hbb] at hdead
    exact hdead c' hmem
  · exact h.not_large hb hx ha hs

/-- Footprints of different allocations are apart. -/
theorem footprint_unique (h : Ground A L) (ha : a ∈ L) (ha' : a' ∈ L)
    (hx : Footprint A.regions a x) (hx' : Footprint A.regions a' x) : a = a' := by
  by_cases hs : a.Small <;> by_cases hs' : a'.Small
  · -- the same block, so the same pointer
    obtain ⟨c, hcarved, -, hptr, hxb⟩ := h.footprint_small ha hs hx
    obtain ⟨c', hcarved', -, hptr', hxb'⟩ := h.footprint_small ha' hs' hx'
    obtain ⟨hbb, -⟩ := hcarved.unique h.regions hcarved' hxb hxb'
    refine List.inj_on_of_nodup_map h.lives.ptrs ha ha' ?_
    rw [hptr, hptr', hbb]
  · obtain ⟨c, hcarved, -, -, hxb⟩ := h.footprint_small ha hs hx
    exact absurd hx' (h.not_large hcarved hxb ha' hs')
  · obtain ⟨c, hcarved, -, -, hxb⟩ := h.footprint_small ha' hs' hx'
    exact absurd hx (h.not_large hcarved hxb ha hs)
  · unfold Footprint at hx hx'
    rw [if_neg hs] at hx
    rw [if_neg hs'] at hx'
    obtain ⟨r, hr, hhas, hrx⟩ := hx
    obtain ⟨r', hr', hhas', hrx'⟩ := hx'
    have hrr : r = r' := h.regions.unique hr hr' hrx hrx'
    subst hrr
    exact h.lives.alone a ha a' ha' hs hs' r hr hhas hhas'

/-- Where the client may write, there is no header. -/
theorem range_no_header (h : Ground A L) (ha : a ∈ L) (hx : a.InRange x) (ha' : a' ∈ L) :
    ¬ Header A.regions a' x := by
  intro hh
  have haa : a = a' := h.footprint_unique ha ha' (h.range_footprint ha hx)
    (h.header_footprint ha' hh)
  subst haa
  exact h.range_not_header ha hx hh

/-- Neither is there one in foreign memory. -/
theorem foreign_no_header (h : Ground A L) (hx : A.foreign (x / PAGE_SIZE) = true)
    (ha : a ∈ L) : ¬ Header A.regions a x := by
  intro hh
  have hmap := h.footprint_mapped ha (h.header_footprint ha hh)
  rw [h.regions.own _ hmap] at hx
  exact absurd hx (by decide)

end Ground

/-! ### What `Lives` needs of memory -/

/-- Headers that read the same, in regions that are still there, say the same. -/
theorem Ground.lives_frame (h : Ground A L) (A' : Arena)
    (hsub : ∀ r ∈ A.regions, r ∈ A'.regions)
    (hback : ∀ r ∈ A'.regions, ∀ a ∈ L, r.Has a.ptr → r ∈ A.regions)
    (hmem : ∀ a ∈ L, ∀ x, Header A.regions a x → A'.mem x = A.mem x) :
    Lives A'.mem A'.regions L where
  ptrs := h.lives.ptrs
  pos := h.lives.pos
  small a ha hs := by
    rw [← h.lives.small a ha hs]
    obtain ⟨-, -, -, -, -, hptr, -⟩ := h.small_block ha hs
    unfold CACHE_HEADER_SIZE at hptr
    exact Mem.read_congr fun x h1 h2 => hmem a ha x (Or.inl ⟨h1, by omega⟩)
  large a ha hs := by
    obtain ⟨r, hr, hin⟩ := h.large_region ha hs
    have hlow := hr.low
    unfold PAGE_HEADER_SIZE LARGE_HEADER_SIZE at hlow
    have hnear : ∀ x, a.ptr - 16 ≤ x → x < a.ptr → A'.mem x = A.mem x :=
      fun x h1 h2 => hmem a ha x (Or.inl ⟨h1, h2⟩)
    have hpage : ∀ x, r.base ≤ x → x < r.base + 16 → A'.mem x = A.mem x :=
      fun x h1 h2 => hmem a ha x (Or.inr ⟨hs, r, hr.region, hin, h1, h2⟩)
    refine ⟨r, {
      region := hsub r hr.region
      purpose := hr.purpose
      low := hr.low
      high := hr.high
      magic := ?_
      basePtr := ?_
      pageMagic := ?_
      numPages := ?_
      requested := ?_ }⟩
    · rw [← hr.magic]
      exact Mem.read_congr fun x h1 h2 => hnear x h1 (by unfold LARGE_HEADER_SIZE at *; omega)
    · rw [← hr.basePtr]
      exact Mem.read_congr fun x h1 h2 => hnear x (by unfold LARGE_HEADER_SIZE at *; omega)
        (by unfold LARGE_HEADER_SIZE at *; omega)
    · rw [← hr.pageMagic]
      exact Mem.read_congr fun x h1 h2 => hpage x h1 (by omega)
    · rw [← hr.numPages]
      exact Mem.read_congr fun x h1 h2 => hpage x (by omega) (by omega)
    · rw [← hr.requested]
      exact Mem.read_congr fun x h1 h2 => hpage x (by omega) (by omega)
  alone a ha a' ha' hs hs' r hr hhas₁ hhas₂ :=
    h.lives.alone a ha a' ha' hs hs' r (hback r hr a ha hhas₁) hhas₁ hhas₂

end Aethalloc.Abi
