/-
Allocations begin and end on the ground.

A block that is not live becomes so when its header is written and its pointer is
returned, a fresh large region when both its headers are written.  The other way
round, an allocation that is freed leaves the list of what the client holds, and
its region is given up if it is a large one.  Where free blocks are kept plays no
part in this; both modes of the allocator use it.
-/
import Mathlib.Logic.Function.Basic
import Aethalloc.Proofs.Abi.Footprint

namespace Aethalloc.Abi

open Lib

variable {A : Arena} {L L' : List Allocation} {a : Allocation} {b c x size align : Nat}

/-- A small request for blocks of the class. -/
structure SmallRequest (size align c : Nat) : Prop where
  pos : 0 < size
  small : size ≤ MAX_CACHE_SIZE ∧ align ≤ 8
  cls : classOf size = some c
  lt : c < 13

/-- Pages that are enough for a block may be mapped for its class. -/
theorem SmallRequest.purpose {pages : Nat} (hreq : SmallRequest size align c)
    (hle : blockSize c ≤ pages * PAGE_SIZE) (c' : Nat) (hc' : Purpose.small c = .small c') :
    c' < 13 ∧ blockSize c' ≤ pages * PAGE_SIZE := by
  obtain rfl := Purpose.small.inj hc'
  exact ⟨hreq.lt, hle⟩

/-- As many bytes, rounded up to pages, hold what they are asked for and stay in the address
space. -/
theorem pages_bounds {bytes pages : Nat} (hbytes : bytes ≤ 2 ^ 63 + 32)
    (hpages : max ((bytes + PAGE_SIZE - 1) / PAGE_SIZE) 1 = pages) :
    pages ≠ 0 ∧ bytes ≤ pages * PAGE_SIZE ∧ pages * PAGE_SIZE < 2 ^ 64 := by
  unfold PAGE_SIZE at *
  omega

/-- The first block of fresh pages is in their grid. -/
theorem carved_map_first {base pages : Nat} (hle : blockSize c ≤ pages * PAGE_SIZE) :
    Carved (A.map base pages (.small c)).regions base c := by
  have hgrid : Carved (A.map base pages (.small c)).regions (base + 0 * blockSize c) c :=
    carved_map (by omega)
  rw [Nat.zero_mul, Nat.add_zero] at hgrid
  exact hgrid

/-- The aligned address in fresh pages is past both headers and leaves room for the client. -/
theorem user_bounds {base pages : Nat} (hend : base + pages * PAGE_SIZE ≤ 2 ^ 64)
    (hle : 32 + size + align ≤ pages * PAGE_SIZE) (hpow : align.isPowerOfTwo) :
    base + 32 ≤ alignUp (base + 32) align ∧
      alignUp (base + 32) align + size ≤ base + pages * PAGE_SIZE := by
  obtain ⟨j, rfl⟩ := hpow
  have hroom : base + 32 + 2 ^ j ≤ 2 ^ 64 := by omega
  obtain ⟨-, hlow, hhigh⟩ := alignUp_spec hroom
  exact ⟨hlow, by omega⟩

/-- What is live after a call returned `p` for a layout. -/
def grow (L : List Allocation) (p : Option Nat) (size align : Nat) : List Allocation :=
  match p with
  | none => L
  | some ptr => { ptr := ptr, size := size, align := align } :: L

/-- What is live after the pointer was freed. -/
def drop (L : List Allocation) (ptr : Option Nat) : List Allocation :=
  L.filter fun a => some a.ptr ≠ ptr

@[simp] theorem drop_none : drop L none = L := by simp [drop]

/-! ### The blocks that are live -/

/-- A small allocation of the class joins the live blocks. -/
theorem liveBlocks_cons (hs : a.Small) (hc : classOf a.size = some c) : liveBlocks (a :: L)
    = Function.update (liveBlocks L) c (a.block :: liveBlocks L c) := by
  funext c'
  by_cases hcc : c' = c
  · subst hcc
    rw [Function.update_self]
    simp [liveBlocks, hs, hc]
  · rw [Function.update_of_ne hcc]
    simp [liveBlocks, hc, Ne.symm hcc]

/-- A large allocation has no block. -/
theorem liveBlocks_cons_large (hs : ¬ a.Small) : liveBlocks (a :: L) = liveBlocks L := by
  funext c
  simp [liveBlocks, hs]

namespace Ground

/-- Nothing is mapped or live at the start. -/
theorem start (mem : Mem) (foreign : Nat → Bool) :
    Ground { mem := mem, mapped := fun _ => false, foreign := foreign, regions := [] } [] where
  regions := {
    page := fun r hr => absurd hr List.not_mem_nil
    inMapped := fun r hr => absurd hr List.not_mem_nil
    apart := List.Pairwise.nil
    own := fun p hp => absurd hp (by simp)
    small := fun r hr => absurd hr List.not_mem_nil }
  lives := {
    ptrs := List.nodup_nil
    pos := fun a ha => absurd ha List.not_mem_nil
    small := fun a ha => absurd ha List.not_mem_nil
    large := fun a ha => absurd ha List.not_mem_nil
    alone := fun a ha => absurd ha List.not_mem_nil }
  carved c b hb := absurd hb List.not_mem_nil

/-- The rest of the process maps or unmaps a page of its own. -/
theorem setForeign {page : Nat} {mapped : Bool} (h : Ground A L) (hpage : A.mapped page = false) :
    Ground { A with foreign := Function.update A.foreign page mapped } L where
  regions := {
    page := h.regions.page
    inMapped := h.regions.inMapped
    apart := h.regions.apart
    own := fun p hp => by
      have hne : p ≠ page := by
        rintro rfl
        exact absurd (hp.symm.trans hpage) (by simp)
      exact (Function.update_of_ne hne _ _).trans (h.regions.own p hp)
    small := h.regions.small }
  lives := h.lives
  carved := h.carved

/-- The order of the list does not matter. -/
theorem perm (h : Ground A L) (hp : L.Perm L') : Ground A L' where
  regions := h.regions
  lives := {
    ptrs := (hp.map _).nodup_iff.mp h.lives.ptrs
    pos := fun a ha => h.lives.pos a (hp.mem_iff.mpr ha)
    small := fun a ha => h.lives.small a (hp.mem_iff.mpr ha)
    large := fun a ha => h.lives.large a (hp.mem_iff.mpr ha)
    alone := fun a ha a' ha' => h.lives.alone a (hp.mem_iff.mpr ha) a' (hp.mem_iff.mpr ha') }
  carved c b hb := h.carved c b (((hp.filter _).map _).mem_iff.mpr hb)

/-- Dropping a pointer from the list drops exactly its allocation. -/
theorem perm_drop (h : Ground A L) (ha : a ∈ L) :
    L.Perm (a :: L.filter fun a' => some a'.ptr ≠ some a.ptr) := by
  have hnd := h.lives.ptrs
  have hsplit := List.filter_append_perm (fun a' => decide (some a'.ptr ≠ some a.ptr)) L
  have hself : L.filter (fun a' => ! decide (some a'.ptr ≠ some a.ptr)) = [a] := by
    clear hsplit h
    induction L with
    | nil => cases ha
    | cons a₀ L ih =>
        rw [List.map_cons, List.nodup_cons] at hnd
        rcases List.mem_cons.mp ha with rfl | hmem
        · have hrest : L.filter (fun a' => ! decide (some a'.ptr ≠ some a.ptr)) = [] := by
            refine List.filter_eq_nil_iff.mpr fun a' ha' hc => hnd.1 ?_
            have hptr : a'.ptr = a.ptr := by simpa using hc
            rw [← hptr]
            exact List.mem_map.mpr ⟨a', ha', rfl⟩
          rw [List.filter_cons_of_pos (by simp), hrest]
        · have hne : a₀.ptr ≠ a.ptr := by
            intro hc
            exact hnd.1 (by rw [hc]; exact List.mem_map.mpr ⟨a, hmem, rfl⟩)
          rw [List.filter_cons_of_neg (by simp [hne]), ih hmem hnd.2]
  rw [hself] at hsplit
  exact hsplit.symm.trans (List.perm_append_singleton a _)

/-! ### Memory -/

/-- Memory may change wherever there is no header. -/
theorem setMem (h : Ground A L) (mem : Mem)
    (hmem : ∀ a ∈ L, ∀ x, Header A.regions a x → mem x = A.mem x) :
    Ground { A with mem := mem } L where
  regions := h.regions
  lives := h.lives_frame { A with mem := mem } (fun _ hr => hr) (fun _ hr _ _ _ => hr) hmem
  carved := h.carved

/-- The first word of a block that is not live is in no footprint. -/
theorem word_footprint {mem : Mem} (h : Ground A L) (hb : Carved A.regions b c)
    (hdead : ∀ c, b ∉ liveBlocks L c) (hmem : ∀ x, ¬ (b ≤ x ∧ x < b + 8) → mem x = A.mem x) :
    ∀ a ∈ L, ∀ x, Footprint A.regions a x → mem x = A.mem x := by
  intro a ha x hx
  have hblock := blockSize_pos c
  refine hmem x fun hc => ?_
  exact h.not_footprint hb hdead ⟨hc.1, by omega⟩ ha hx

/-- So it may be written. -/
theorem setWord {mem : Mem} (h : Ground A L) (hb : Carved A.regions b c)
    (hdead : ∀ c, b ∉ liveBlocks L c) (hmem : ∀ x, ¬ (b ≤ x ∧ x < b + 8) → mem x = A.mem x) :
    Ground { A with mem := mem } L :=
  h.setMem mem fun a ha x hx => h.word_footprint hb hdead hmem a ha x (h.header_footprint ha hx)

/-- Footprints are in regions that were there before, so not in fresh pages. -/
theorem footprint_not_fresh {base pages : Nat} (h : Ground A L) (hfree : A.Free base pages)
    (hpos : pages ≠ 0) (ha : a ∈ L) (hx : Footprint A.regions a x) :
    ¬ (base ≤ x ∧ x < base + pages * PAGE_SIZE) := by
  intro hin
  obtain ⟨r, hr, hrx⟩ := h.footprint_region ha hx
  have hap := h.regions.fresh_apart hfree hpos hr
  unfold Region.Has at hrx
  omega

/-- A live pointer is not in fresh pages. -/
theorem ptr_not_fresh {base pages : Nat} (h : Ground A L) (hfree : A.Free base pages)
    (hpos : pages ≠ 0) (ha : a ∈ L) : ¬ (base ≤ a.ptr ∧ a.ptr < base + pages * PAGE_SIZE) := by
  have hsize := h.lives.pos a ha
  have hrange : a.InRange a.ptr := ⟨Nat.le_refl _, by omega⟩
  exact h.footprint_not_fresh hfree hpos ha (h.range_footprint ha hrange)

/-- Fresh pages are mapped. -/
theorem map {base pages : Nat} (h : Ground A L) (purpose : Purpose) (hfree : A.Free base pages)
    (hpos : pages ≠ 0)
    (hsmall : ∀ c, purpose = .small c → c < 13 ∧ blockSize c ≤ pages * PAGE_SIZE) :
    Ground (A.map base pages purpose) L ∧
      ∀ a ∈ L, ∀ x, Footprint A.regions a x → (A.map base pages purpose).mem x = A.mem x := by
  have hmem : ∀ a ∈ L, ∀ x, Footprint A.regions a x → (A.map base pages purpose).mem x = A.mem x :=
    fun a ha x hx => Mem.fill_outside (h.footprint_not_fresh hfree hpos ha hx)
  refine ⟨{
    regions := h.regions.map hfree hpos hsmall
    lives := h.lives_frame _ (fun r hr => List.mem_cons_of_mem _ hr) (fun r hr a ha hhas => ?_)
      (fun a ha x hx => hmem a ha x (h.header_footprint ha hx))
    carved := fun c b hb => ?_ }, hmem⟩
  · rcases List.mem_cons.mp hr with rfl | hr
    · exact absurd hhas (h.ptr_not_fresh hfree hpos ha)
    · exact hr
  · exact (h.carved c b hb).map base pages purpose

/-! ### Small allocations -/

/-- A block that is not live becomes so. -/
theorem gainSmall (h : Ground A L) (align : Nat) (hb : Carved A.regions b c)
    (hdead : ∀ c, b ∉ liveBlocks L c) (hpos : 0 < size)
    (hsmall : size ≤ MAX_CACHE_SIZE ∧ align ≤ 8) (hclass : classOf size = some c) :
    Ground { A with mem := A.mem.write b 8 size }
        ({ ptr := b + CACHE_HEADER_SIZE, size := size, align := align } :: L) ∧
      ∀ a ∈ L, ∀ x, Footprint A.regions a x → A.mem.write b 8 size x = A.mem x := by
  have hblock := blockSize_pos c
  have hout : ∀ x, ¬ (b ≤ x ∧ x < b + 8) → A.mem.write b 8 size x = A.mem x :=
    fun x hx => Mem.write_outside hx
  have hkeep := h.word_footprint hb hdead hout
  have hframe := h.setWord hb hdead hout
  -- the new pointer is no pointer of the list
  have hptr : b + CACHE_HEADER_SIZE ∉ L.map Allocation.ptr := by
    intro hc
    obtain ⟨a, ha, haptr⟩ := List.mem_map.mp hc
    have hpos' := h.lives.pos a ha
    have hfoot : Footprint A.regions a (b + CACHE_HEADER_SIZE) :=
      h.range_footprint ha (by unfold Allocation.InRange; omega)
    refine h.not_footprint hb hdead ⟨Nat.le_add_right _ _, ?_⟩ ha hfoot
    unfold CACHE_HEADER_SIZE
    omega
  have hself : (Allocation.mk (b + CACHE_HEADER_SIZE) size align).block = b := Nat.add_sub_cancel ..
  refine ⟨{
    regions := h.regions
    lives := {
      ptrs := List.nodup_cons.mpr ⟨hptr, h.lives.ptrs⟩
      pos := fun a ha => (List.mem_cons.mp ha).elim (fun he => by rw [he]; exact hpos)
        (h.lives.pos a)
      small := fun a ha hs => ?_
      large := fun a ha hs => ?_
      alone := fun a ha a' ha' hs hs' => ?_ }
    carved := fun c' b' hb' => ?_ }, hkeep⟩
  · rcases List.mem_cons.mp ha with rfl | ha
    · rw [hself]
      refine Mem.read_write ?_
      have := hsmall.1
      unfold MAX_CACHE_SIZE at this
      show size < 256 ^ 8
      omega
    · exact hframe.lives.small a ha hs
  · rcases List.mem_cons.mp ha with rfl | ha
    · exact absurd hsmall hs
    · exact hframe.lives.large a ha hs
  · rcases List.mem_cons.mp ha with rfl | ha
    · exact absurd hsmall hs
    · rcases List.mem_cons.mp ha' with rfl | ha'
      · exact absurd hsmall hs'
      · exact h.lives.alone a ha a' ha' hs hs'
  · rw [liveBlocks_cons (a := { ptr := b + CACHE_HEADER_SIZE, size := size, align := align })
      hsmall hclass, hself] at hb'
    by_cases hcc : c' = c
    · subst hcc
      rw [Function.update_self] at hb'
      rcases List.mem_cons.mp hb' with rfl | hb'
      · exact hb
      · exact h.carved c' b' hb'
    · rw [Function.update_of_ne hcc] at hb'
      exact h.carved c' b' hb'

/-- The header of a small block is the size, which is neither of the two magic numbers. -/
theorem header_word (h : Ground A L) (ha : a ∈ L) (hs : a.Small) :
    A.mem.read (a.ptr - CACHE_HEADER_SIZE) 8 = a.size ∧
      A.mem.read (a.ptr - LARGE_HEADER_SIZE) 4 ≠ LARGE_MAGIC ∧
      A.mem.read (a.ptr - CACHE_HEADER_SIZE) 4 ≠ MAGIC := by
  have hle := hs.1
  have hread : A.mem.read (a.ptr - CACHE_HEADER_SIZE) 8 = a.size := h.lives.small a ha hs
  have hlow : A.mem.read (a.ptr - CACHE_HEADER_SIZE) 4 = a.size := by
    have hbytes : A.mem.read (a.ptr - CACHE_HEADER_SIZE) 4
        = A.mem.read (a.ptr - CACHE_HEADER_SIZE) (4 + 4) % 256 ^ 4 := Mem.read_prefix
    rw [hbytes, hread]
    unfold MAX_CACHE_SIZE at hle
    omega
  show _ ∧ A.mem.read (a.ptr - CACHE_HEADER_SIZE) 4 ≠ LARGE_MAGIC ∧ _
  rw [hlow]
  unfold MAX_CACHE_SIZE at hle
  unfold LARGE_MAGIC MAGIC
  omega

/-- The size that was asked for can be read back from every live pointer. -/
theorem getAllocSize_eq (h : Ground A L) (ha : a ∈ L) :
    getAllocSize A.mem (some a.ptr) = a.size := by
  unfold getAllocSize
  simp only
  by_cases hs : a.Small
  · obtain ⟨hread, hlarge, hmagic⟩ := h.header_word ha hs
    rw [if_neg hlarge, if_pos ⟨by rw [hread]; exact h.lives.pos a ha, by rw [hread]; exact hs.1,
      hmagic⟩]
    exact hread
  · obtain ⟨r, hr⟩ := h.lives.large a ha hs
    rw [if_pos hr.magic, hr.basePtr, if_pos hr.pageMagic]
    exact hr.requested

/-- An allocation is no longer held. -/
theorem forget (h : Ground A (a :: L)) : Ground A L where
  regions := h.regions
  lives := {
    ptrs := (List.nodup_cons.mp h.lives.ptrs).2
    pos := fun a' ha' => h.lives.pos a' (List.mem_cons_of_mem _ ha')
    small := fun a' ha' => h.lives.small a' (List.mem_cons_of_mem _ ha')
    large := fun a' ha' => h.lives.large a' (List.mem_cons_of_mem _ ha')
    alone := fun a₁ h₁ a₂ h₂ => h.lives.alone a₁ (List.mem_cons_of_mem _ h₁) a₂
      (List.mem_cons_of_mem _ h₂) }
  carved c b hb := by
    obtain ⟨a', ha', hsmall, hclass, hblock⟩ := mem_liveBlocks.mp hb
    exact h.carved c b (mem_liveBlocks.mpr ⟨a', List.mem_cons_of_mem _ ha', hsmall, hclass, hblock⟩)

end Ground

/-! ### Large allocations -/

/-- Memory after both headers of a large allocation were written. -/
def largeHeaders (mem : Mem) (base pages size user : Nat) : Mem :=
  ((((mem.write base 4 MAGIC).write (base + 4) 4 pages).write (base + 8) 8 size).write
    (user - LARGE_HEADER_SIZE) 4 LARGE_MAGIC).write (user - LARGE_HEADER_SIZE + 8) 8 base

section LargeHeaders

variable {mem : Mem} {base pages user : Nat}

/-- The headers are the only bytes written. -/
theorem largeHeaders_outside (hlow : 16 ≤ user) (h : ¬ (base ≤ x ∧ x < base + 16))
    (h' : ¬ (user - 16 ≤ x ∧ x < user)) :
    largeHeaders mem base pages size user x = mem x := by
  unfold largeHeaders LARGE_HEADER_SIZE
  rw [Mem.write_outside (by omega), Mem.write_outside (by omega), Mem.write_outside (by omega),
    Mem.write_outside (by omega), Mem.write_outside (by omega)]

/-- The headers of a fresh region read back. -/
theorem largeHeaders_at {R : List Region}
    (hr : { base := base, pages := pages, purpose := .large } ∈ R) (hlow : base + 32 ≤ user)
    (hhigh : user + size ≤ base + pages * PAGE_SIZE)
    (hend : base + pages * PAGE_SIZE ≤ 2 ^ 64) (hsize : 0 < size) :
    LargeAt (largeHeaders mem base pages size user) R
      { base := base, pages := pages, purpose := .large }
      { ptr := user, size := size, align := align } where
  region := hr
  purpose := rfl
  low := hlow
  high := hhigh
  magic := by
    show (largeHeaders mem base pages size user).read (user - LARGE_HEADER_SIZE) 4 = LARGE_MAGIC
    unfold largeHeaders LARGE_HEADER_SIZE
    rw [Mem.read_write_of_disjoint (by omega), Mem.read_write (by decide)]
  basePtr := by
    show (largeHeaders mem base pages size user).read (user - LARGE_HEADER_SIZE + 8) 8 = base
    unfold largeHeaders LARGE_HEADER_SIZE
    exact Mem.read_write (by omega)
  pageMagic := by
    show (largeHeaders mem base pages size user).read base 4 = MAGIC
    unfold largeHeaders LARGE_HEADER_SIZE
    rw [Mem.read_write_of_disjoint (by omega), Mem.read_write_of_disjoint (by omega),
      Mem.read_write_of_disjoint (by omega), Mem.read_write_of_disjoint (by omega),
      Mem.read_write (by decide)]
  numPages := by
    show (largeHeaders mem base pages size user).read (base + 4) 4 = pages % 2 ^ 32
    unfold largeHeaders LARGE_HEADER_SIZE
    rw [Mem.read_write_of_disjoint (by omega), Mem.read_write_of_disjoint (by omega),
      Mem.read_write_of_disjoint (by omega), Mem.read_write_mod]
    rfl
  requested := by
    show (largeHeaders mem base pages size user).read (base + 8) 8 = size
    unfold largeHeaders LARGE_HEADER_SIZE
    rw [Mem.read_write_of_disjoint (by omega), Mem.read_write_of_disjoint (by omega),
      Mem.read_write (by omega)]

/-- A fresh region becomes a large allocation. -/
theorem Ground.gainLarge (h : Ground A L) (align : Nat) (hfree : A.Free base pages)
    (hpos : pages ≠ 0) (hsize : 0 < size) (hlarge : ¬ (size ≤ MAX_CACHE_SIZE ∧ align ≤ 8))
    (hlow : base + 32 ≤ user)
    (hhigh : user + size ≤ base + pages * PAGE_SIZE) :
    Ground { A.map base pages .large with
        mem := largeHeaders (A.map base pages .large).mem base pages size user }
        ({ ptr := user, size := size, align := align } :: L) ∧
      ∀ a ∈ L, ∀ x, Footprint A.regions a x →
        largeHeaders (A.map base pages .large).mem base pages size user x = A.mem x := by
  obtain ⟨hmap, hkeep⟩ := h.map .large hfree hpos (by simp)
  have hkeep' : ∀ a ∈ L, ∀ x, Footprint A.regions a x →
      largeHeaders (A.map base pages .large).mem base pages size user x = A.mem x := by
    intro a ha x hx
    have hout := h.footprint_not_fresh hfree hpos ha hx
    rw [largeHeaders_outside (by omega) (by omega) (by omega), hkeep a ha x hx]
  -- the headers of what is live are still where they were
  have hheader : ∀ a ∈ L, ∀ x, Header (A.map base pages .large).regions a x →
      largeHeaders (A.map base pages .large).mem base pages size user x
        = (A.map base pages .large).mem x := by
    intro a ha x hx
    have hold : Header A.regions a x := by
      rcases hx with hx | ⟨hs, r, hr, hhas, hx⟩
      · exact Or.inl hx
      · rcases List.mem_cons.mp hr with rfl | hr
        · exact absurd hhas (h.ptr_not_fresh hfree hpos ha)
        · exact Or.inr ⟨hs, r, hr, hhas, hx⟩
    have hfoot := h.header_footprint ha hold
    rw [hkeep' a ha x hfoot, hkeep a ha x hfoot]
  have hframe := hmap.setMem _ hheader
  have hnew : ∀ a ∈ L, ¬ (base ≤ a.ptr ∧ a.ptr < base + pages * PAGE_SIZE) :=
    fun a ha => h.ptr_not_fresh hfree hpos ha
  -- a region with the new pointer is the fresh one
  have hregion : ∀ r ∈ (A.map base pages .large).regions, r.Has user →
      r = { base := base, pages := pages, purpose := .large } := by
    intro r hr hhas
    refine hmap.regions.unique hr (List.mem_cons_self ..) hhas ?_
    unfold Region.Has Region.len
    simp only
    omega
  refine ⟨{
    regions := hframe.regions
    lives := {
      ptrs := List.nodup_cons.mpr ⟨?_, h.lives.ptrs⟩
      pos := fun a ha => (List.mem_cons.mp ha).elim (fun he => by rw [he]; exact hsize)
        (h.lives.pos a)
      small := fun a ha hs => ?_
      large := fun a ha hs => ?_
      alone := fun a ha a' ha' hs hs' r hr hhas hhas' => ?_ }
    carved := ?_ }, hkeep'⟩
  · intro hc
    obtain ⟨a, ha, hptr⟩ := List.mem_map.mp hc
    refine hnew a ha ?_
    rw [hptr]
    show base ≤ user ∧ user < _
    omega
  · rcases List.mem_cons.mp ha with rfl | ha
    · exact absurd hs hlarge
    · exact hframe.lives.small a ha hs
  · rcases List.mem_cons.mp ha with rfl | ha
    · exact ⟨_, largeHeaders_at (List.mem_cons_self ..) hlow hhigh hfree.2.2.1 hsize⟩
    · exact hframe.lives.large a ha hs
  · rcases List.mem_cons.mp ha with rfl | ha <;> rcases List.mem_cons.mp ha' with rfl | ha'
    · rfl
    · rw [hregion r hr hhas] at hhas'
      exact absurd hhas' (hnew a' ha')
    · rw [hregion r hr hhas'] at hhas
      exact absurd hhas (hnew a ha)
    · exact hframe.lives.alone a ha a' ha' hs hs' r hr hhas hhas'
  · rw [liveBlocks_cons_large (a := { ptr := user, size := size, align := align }) hlarge]
    exact hframe.carved

end LargeHeaders

section Unmap

variable {r r' : Region}

/-- Every region but the one given up stays. -/
theorem Regions.stays (h : Regions A.mapped A.foreign A.regions) (hr : r ∈ A.regions)
    (hr' : r' ∈ A.regions) (hne : r' ≠ r) (pages : Nat) :
    r' ∈ (A.unmap r.base pages).regions := by
  refine List.mem_filter.mpr ⟨hr', ?_⟩
  have hbase : r'.base ≠ r.base := by
    intro hc
    have hhas := h.has_base hr'
    rw [hc] at hhas
    exact hne (h.unique hr' hr hhas (h.has_base hr))
  simpa using hbase

/-- A block is still in its grid when a large region is given up. -/
theorem Carved.unmap (h : Regions A.mapped A.foreign A.regions) (hr : r ∈ A.regions)
    (hp : r.purpose = .large) (pages : Nat) (hb : Carved A.regions b c) :
    Carved (A.unmap r.base pages).regions b c := by
  obtain ⟨r', hr', hp', hgrid⟩ := hb
  refine ⟨r', h.stays hr hr' (fun hc => ?_) pages, hp', hgrid⟩
  rw [hc, hp] at hp'
  exact absurd hp' (by simp)

/-- A large allocation ends and its region is given up, whatever part of it is unmapped. -/
theorem Ground.loseLarge {pages : Nat} (h : Ground A (a :: L)) (hs : ¬ a.Small)
    (hr : LargeAt A.mem A.regions r a) (hpages : pages ≤ r.pages) :
    Ground (A.unmap r.base pages) L := by
  have hrest := h.forget
  have hin : r.Has a.ptr := by
    have hpos := h.lives.pos a (List.mem_cons_self ..)
    have hlow := hr.low
    have hhigh := hr.high
    unfold Region.Has
    omega
  refine {
    regions := h.regions.unmap hr.region hpages
    lives := {
      ptrs := hrest.lives.ptrs
      pos := hrest.lives.pos
      small := hrest.lives.small
      large := fun a' ha' hs' => ?_
      alone := fun a₁ h₁ a₂ h₂ hs₁ hs₂ r' hr' =>
        hrest.lives.alone a₁ h₁ a₂ h₂ hs₁ hs₂ r' (List.mem_of_mem_filter hr') }
    carved := fun c b hb => (hrest.carved c b hb).unmap h.regions hr.region hr.purpose pages }
  obtain ⟨r', hr', hin'⟩ := hrest.large_region ha' hs'
  refine ⟨r', { hr' with region := h.regions.stays hr.region hr'.region (fun hc => ?_) pages }⟩
  -- the region given up had no other allocation
  subst hc
  have haa : a = a' := h.lives.alone a (List.mem_cons_self ..) a' (List.mem_cons_of_mem _ ha')
    hs hs' r' hr'.region hin hin'
  subst haa
  exact (List.nodup_cons.mp h.lives.ptrs).1 (List.mem_map.mpr ⟨a, ha', rfl⟩)

end Unmap

end Aethalloc.Abi
