/-
What becomes of a fresh page.

A cache miss maps a page, returns its first block and puts the others into the
thread's alloc magazine.  A magazine holds 64 blocks.  Pages of the two smallest
classes have more, and `bulk_init` leaves out what does not fit: 63 of 128 blocks
of 32 bytes, and 20 of 85 blocks of 48 bytes, are never in anybody's hands again.
-/
import Aethalloc.Proofs.Abi

namespace Aethalloc.Abi

open Lib

variable {full empty : Nat → List Nat} {h h' : Heap} {L : List Allocation} {w : World}
  {t c base size align : Nat} {mem : Mem} {foreign : Nat → Bool}

/-! ### Looking for a cached block -/

namespace Heap

theorem allocGlobal_eq {cacheSize : Nat} : h.allocGlobal t size cacheSize c =
    match h.findGlobal t c with
    | (h, some block) => h.serve t size block
    | (h, none) => h.allocMiss t size cacheSize c := by
  unfold allocGlobal findGlobal
  split
  · rfl
  · simp only
    split <;> rfl

theorem allocSwap_eq {cacheSize : Nat} : h.allocSwap t size cacheSize c =
    match h.findSwapped t c with
    | (h, some block) => h.serve t size block
    | (h, none) => h.allocMiss t size cacheSize c := by
  unfold allocSwap findSwapped
  split
  · exact allocGlobal_eq
  · simp only
    split
    · rfl
    · exact allocGlobal_eq

/-- A small request is served from what is cached, or is a miss. -/
theorem allocSmall_eq {cacheSize : Nat} : h.allocSmall t size cacheSize c =
    match h.findCached t c with
    | (h, some block) => h.serve t size block
    | (h, none) => h.allocMiss t size cacheSize c := by
  unfold allocSmall findCached
  split
  · rfl
  · exact allocSwap_eq

/-- A magazine of the full stack is full, so finding nothing there means that there is none. -/
theorem findGlobal_none (hinv : Inv full empty h.core L)
    (hempty : (h.core.allocMags t c).slots = []) (hnone : (h.findGlobal t c).2 = none) :
    h.findGlobal t c = (h, none) := by
  unfold findGlobal GlobalMagazinePool.popFull at *
  cases hhead : (h.globalMagazines c).fullHead with
  | none => rfl
  | some n =>
      rw [hhead] at hnone
      simp only at hnone
      have hcore : ((h.setPool c { h.globalMagazines c with fullHead := (h.nodes n).next }
          h.nodes).swapNode t c n).core = h.core.takeFull t c n := core_swapNode
      generalize (h.setPool c { h.globalMagazines c with fullHead := (h.nodes n).next }
        h.nodes).swapNode t c n = h' at hnone hcore
      have hmag : (h'.threads t).allocMags c = (h.core.nodes n).magazine := by
        rw [allocMags_eq, hcore]
        exact setMag_self
      obtain ⟨rest, hfull, hinv'⟩ := hinv.takeFull hhead hempty
      rw [← hcore] at hinv'
      have hlen := hinv.blocks.fullMags c n (by rw [hfull]; simp)
      rcases Magazine.pop_cases (hinv'.blocks.mags t c).1 with ⟨hslots, -⟩ | ⟨b, m, hpop, -, -⟩
      · rw [← allocMags_eq, hmag] at hslots
        rw [hslots] at hlen
        exact absurd hlen (by decide)
      · rw [allocMags_eq, hpop] at hnone
        cases hnone

/-- Where nothing cached is found, nothing was touched and the alloc magazine is empty. -/
theorem findCached_none (hinv : Inv full empty h.core L) (hnone : (h.findCached t c).2 = none) :
    h.findCached t c = (h, none) ∧ (h.core.allocMags t c).slots = [] := by
  unfold findCached at *
  rcases Magazine.pop_cases (hinv.blocks.mags t c).1 with ⟨hslots, hpop⟩ | ⟨b, m, hpop, -, -⟩
  · rw [allocMags_eq, hpop] at hnone ⊢
    refine ⟨?_, hslots⟩
    simp only at hnone ⊢
    unfold findSwapped at *
    by_cases hfree : ((h.threads t).freeMags c).isEmpty = true
    · rw [if_pos hfree] at hnone ⊢
      exact findGlobal_none hinv hslots hnone
    · -- the free magazine is not empty, so its last block is found
      exfalso
      rw [if_neg hfree] at hnone
      simp only at hnone
      have hmag : (((h.setAllocMag t c ((h.threads t).freeMags c)).setFreeMag t c
          ((h.threads t).allocMags c)).threads t).allocMags c = h.core.freeMags t c := by
        rw [allocMags_eq, core_setFreeMag, core_setAllocMag]
        exact setMag_self
      rw [hmag] at hnone
      rcases Magazine.pop_cases (hinv.blocks.mags t c).2 with ⟨hnil, -⟩ | ⟨b, m, hpop', -, -⟩
      · exact hfree (Magazine.isEmpty_of_nil (hinv.blocks.mags t c).2 hnil)
      · rw [hpop'] at hnone
        cases hnone
  · rw [allocMags_eq, hpop] at hnone
    cases hnone

/-! ### The blocks of the page -/

/-- A miss with an empty alloc magazine keeps as many blocks of the page as a magazine holds. -/
theorem allocMiss_page (size : Nat) (hok : (h.core.allocMags t c).OK)
    (hempty : (h.core.allocMags t c).slots = []) (hmany : 1 < PAGE_SIZE / blockSize c)
    (hmap : (PageAllocator.alloc h.sys 1).2 = some base) :
    (h.allocMiss t size (classSize c) c).2 = some (base + CACHE_HEADER_SIZE) ∧
      (((h.allocMiss t size (classSize c) c).1.threads t).allocMags c).slots
        = restOfPage base (blockSize c) (min (PAGE_SIZE / blockSize c - 1) MAGAZINE_CAPACITY) := by
  unfold allocMiss
  generalize hh₀ : (h.updateMetrics t ThreadMetrics.countMiss) = h₀
  have hcore₀ : h₀.core = h.core := by
    rw [← hh₀]
    exact core_updateMetrics
  have hmap₀ : (h₀.mapPages 1 (.small c)).2 = some base := by
    rw [mapPages_snd, ← hh₀]
    exact hmap
  have hbs : classSize c + CACHE_HEADER_SIZE = blockSize c := rfl
  simp only [hbs]
  rw [if_pos hmany]
  rcases h₀.mapPages_cases 1 (.small c) (by decide) (by decide) with
    ⟨h', heq, -⟩ | ⟨h', base', heq, -, hcore⟩
  · rw [heq] at hmap₀
    cases hmap₀
  · rw [heq] at hmap₀ ⊢
    obtain rfl := Option.some.inj hmap₀
    have hmag : (h'.threads t).allocMags c = h.core.allocMags t c := by
      rw [allocMags_eq, hcore, hcore₀]
      rfl
    obtain ⟨-, hslots⟩ := Magazine.bulkInit_slots hok (base' + blockSize c) (blockSize c)
      (PAGE_SIZE / blockSize c - 1)
    simp only
    rw [if_pos (by omega), hmag]
    refine ⟨trivial, ?_⟩
    rw [allocMags_eq, core_maybeFlush, core_write, core_setAllocMag]
    show (setMag h'.core.allocMags t c _ t c).slots = _
    rw [setMag_self, hslots, hempty]
    rfl

end Heap

/-- The first block of the page is the caller's, and each other one is in one slot of the thread's
alloc magazine. -/
structure AllKept (t c base : Nat) (r : Heap × Option Nat) : Prop where
  first : r.2 = some (base + CACHE_HEADER_SIZE)
  rest : ∀ i, 1 ≤ i → i < PAGE_SIZE / blockSize c →
    ((r.1.threads t).allocMags c).slots.count (base + i * blockSize c) = 1

/-- The blocks of a page after the first fit into a magazine from class 2 on. -/
theorem blocks_fit_iff : ∀ c < 13, PAGE_SIZE / blockSize c - 1 ≤ MAGAZINE_CAPACITY ↔ 2 ≤ c := by
  decide

theorem class_lt_two : ∀ size < 33, max (roundUpPow2 size) 16 ≤ 32 := by decide

/-- Sizes above 32 are those of the classes from 2 on. -/
theorem SmallRequest.two_le_iff (hreq : SmallRequest size align c) : 2 ≤ c ↔ 32 < size := by
  obtain ⟨c', -, hclass, hround, hle⟩ := classOf_spec hreq.pos hreq.small.1
  obtain rfl : c = c' := Option.some.inj (hreq.cls.symm.trans hclass)
  constructor
  · intro hc
    by_contra hsize
    have hmax := class_lt_two size (by omega)
    have hpow : 2 ^ 2 ≤ 2 ^ c := Nat.pow_le_pow_right (by decide) hc
    rw [hround] at hmax
    unfold classSize at hmax
    omega
  · intro hsize
    by_contra hc
    have hpow : 2 ^ c ≤ 2 ^ 1 := Nat.pow_le_pow_right (by decide) (by omega)
    unfold classSize at hle
    omega

theorem Heap.alloc_small {layout : Layout} (hreq : SmallRequest layout.size layout.align c) :
    h.alloc t layout = h.allocSmall t layout.size (classSize c) c := by
  obtain ⟨c', -, hclass, hround, -⟩ := classOf_spec hreq.pos hreq.small.1
  obtain rfl : c = c' := Option.some.inj (hreq.cls.symm.trans hclass)
  have hcls : sizeToClass (max (roundUpPow2 layout.size) 16) = some c := hclass
  unfold Heap.alloc
  simp only
  rw [if_neg (Nat.ne_of_gt hreq.pos), if_pos hreq.small, hcls, hround]

/--
**A fresh page is kept whole for sizes above 32 only.**  In every reachable state and
for every small request that finds no cached block and whose page is granted, the
first block of the page is returned and every other one is in one slot of the alloc
magazine if and only if the size is above 32.  The page is the one the branch for
many blocks maps first, with one page; if the kernel refuses it and then grants the
pages of the fallback, these hold a single block and are not spoken of here.
-/
theorem page_kept_iff (hw : (machine mem foreign).Reaches w) (t : Nat) (layout : Layout)
    (answers : List (Option Nat)) (hreq : SmallRequest layout.size layout.align c)
    (hmiss : ((w.enter answers).findCached t c).2 = none) (hmany : 1 < PAGE_SIZE / blockSize c)
    (hmap : (PageAllocator.alloc (w.enter answers).sys 1).2 = some base) :
    AllKept t c base ((w.enter answers).alloc t layout) ↔ 32 < layout.size := by
  obtain ⟨full, empty, hinv⟩ := reaches_good hw
  have hin : Inv full empty (w.enter answers).core w.live := hinv
  obtain ⟨hfound, hempty⟩ := Heap.findCached_none hin hmiss
  obtain ⟨hptr, hslots⟩ := Heap.allocMiss_page layout.size (hin.blocks.mags t c).1 hempty
    hmany hmap
  have halloc : (w.enter answers).alloc t layout
      = (w.enter answers).allocMiss t layout.size (classSize c) c := by
    rw [Heap.alloc_small hreq, Heap.allocSmall_eq, hfound]
  have hsize := blockSize_pos c
  rw [← hreq.two_le_iff, ← blocks_fit_iff c hreq.lt, halloc]
  constructor
  · intro hkept
    by_contra hlost
    -- the first block that did not fit
    have hcount := hkept.rest (MAGAZINE_CAPACITY + 1) (by omega) (by omega)
    rw [hslots] at hcount
    obtain ⟨i, hi, heq⟩ := mem_restOfPage.mp (List.one_le_count_iff.mp (Nat.le_of_eq hcount.symm))
    have hmul : (MAGAZINE_CAPACITY + 1) * blockSize c = (i + 1) * blockSize c := by omega
    have := Nat.eq_of_mul_eq_mul_right (by omega) hmul
    omega
  · intro hfit
    rw [Nat.min_eq_left hfit] at hslots
    refine ⟨hptr, fun i hpos hi => ?_⟩
    rw [hslots]
    refine List.count_eq_one_of_mem (restOfPage_nodup (by omega)) (mem_restOfPage.mpr ?_)
    exact ⟨i - 1, by omega, by rw [Nat.sub_add_cancel hpos]⟩

/-- Sixty-four bytes. -/
def line : Layout where
  size := 64
  align := 8
  isPow2 := isPowerOfTwo_eight
  bound := by decide

/-- The first page for sixty-four bytes is kept whole, with fifty blocks in the magazine. -/
theorem page_kept_line : AllKept 0 2 4096 ((bare.init.enter [some 4096]).alloc 0 line) := by
  have hreq : SmallRequest line.size line.align 2 :=
    ⟨by decide, by decide, by decide, by decide⟩
  exact (page_kept_iff Machine.reaches_init 0 line [some 4096] hreq (by decide) (by decide)
    (by decide)).mpr (by decide)

/-- Of the first page for eight bytes the block at 6176, the 66th, is in no slot. -/
theorem page_not_kept_word : ((bare.init.enter [some 4096]).findCached 0 0).2 = none ∧
    ((bare.init.enter [some 4096]).alloc 0 word).2 = some 4112 ∧ 65 < PAGE_SIZE / blockSize 0 ∧
    ((((bare.init.enter [some 4096]).alloc 0 word).1.threads 0).allocMags 0).slots.count
      (4096 + 65 * blockSize 0) = 0 ∧
    ¬ AllKept 0 0 4096 ((bare.init.enter [some 4096]).alloc 0 word) := by
  have hcount : ((((bare.init.enter [some 4096]).alloc 0 word).1.threads 0).allocMags 0).slots.count
      (4096 + 65 * blockSize 0) = 0 := by decide +kernel
  refine ⟨by decide, by decide +kernel, by decide, hcount, fun hkept => ?_⟩
  have hone := hkept.rest 65 (by decide) (by decide)
  rw [hcount] at hone
  exact absurd hone (by decide)

end Aethalloc.Abi
