/-
Magazine caching maps pages only when it has to.

A miss happens when both magazines of the thread and the global stack of full
magazines are empty.  As long as no block was lost to a node that could not be had,
the first block of every mapping made for the class is then live or in a magazine
of another thread.  So the mappings of a class are at most as many as blocks are
live at a time, 128 for every other thread, and one more.
-/
import Aethalloc.Proofs.Abi.Growth
import Aethalloc.Proofs.Abi.Carving
import Aethalloc.Proofs.Abi.Refinement

namespace Aethalloc.Abi

open Lib

variable {full empty : Nat → List Nat} {h h' h'' : Heap} {L : List Allocation} {a : Allocation}
  {t c size align : Nat}

/-- The mappings made for the class. -/
def smallRegions (c : Nat) (h : Heap) : List Region := h.regions.filter (·.purpose = .small c)

/-- The first blocks of these mappings. -/
def firstBlocks (c : Nat) (h : Heap) : Finset Nat := ((smallRegions c h).map Region.base).toFinset

/-- The thread has no block of the class. -/
def IdleIn (c : Nat) (h : Heap) (t : Nat) : Prop :=
  ((h.threads t).allocMags c).slots = [] ∧ ((h.threads t).freeMags c).slots = []

/-- Neither the thread nor the global stack has a block of the class. -/
def NothingCached (h : Heap) (t c : Nat) : Prop :=
  IdleIn c h t ∧ (h.globalMagazines c).fullHead = none

/-! ### Calls that map nothing -/

/-- What a call of thread `t` that maps nothing does to magazines and mappings. -/
structure Local (t : Nat) (h h' : Heap) : Prop where
  threads : ∀ t', t' ≠ t → (h'.threads t').allocMags = (h.threads t').allocMags ∧
    (h'.threads t').freeMags = (h.threads t').freeMags
  regions : h'.regions = h.regions

namespace Local

theorem refl : Local t h h := ⟨fun _ _ => ⟨rfl, rfl⟩, rfl⟩

theorem trans (h₁ : Local t h h') (h₂ : Local t h' h'') : Local t h h'' where
  threads t' ht' := ⟨(h₂.threads t' ht').1.trans (h₁.threads t' ht').1,
    (h₂.threads t' ht').2.trans (h₁.threads t' ht').2⟩
  regions := h₂.regions.trans h₁.regions

theorem updateCache {f : ThreadCache → ThreadCache} : Local t h (h.updateCache t f) where
  threads t' ht' := by
    unfold Heap.updateCache
    simp only [Function.update_of_ne ht', and_self]
  regions := rfl

theorem updateMetrics {f : ThreadMetrics → ThreadMetrics} : Local t h (h.updateMetrics t f) :=
  updateCache

theorem maybeFlush : Local t h (h.maybeFlush t) := by
  have hlocal : Local t h (h.updateMetrics t fun _ =>
      ((h.threads t).metrics.maybeFlush h.globalMetrics).1) := updateMetrics
  exact ⟨hlocal.threads, rfl⟩

theorem countFree : Local t h (h.countFree t) := updateCache.trans maybeFlush

theorem write {a n v : Nat} : Local t h (h.write a n v) := ⟨fun _ _ => ⟨rfl, rfl⟩, rfl⟩

theorem setAllocMag {m : Magazine} : Local t h (h.setAllocMag t c m) := updateCache

theorem setFreeMag {m : Magazine} : Local t h (h.setFreeMag t c m) := updateCache

theorem setPool {pool : GlobalMagazinePool} {nodes : NodeHeap} :
    Local t h (h.setPool c pool nodes) := ⟨fun _ _ => ⟨rfl, rfl⟩, rfl⟩

theorem swapNode {n : Nat} : Local t h (h.swapNode t c n) := by
  unfold Heap.swapNode
  have hset : Local t h (h.setAllocMag t c (h.nodes n).magazine) := setAllocMag
  exact ⟨hset.threads, hset.regions⟩

theorem serve {b : Nat} : Local t h (h.serve t size b).1 :=
  (updateCache.trans maybeFlush).trans write

theorem findGlobal : Local t h (h.findGlobal t c).1 := by
  unfold Heap.findGlobal
  split
  · exact refl
  · simp only
    split
    · exact (setPool.trans swapNode).trans setAllocMag
    · exact setPool.trans swapNode

theorem findSwapped : Local t h (h.findSwapped t c).1 := by
  unfold Heap.findSwapped
  split
  · exact findGlobal
  · simp only
    split
    · exact (setAllocMag.trans setFreeMag).trans setAllocMag
    · exact (setAllocMag.trans setFreeMag).trans findGlobal

theorem findCached : Local t h (h.findCached t c).1 := by
  unfold Heap.findCached
  split
  · exact setAllocMag
  · exact findSwapped

end Local

/-! ### Misses -/

namespace Heap

/-- A node on the stack is found, and the magazine in it has blocks. -/
theorem findGlobal_found {n : Nat} (hinv : Inv full empty h.core L)
    (hempty : (h.core.allocMags t c).slots = [])
    (hhead : (h.globalMagazines c).fullHead = some n) : (h.findGlobal t c).2 ≠ none := by
  intro hnone
  have hsame := findGlobal_none hinv hempty hnone
  have hpool : ((h.findGlobal t c).1.globalMagazines c).fullHead = (h.nodes n).next := by
    unfold findGlobal GlobalMagazinePool.popFull
    rw [hhead]
    simp only
    split <;> simp [swapNode, setPool, setAllocMag, updateCache, GlobalMagazinePool.pushEmpty]
  rw [hsame, hhead] at hpool
  -- the stack is a chain of different nodes, so the node does not point at itself
  have hchain := hinv.pools.fullChain c
  have hlink : link h.core.nodes n = some n := hpool.symm
  have hcore : (h.core.pools c).fullHead = some n := hhead
  rw [hcore] at hchain
  obtain ⟨rest, hfull, hrest⟩ := hchain.exists_cons_of_some
  rw [hlink] at hrest
  obtain ⟨rest', hrest', -⟩ := hrest.exists_cons_of_some
  have hnodup := hinv.pools.exclusive.nodup (true, c)
  have hbins : stackBins full empty (true, c) = n :: n :: rest' := by
    show full c = _
    rw [hfull, hrest']
  rw [hbins] at hnodup
  exact (List.nodup_cons.mp hnodup).1 (List.mem_cons_self ..)

/-- A free magazine with blocks in it is found. -/
theorem findSwapped_found (hinv : Inv full empty h.core L)
    (hfree : (h.core.freeMags t c).slots ≠ []) : (h.findSwapped t c).2 ≠ none := by
  have hcount : ¬ ((h.threads t).freeMags c).isEmpty = true := by
    intro hc
    have hzero : ((h.threads t).freeMags c).count = 0 := by
      unfold Magazine.isEmpty at hc
      exact beq_iff_eq.mp hc
    have hlen := Magazine.slots_length (hinv.blocks.mags t c).2
    rw [← freeMags_eq, hzero] at hlen
    exact hfree (List.length_eq_zero_iff.mp hlen)
  have hmag : (((h.setAllocMag t c ((h.threads t).freeMags c)).setFreeMag t c
      ((h.threads t).allocMags c)).threads t).allocMags c = h.core.freeMags t c := by
    rw [allocMags_eq, core_setFreeMag, core_setAllocMag]
    exact setMag_self
  unfold findSwapped
  rw [if_neg hcount]
  simp only
  rw [hmag]
  rcases Magazine.pop_cases (hinv.blocks.mags t c).2 with ⟨hnil, -⟩ | ⟨b, m, hpop, -, -⟩
  · exact absurd hnil hfree
  · rw [hpop]
    simp

/-- Where nothing cached is found, nothing is cached. -/
theorem findCached_bare (hinv : Inv full empty h.core L)
    (hnone : (h.findCached t c).2 = none) : NothingCached h t c := by
  obtain ⟨-, hslots⟩ := findCached_none hinv hnone
  have hswapped : (h.findSwapped t c).2 = none := by
    unfold findCached at hnone
    rcases Magazine.pop_cases (hinv.blocks.mags t c).1 with ⟨-, hpop⟩ | ⟨b, m, hpop, -, -⟩
    · rw [allocMags_eq, hpop] at hnone
      exact hnone
    · rw [allocMags_eq, hpop] at hnone
      cases hnone
  have hfree : (h.core.freeMags t c).slots = [] := by
    by_contra hne
    exact findSwapped_found hinv hne hswapped
  refine ⟨⟨hslots, hfree⟩, ?_⟩
  cases hhead : (h.globalMagazines c).fullHead with
  | none => rfl
  | some n =>
      refine absurd ?_ (findGlobal_found hinv hslots hhead)
      have hnil : ((h.threads t).freeMags c).isEmpty = true :=
        Magazine.isEmpty_of_nil (hinv.blocks.mags t c).2 hfree
      unfold findSwapped at hswapped
      rw [if_pos hnil] at hswapped
      exact hswapped

end Heap

/-- What a miss of thread `t` does: it fails, or hands out the first block of a new mapping. -/
structure Maps (t c : Nat) (h : Heap) (r : Heap × Option Nat) : Prop where
  threads : ∀ t', t' ≠ t → (r.1.threads t').allocMags = (h.threads t').allocMags ∧
    (r.1.threads t').freeMags = (h.threads t').freeMags
  regions : r.1.regions = h.regions ∨
    ∃ base pages, r.1.regions = { base := base, pages := pages, purpose := .small c } :: h.regions ∧
      r.2 = some (base + CACHE_HEADER_SIZE)

/-- A mapping fails, or is added to the list. -/
theorem mapPages_adds (t : Nat) (h : Heap) (pages : Nat) (purpose : Purpose) :
    (∃ h', h.mapPages pages purpose = (h', none) ∧ Local t h h') ∨
      ∃ h' base, h.mapPages pages purpose = (h', some base) ∧ h'.threads = h.threads ∧
        h'.regions = { base := base, pages := pages, purpose := purpose } :: h.regions := by
  unfold Heap.mapPages
  rcases PageAllocator.alloc h.sys pages with ⟨sys, _ | base⟩
  · exact Or.inl ⟨_, rfl, fun _ _ => ⟨rfl, rfl⟩, rfl⟩
  · exact Or.inr ⟨_, base, rfl, rfl, rfl⟩

namespace Maps

theorem failed (hl : Local t h h') : Maps t c h (h', none) := ⟨hl.threads, Or.inl hl.regions⟩

/-- The new mapping is made between two pieces that map nothing. -/
theorem fresh {h₁ h₂ h₃ : Heap} {base pages : Nat} (hl : Local t h h₁)
    (hthreads : h₂.threads = h₁.threads)
    (hregions : h₂.regions = { base := base, pages := pages, purpose := .small c } :: h₁.regions)
    (hend : Local t h₂ h₃) : Maps t c h (h₃, some (base + CACHE_HEADER_SIZE)) where
  threads t' ht' := by
    show (h₃.threads t').allocMags = _ ∧ (h₃.threads t').freeMags = _
    rw [(hend.threads t' ht').1, (hend.threads t' ht').2, hthreads]
    exact hl.threads t' ht'
  regions := by
    refine Or.inr ⟨base, pages, ?_, rfl⟩
    show h₃.regions = _
    rw [hend.regions, hregions, hl.regions]

theorem allocSingle {h₁ : Heap} {bs : Nat} (hl : Local t h h₁) :
    Maps t c h (h₁.allocSingle t size bs c) := by
  unfold Heap.allocSingle
  simp only
  rcases mapPages_adds t h₁ (max ((bs + PAGE_SIZE - 1) / PAGE_SIZE) 1) (.small c) with
    ⟨h₂, heq, hmap⟩ | ⟨h₂, base, heq, hthreads, hregions⟩
  · rw [heq]
    exact failed (hl.trans hmap)
  · rw [heq]
    exact fresh hl hthreads hregions (Local.write.trans Local.maybeFlush)

theorem allocMiss {cacheSize : Nat} : Maps t c h (h.allocMiss t size cacheSize c) := by
  unfold Heap.allocMiss
  simp only
  have hmiss : Local t h (h.updateMetrics t ThreadMetrics.countMiss) := Local.updateCache
  split
  · rcases mapPages_adds t (h.updateMetrics t ThreadMetrics.countMiss) 1 (.small c) with
      ⟨h₂, heq, hmap⟩ | ⟨h₂, base, heq, hthreads, hregions⟩
    · rw [heq]
      exact allocSingle (hmiss.trans hmap)
    · rw [heq]
      refine fresh hmiss hthreads hregions ?_
      split
      · exact (Local.setAllocMag.trans Local.write).trans Local.maybeFlush
      · exact Local.write.trans Local.maybeFlush
  · exact allocSingle hmiss

end Maps

/-! ### Calls that map nothing for small blocks -/

/-- What a call of thread `t` that makes no mapping for small blocks does. -/
structure Quiet (t : Nat) (h h' : Heap) : Prop where
  threads : ∀ t', t' ≠ t → (h'.threads t').allocMags = (h.threads t').allocMags ∧
    (h'.threads t').freeMags = (h.threads t').freeMags
  smalls : ∀ c, smallRegions c h' = smallRegions c h

theorem Local.quiet (hl : Local t h h') : Quiet t h h' where
  threads := hl.threads
  smalls c := by
    unfold smallRegions
    rw [hl.regions]

namespace Quiet

theorem trans (h₁ : Quiet t h h') (h₂ : Quiet t h' h'') : Quiet t h h'' where
  threads t' ht' := ⟨(h₂.threads t' ht').1.trans (h₁.threads t' ht').1,
    (h₂.threads t' ht').2.trans (h₁.threads t' ht').2⟩
  smalls c := (h₂.smalls c).trans (h₁.smalls c)

/-- A mapping for something else. -/
theorem mapPages (pages : Nat) {purpose : Purpose} (hother : ∀ c, purpose ≠ .small c) :
    Quiet t h (h.mapPages pages purpose).1 := by
  rcases mapPages_adds t h pages purpose with ⟨h₂, heq, hmap⟩ | ⟨h₂, base, heq, hthreads, hregions⟩
  · rw [heq]
    exact hmap.quiet
  · rw [heq]
    refine ⟨fun t' _ => ?_, fun c => ?_⟩
    · show (h₂.threads t').allocMags = _ ∧ (h₂.threads t').freeMags = _
      rw [hthreads]
      exact ⟨rfl, rfl⟩
    · show h₂.regions.filter _ = _
      rw [hregions, List.filter_cons_of_neg (by simpa using hother c)]
      rfl

theorem allocLarge : Quiet t h (h.allocLarge t size align).1 := by
  unfold Heap.allocLarge
  simp only
  have hcount : Local t h ((h.updateMetrics t ThreadMetrics.countDirect).maybeFlush t) :=
    Local.updateCache.trans Local.maybeFlush
  have hlarge : ∀ c, Purpose.large ≠ .small c := by simp
  have hmap := hcount.quiet.trans (Quiet.mapPages (t := t) (max ((PAGE_HEADER_SIZE +
    LARGE_HEADER_SIZE + size + align + PAGE_SIZE - 1) / PAGE_SIZE) 1) hlarge)
  split
  · rename_i heq
    rw [heq] at hmap
    exact hmap
  · rename_i heq
    rw [heq] at hmap
    exact hmap.trans ((((Local.write.trans Local.write).trans Local.write).trans
      Local.write).trans Local.write).quiet

theorem allocNode : Quiet t h h.allocNode.1 := by
  unfold Heap.allocNode
  simp only
  split
  · exact ⟨fun _ _ => ⟨rfl, rfl⟩, fun _ => rfl⟩
  · have hmap : Quiet t h (h.mapPages 1 .metadata).1 := mapPages 1 (by simp)
    split
    · rename_i heq
      rw [heq] at hmap
      exact hmap
    · rename_i heq
      rw [heq] at hmap
      exact ⟨hmap.threads, hmap.smalls⟩

theorem publish : Quiet t h (h.publish t c) := by
  unfold Heap.publish
  have hnode : Quiet t h h.allocNode.1 := allocNode
  split
  · rename_i heq
    rw [heq] at hnode
    exact ⟨hnode.threads, hnode.smalls⟩
  · rename_i h₁ node heq
    rw [heq] at hnode
    have hset : Quiet t h (h₁.setFreeMag t c Magazine.new) := hnode.trans Local.setFreeMag.quiet
    exact ⟨hset.threads, hset.smalls⟩

theorem deallocSmall {b : Nat} : Quiet t h (h.deallocSmall t c b) := by
  unfold Heap.deallocSmall
  split
  · exact (Local.setFreeMag.trans Local.countFree).quiet
  · exact publish.trans (Local.setFreeMag.trans Local.countFree).quiet

/-- Freeing what is live unmaps no mapping for small blocks. -/
theorem dealloc (hinv : Inv full empty h.core L) (ha : a ∈ L) :
    Quiet t h (h.dealloc t (some a.ptr)) := by
  by_cases hs : a.Small
  · obtain ⟨c, -, hclass, -⟩ := hinv.ground.small_block ha hs
    rw [Heap.dealloc_small hinv ha hs hclass]
    exact deallocSmall
  · obtain ⟨r, hr, -⟩ := hinv.ground.large_region ha hs
    rw [Heap.dealloc_large hr]
    refine Quiet.trans ?_ Local.countFree.quiet
    unfold Heap.unmapHeader
    split
    · refine ⟨fun _ _ => ⟨rfl, rfl⟩, fun c => ?_⟩
      show (h.regions.filter (·.base ≠ r.base)).filter _ = h.regions.filter _
      rw [List.filter_filter]
      refine List.filter_congr fun r' hr' => ?_
      -- the region that goes is the large one
      rw [Bool.and_eq_left_iff_imp]
      intro hsmall
      rw [decide_eq_true_eq] at hsmall ⊢
      intro hbase
      have hhas := hinv.regions.has_base hr'
      rw [hbase] at hhas
      have hrr : r' = r := hinv.regions.unique hr' hr.region hhas
        (hinv.regions.has_base hr.region)
      rw [hrr, hr.purpose] at hsmall
      cases hsmall
    · exact Local.refl.quiet

end Quiet

/-- What an allocation of thread `t` does: it maps nothing for small blocks, or hands out the first
block of a new mapping when nothing is cached. -/
theorem alloc_maps (hinv : Inv full empty h.core L) (layout : Layout) :
    Quiet t h (h.alloc t layout).1 ∨
      ∃ c, SmallRequest layout.size layout.align c ∧ NothingCached h t c ∧
        Maps t c h (h.alloc t layout) := by
  unfold Heap.alloc
  simp only
  split
  · exact Or.inl Local.refl.quiet
  · rename_i hsize
    have hpos : 0 < layout.size := Nat.pos_of_ne_zero hsize
    split
    · rename_i hsmall
      obtain ⟨c, hc, hclass, hround, -⟩ := classOf_spec hpos hsmall.1
      have hcls : sizeToClass (max (roundUpPow2 layout.size) 16) = some c := hclass
      rw [hcls, hround]
      simp only
      rw [Heap.allocSmall_eq]
      rcases hfind : h.findCached t c with ⟨h₁, _ | b⟩
      · have hnone : (h.findCached t c).2 = none := by rw [hfind]
        obtain rfl : h₁ = h := by
          have := (Heap.findCached_none hinv hnone).1
          rw [hfind] at this
          exact (Prod.mk.inj this).1
        exact Or.inr ⟨c, ⟨hpos, hsmall, hclass, hc⟩, Heap.findCached_bare hinv hnone, .allocMiss⟩
      · have hlocal : Local t h (h.findCached t c).1 := Local.findCached
        rw [hfind] at hlocal
        exact Or.inl (hlocal.trans Local.serve).quiet
    · exact Or.inl Quiet.allocLarge

/-! ### First blocks are kept -/

theorem Quiet.firstBlocks (hq : Quiet t h h') : firstBlocks c h' = firstBlocks c h := by
  unfold Abi.firstBlocks
  rw [hq.smalls]

/-- The first block of the new mapping is the one handed out. -/
theorem Maps.firstBlocks {c' : Nat} {r : Heap × Option Nat} (hm : Maps t c' h r) :
    firstBlocks c r.1 = firstBlocks c h ∨
      c = c' ∧ ∃ base, r.2 = some (base + CACHE_HEADER_SIZE) ∧
        firstBlocks c r.1 = insert base (firstBlocks c h) := by
  unfold Abi.firstBlocks smallRegions
  rcases hm.regions with hsame | ⟨base, pages, hregions, hptr⟩
  · rw [hsame]
    exact Or.inl rfl
  · rw [hregions]
    by_cases hc : c = c'
    · subst hc
      refine Or.inr ⟨rfl, base, hptr, ?_⟩
      rw [List.filter_cons_of_pos (by simp), List.map_cons, List.toFinset_cons]
    · rw [List.filter_cons_of_neg (by simpa using fun heq => hc heq.symm)]
      exact Or.inl rfl

/-- The invariant of the mode; and while no block was lost, the first block of every mapping made
for the class is somewhere in it. -/
def Heap.Kept (c : Nat) (h : Heap) (L : List Allocation) : Prop :=
  ∃ full empty, Inv full empty h.core L ∧
    (h.nodeFailures = 0 → ∀ b ∈ firstBlocks c h, Stored h.core L b c)

theorem alloc_kept (hkept : h.Kept c L) (layout : Layout) :
    (h.alloc t layout).1.Kept c (grow L (h.alloc t layout).2 layout.size layout.align) := by
  obtain ⟨full, empty, hinv, hstored⟩ := hkept
  have hfollows := (Heap.alloc_returns (t := t) hinv layout).follows
  obtain ⟨full', empty', hinv'⟩ := hfollows.inv
  refine ⟨full', empty', hinv', fun hzero b hb => ?_⟩
  have hle : h.nodeFailures ≤ (h.alloc t layout).1.nodeFailures := hfollows.failures
  have hold : b ∈ firstBlocks c h → Stored (h.alloc t layout).1.core
      (grow L (h.alloc t layout).2 layout.size layout.align) b c := by
    intro hb
    refine hfollows.stored ?_ b c (hstored (by omega) b hb)
    show (h.alloc t layout).1.nodeFailures = h.nodeFailures
    omega
  rcases alloc_maps (t := t) hinv layout with hq | ⟨c', hreq, -, hm⟩
  · rw [hq.firstBlocks] at hb
    exact hold hb
  · rcases hm.firstBlocks (c := c) with hsame | ⟨rfl, base, hptr, hmore⟩
    · rw [hsame] at hb
      exact hold hb
    · rw [hmore, Finset.mem_insert] at hb
      rcases hb with rfl | hb
      · -- the client holds it
        refine ⟨.live c, rfl, trivial, ?_⟩
        rw [hptr]
        refine mem_liveBlocks.mpr ⟨_, List.mem_cons_self .., hreq.small, hreq.cls, ?_⟩
        exact Nat.add_sub_cancel _ _
      · exact hold hb

theorem dealloc_kept (hkept : h.Kept c L) (ha : a ∈ L) :
    (h.dealloc t (some a.ptr)).Kept c (drop L (some a.ptr)) := by
  obtain ⟨full, empty, hinv, hstored⟩ := hkept
  have hfollows := Heap.dealloc_follows (t := t) hinv ha
  obtain ⟨full', empty', hinv'⟩ := hfollows.inv
  refine ⟨full', empty', hinv', fun hzero b hb => ?_⟩
  have hle : h.nodeFailures ≤ (h.dealloc t (some a.ptr)).nodeFailures := hfollows.failures
  have hq : Quiet t h (h.dealloc t (some a.ptr)) := Quiet.dealloc hinv ha
  rw [hq.firstBlocks] at hb
  refine hfollows.stored ?_ b c (hstored (by omega) b hb)
  show (h.dealloc t (some a.ptr)).nodeFailures = h.nodeFailures
  omega

theorem Heap.Kept.good (hkept : h.Kept c L) : h.Good L := by
  obtain ⟨full, empty, hinv, -⟩ := hkept
  exact ⟨full, empty, hinv⟩

/-- The mode is sound with the stronger invariant too. -/
theorem magazineMode_sound_kept (c : Nat) : Sound magazineMode (Heap.Kept c) where
  sys_setSys _ _ := rfl
  sys_ensureInit _ := rfl
  ensureInit hkept := hkept
  tidy hkept := magazineMode_sound.tidy hkept.good
  own hkept := magazineMode_sound.own hkept.good
  alloc := by
    intro h L t layout hkept
    have hg := magazineMode_sound.alloc t layout hkept.good
    exact ⟨alloc_kept hkept layout, hg.spares, hg.aligned⟩
  deallocNull _ _ := rfl
  dealloc := by
    intro h L a t hkept ha
    have hd := magazineMode_sound.dealloc t hkept.good ha
    rw [magazineMode_dealloc] at hd ⊢
    exact ⟨dealloc_kept hkept ha, hd.2⟩
  getAllocSize hkept ha := magazineMode_sound.getAllocSize hkept.good ha
  setMem := by
    rintro h L mem ⟨full, empty, hinv, hstored⟩ hmem
    exact ⟨full, empty, hinv.setMem mem (hinv.ground.header_kept hmem), hstored⟩
  setAnswers _ hkept := hkept
  setForeign := by
    rintro h L page mapped ⟨full, empty, hinv, hstored⟩ hunmapped
    exact ⟨full, empty, hinv.setForeign mapped hunmapped, hstored⟩

/-! ### The bound -/

/-- With nothing cached for the thread, the rest of the class is elsewhere. -/
theorem NothingCached.usedUp (hnone : NothingCached h t c) (hkept : h.Kept c L)
    (hzero : h.nodeFailures = 0) :
    UsedUp c (2 * MAGAZINE_CAPACITY) (firstBlocks c) (IdleIn c) t h L := by
  obtain ⟨full, empty, hinv, hstored⟩ := hkept
  obtain ⟨⟨halloc, hfree⟩, hhead⟩ := hnone
  refine ⟨fun t' => (h.core.allocMags t' c).slots ++ (h.core.freeMags t' c).slots, fun t' => ?_,
    fun t' hidle => ?_, fun b hb => ?_⟩
  · obtain ⟨hok, hok'⟩ := hinv.blocks.mags t' c
    have hcount : (h.core.allocMags t' c).count ≤ MAGAZINE_CAPACITY := hok
    have hcount' : (h.core.freeMags t' c).count ≤ MAGAZINE_CAPACITY := hok'
    rw [List.length_append, Magazine.slots_length hok, Magazine.slots_length hok']
    omega
  · show ((h.threads t').allocMags c).slots ++ ((h.threads t').freeMags c).slots = []
    rw [hidle.1, hidle.2, List.append_nil]
  · obtain ⟨p, hp, huse, hmem⟩ := hstored hzero b hb
    cases p with
    | live c' =>
        obtain rfl : c' = c := hp
        exact Or.inl hmem
    | allocMag t' c' =>
        obtain rfl : c' = c := hp
        refine Or.inr ⟨t', fun heq => ?_, List.mem_append_left _ hmem⟩
        subst heq
        have hslots : stock h.core L (.allocMag t' c') = [] := halloc
        rw [hslots] at hmem
        exact absurd hmem List.not_mem_nil
    | freeMag t' c' =>
        obtain rfl : c' = c := hp
        refine Or.inr ⟨t', fun heq => ?_, List.mem_append_right _ hmem⟩
        subst heq
        have hslots : stock h.core L (.freeMag t' c') = [] := hfree
        rw [hslots] at hmem
        exact absurd hmem List.not_mem_nil
    | node c' n =>
        obtain rfl : c' = c := hp
        have hon := (hinv.pools.fullChain c').onChain_iff.mp huse
        have hchain := hinv.pools.fullChain c'
        have hnil : (h.core.pools c').fullHead = none := hhead
        rw [hnil] at hchain
        rw [hchain.eq_nil_of_none] at hon
        exact absurd hon List.not_mem_nil

/-- What is asked of a call of the magazine mode. -/
abbrev GrowsIn (c t : Nat) (L : List Allocation) (h h' : Heap) : Prop :=
  Grows c (2 * MAGAZINE_CAPACITY) 1 (fun h => h.nodeFailures = 0) (firstBlocks c) (IdleIn c) t L
    h h'

theorem idleIn_of_threads (hthreads : ∀ t', t' ≠ t →
      (h'.threads t').allocMags = (h.threads t').allocMags ∧
      (h'.threads t').freeMags = (h.threads t').freeMags) (t' : Nat) (ht' : t' ≠ t)
    (hidle : IdleIn c h t') : IdleIn c h' t' := by
  unfold IdleIn at hidle ⊢
  rw [(hthreads t' ht').1, (hthreads t' ht').2]
  exact hidle

theorem alloc_grows (hkept : h.Kept c L) (layout : Layout) :
    GrowsIn c t L h (h.alloc t layout).1 := by
  obtain ⟨full, empty, hinv, -⟩ := id hkept
  rcases alloc_maps (t := t) hinv layout with hq | ⟨c', -, hnone, hm⟩
  · exact ⟨idleIn_of_threads hq.threads, Or.inl hq.firstBlocks⟩
  · refine ⟨idleIn_of_threads hm.threads, ?_⟩
    rcases hm.firstBlocks (c := c) with hsame | ⟨rfl, base, -, hmore⟩
    · exact Or.inl hsame
    · refine Or.inr ⟨?_, fun hzero => hnone.usedUp hkept hzero⟩
      rw [hmore]
      exact Finset.card_insert_le _ _

theorem magazineMode_frugal (c : Nat) : Frugal magazineMode (Heap.Kept c) c (2 * MAGAZINE_CAPACITY)
    1 (fun h => h.nodeFailures = 0) (firstBlocks c) (IdleIn c) where
  alloc := by
    intro h L t layout hkept
    exact alloc_grows hkept layout
  dealloc := by
    rintro h L a t ⟨full, empty, hinv, -⟩ ha
    rw [magazineMode_dealloc]
    have hq : Quiet t h (h.dealloc t (some a.ptr)) := Quiet.dealloc hinv ha
    exact ⟨hq.firstBlocks, idleIn_of_threads hq.threads⟩
  setSys _ _ := ⟨rfl, rfl, id⟩
  ensureInit _ := ⟨rfl, rfl, id⟩

/-! ### Whole runs -/

variable {mem : Mem} {foreign : Nat → Bool} {w : World} {n B : Nat}

/-- A step by one of the threads `0` to `n`, with no block lost so far and at most `B` blocks of the
class live. -/
def Moderate (c n B : Nat) (w : World) (l : Label) : Prop :=
  l.By n ∧ w.heap.nodeFailures = 0 ∧ (liveBlocks w.live c).length ≤ B

/-- A run of the mode is one of the interface over it. -/
theorem reachesUnder_generic (hw : (machine mem foreign).ReachesUnder (Moderate c n B) w) :
    (Interface.machine magazineMode (Heap.start mem foreign)).ReachesUnder
      (Interface.Moderate c n B fun h => h.nodeFailures = 0) w.generic := by
  induction hw with
  | init => exact .init
  | @step w w' l _ hg hstep ih =>
      refine .step (l := l) ih hg ?_
      show Interface.step magazineMode w.generic l = some w'.generic
      rw [step_generic]
      exact congrArg (Option.map World.generic) hstep

/-- Mappings in use start at different addresses. -/
theorem firstBlocks_card (hinv : Inv full empty h.core L) :
    (firstBlocks c h).card = (smallRegions c h).length := by
  have hapart : (smallRegions c h).Pairwise Region.Apart :=
    hinv.regions.apart.sublist List.filter_sublist
  have hnodup : ((smallRegions c h).map Region.base).Nodup := by
    refine List.pairwise_map.mpr (hapart.imp_of_mem fun {r r'} hr hr' happart hbase => ?_)
    obtain ⟨-, hhas⟩ := hinv.regions.has_base (List.mem_of_mem_filter hr)
    obtain ⟨-, hhas'⟩ := hinv.regions.has_base (List.mem_of_mem_filter hr')
    unfold Region.Apart at happart
    omega
  unfold firstBlocks
  rw [List.toFinset_card_of_nodup hnodup, List.length_map]

/--
**Magazine caching does not hoard.**  In every run of the C interface by the threads
`0` to `n`, whatever they call, whatever the kernel answers and whatever the client
writes: as long as every node needed could be had, if never more than `B` blocks of
a class are live, at most `B + 128 * n + 1` mappings are ever made for it.
-/
theorem magazine_bounded (hw : (machine mem foreign).ReachesUnder (Moderate c n B) w) :
    (smallRegions c w.heap).length ≤ B + 128 * n + 1 := by
  have hstart : (Heap.start mem foreign).Kept c [] :=
    ⟨_, _, Inv.start, fun _ b hb => absurd hb (Finset.notMem_empty b)⟩
  obtain ⟨⟨full, empty, hinv, -⟩, hcard⟩ := Interface.made_bounded (magazineMode_sound_kept c)
    (magazineMode_frugal c) hstart rfl (fun _ => ⟨rfl, rfl⟩) (reachesUnder_generic hw)
  have hlen : (firstBlocks c w.heap).card = (smallRegions c w.heap).length := firstBlocks_card hinv
  rw [← hlen]
  exact hcard

/-- The test for `Moderate`. -/
def moderate (c n B : Nat) (w : World) (l : Label) : Bool :=
  Interface.moderate c n B (fun h => h.nodeFailures == 0) w.generic l

theorem Moderate.of_test {l : Label} (htest : moderate c n B w l = true) : Moderate c n B w l := by
  have hall : Interface.Moderate c n B (fun h : Heap => h.nodeFailures = 0) w.generic l :=
    Interface.Moderate.of_test (fun _ hzero => beq_iff_eq.mp hzero) htest
  exact hall

/-- Two threads hand two blocks to each other; one page is enough. -/
theorem magazine_bounded_pair : ∃ w, bare.ReachesUnder (Moderate 2 1 2) w ∧
    (smallRegions 2 w.heap).length = 1 ∧ (smallRegions 2 w.heap).length ≤ 2 + 128 * 1 + 1 := by
  have hrun : (bare.exec bare.init [.malloc 0 64 [some 4096], .malloc 0 64 [],
      .free 1 (some 4112) [], .calloc 1 4 16 [], .free 0 (some 4112) []]).map
        (fun w => (smallRegions 2 w.heap).length) = some 1 := by decide +kernel
  have hsteps : (bare.trace (moderate 2 1 2) bare.init [.malloc 0 64 [some 4096], .malloc 0 64 [],
      .free 1 (some 4112) [], .calloc 1 4 16 [], .free 0 (some 4112) []]).all id = true := by
    decide +kernel
  obtain ⟨w, hw, hcount⟩ := Option.map_eq_some_iff.mp hrun
  have hreach := Machine.exec_reachesUnder (fun w l htest => Moderate.of_test htest) _ _ _ .init hw
    hsteps
  exact ⟨w, hreach, hcount, magazine_bounded hreach⟩

end Aethalloc.Abi
