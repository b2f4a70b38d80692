/-
`alloc` returns memory nobody has.

Each stage of the small path either serves a block or hands over to the next one:
the alloc magazine, the free magazine in its place, a full magazine of the global
stack, fresh pages.  A large request gets fresh pages at once.  Every stage is
followed from the heap it finds to the heap it leaves, with the pointer it returns
added to what is live.
-/
import Aethalloc.Proofs.Abi.Follows

namespace Aethalloc.Abi

open Lib

variable {full empty : Nat → List Nat} {k : Core} {h : Heap} {L : List Allocation}
  {t c b base pages size align : Nat} {m : Magazine}

/-- The call keeps what is live, and what it returns is live after it; it carves no nodes and gives
up no region. -/
structure Returns (h : Heap) (L : List Allocation) (size align : Nat) (r : Heap × Option Nat) :
    Prop where
  follows : Follows (Within L) h.core L r.1.core (grow L r.2 size align)
  carved : r.1.core.carved = h.core.carved
  regions : h.core.regions ⊆ r.1.core.regions
  /-- A call that returns nothing did nothing. -/
  failed : r.2 = none → r.1.core = h.core

/-- Nothing was returned and nothing changed. -/
theorem Returns.nothing {h' : Heap} (hinv : Inv full empty h.core L) (hcore : h'.core = h.core) :
    Returns h L size align (h', none) where
  follows := by
    show Follows (Within L) h.core L h'.core L
    rw [hcore]
    exact Follows.refl hinv
  carved := by
    show h'.core.carved = _
    rw [hcore]
  regions := by
    show h.core.regions ⊆ h'.core.regions
    rw [hcore]
    exact List.Subset.refl _
  failed _ := hcore

/-- A move before a call that then returns something. -/
theorem Returns.after {h' : Heap} {r : Heap × Option Nat}
    (hstep : Follows (Within L) h.core L h'.core L) (hcarved : h'.core.carved = h.core.carved)
    (hregions : h'.core.regions = h.core.regions) (hr : Returns h' L size align r)
    (hsome : r.2 ≠ none) : Returns h L size align r where
  follows := hstep.trans hr.follows
  carved := hr.carved.trans hcarved
  regions := by
    rw [← hregions]
    exact hr.regions
  failed hnone := absurd hnone hsome

theorem Returns.of_core {h' : Heap} {r : Heap × Option Nat} (hcore : h'.core = h.core)
    (hr : Returns h' L size align r) : Returns h L size align r where
  follows := by
    rw [← hcore]
    exact hr.follows
  carved := by
    rw [← hcore]
    exact hr.carved
  regions := by
    rw [← hcore]
    exact hr.regions
  failed hnone := by
    rw [← hcore]
    exact hr.failed hnone

/-! ### Fresh pages -/

/-- No block is in fresh pages. -/
theorem Inv.fresh_nowhere (hinv : Inv full empty k L) (hfree : k.Free base pages) (hpos : pages ≠ 0)
    (hin : base ≤ b ∧ b < base + pages * PAGE_SIZE) (p : Place) : b ∉ contents full k L p := by
  intro hb
  have hsize := blockSize_pos p.cls
  have hgrid : Carved k.arena.regions b p.cls := hinv.blocks.carved p b hb
  exact hgrid.not_fresh hinv.ground.regions hfree hpos ⟨Nat.le_refl b, by omega⟩ hin

/-- Pages are mapped for one block. -/
theorem Follows.freshBlock (hinv : Inv full empty k L) (hreq : SmallRequest size align c)
    (hfree : k.Free base pages) (hpos : pages ≠ 0) (hle : blockSize c ≤ pages * PAGE_SIZE) :
    Follows (Within L) k L { k.map base pages (.small c) with
        mem := (k.map base pages (.small c)).mem.write base 8 size }
      ({ ptr := base + CACHE_HEADER_SIZE, size := size, align := align } :: L) := by
  have hsmall := hreq.purpose hle
  have hcarved : Carved (k.map base pages (.small c)).regions base c :=
    carved_map_first (A := k.arena) hle
  have hsize := blockSize_pos c
  have hnew : ∀ p, base ∉ contents full (k.map base pages (.small c)) L p :=
    hinv.fresh_nowhere hfree hpos ⟨Nat.le_refl _, by omega⟩
  exact (Follows.map hinv _ hfree hpos hsmall).trans
    (Follows.gainSmall (hinv.map _ hfree hpos hsmall).1 hcarved hnew hreq.pos hreq.small hreq.cls)

/-- The blocks of a page after the first, as far as they go into the magazine. -/
def restOfPage (base bs n : Nat) : List Nat := (List.range n).map fun i => base + bs + i * bs

theorem mem_restOfPage {bs n : Nat} :
    b ∈ restOfPage base bs n ↔ ∃ i < n, b = base + (i + 1) * bs := by
  unfold restOfPage
  rw [List.mem_map]
  constructor
  · rintro ⟨i, hi, rfl⟩
    refine ⟨i, List.mem_range.mp hi, ?_⟩
    rw [Nat.succ_mul]
    omega
  · rintro ⟨i, hi, rfl⟩
    refine ⟨i, List.mem_range.mpr hi, ?_⟩
    rw [Nat.succ_mul]
    omega

theorem restOfPage_nodup {bs n : Nat} (hbs : 0 < bs) : (restOfPage base bs n).Nodup := by
  refine List.Nodup.map (fun i j hij => ?_) List.nodup_range
  have hmul : i * bs = j * bs := by omega
  exact Nat.eq_of_mul_eq_mul_right hbs hmul

/-- A page is mapped, its first block becomes live and the others go into the alloc magazine. -/
theorem Follows.freshPage (hinv : Inv full empty k L) (hreq : SmallRequest size align c)
    (hfree : k.Free base 1) {n : Nat} (hn : (n + 1) * blockSize c ≤ PAGE_SIZE) (hok : m.OK)
    (hslots : m.slots = (k.allocMags t c).slots ++ restOfPage base (blockSize c) n) :
    Follows (Within L) k L { k.map base 1 (.small c) with
        allocMags := setMag k.allocMags t c m
        mem := (k.map base 1 (.small c)).mem.write base 8 size }
      ({ ptr := base + CACHE_HEADER_SIZE, size := size, align := align } :: L) := by
  have hsize := blockSize_pos c
  have hpage : blockSize c ≤ 1 * PAGE_SIZE := by
    rw [Nat.succ_mul] at hn
    omega
  have hsmall := hreq.purpose hpage
  have hmap := (hinv.map _ hfree (by decide) hsmall).1
  have hgrid : ∀ i ≤ n, (i + 1) * blockSize c ≤ 1 * PAGE_SIZE := by
    intro i hi
    rw [Nat.one_mul]
    exact Nat.le_trans (Nat.mul_le_mul_right _ (by omega)) hn
  -- every block of the page is carved, and nowhere before
  have hcarved : ∀ i ≤ n, Carved (k.map base 1 (.small c)).regions (base + i * blockSize c) c :=
    fun i hi => carved_map (A := k.arena) (hgrid i hi)
  have hnew : ∀ i ≤ n, ∀ p,
      base + i * blockSize c ∉ contents full (k.map base 1 (.small c)) L p := by
    intro i hi
    have := hgrid i hi
    rw [Nat.succ_mul] at this
    exact hinv.fresh_nowhere hfree (by decide) ⟨Nat.le_add_right _ _, by omega⟩
  have hrest : ∀ p, ∀ b ∈ restOfPage base (blockSize c) n,
      b ∉ contents full (k.map base 1 (.small c)) L p := by
    intro p b hb
    obtain ⟨i, hi, rfl⟩ := mem_restOfPage.mp hb
    exact hnew (i + 1) hi p
  have hrestCarved : ∀ b ∈ restOfPage base (blockSize c) n,
      Carved (k.map base 1 (.small c)).regions b c := by
    intro b hb
    obtain ⟨i, hi, rfl⟩ := mem_restOfPage.mp hb
    exact hcarved (i + 1) hi
  have hnd : (restOfPage base (blockSize c) n).Nodup := restOfPage_nodup (by omega)
  have hput := hmap.putAlloc hok hslots hnd hrest hrestCarved
  have hfirst : Carved (k.map base 1 (.small c)).regions base c := by
    have := hcarved 0 (Nat.zero_le n)
    rw [Nat.zero_mul, Nat.add_zero] at this
    exact this
  have hbase : ∀ p, base ∉ contents full (k.map base 1 (.small c)) L p := by
    have := hnew 0 (Nat.zero_le n)
    rw [Nat.zero_mul, Nat.add_zero] at this
    exact this
  have hfirstNew : ∀ p, base ∉ contents full { k.map base 1 (.small c) with
      allocMags := setMag (k.map base 1 (.small c)).allocMags t c m } L p := by
    intro p
    rw [contents_setAlloc]
    by_cases hp : p = .allocMag t c
    · subst hp
      rw [Function.update_self, hslots, List.mem_append]
      rintro (hb | hb)
      · exact hbase (.allocMag t c) hb
      · obtain ⟨i, -, hi⟩ := mem_restOfPage.mp hb
        rw [Nat.succ_mul] at hi
        omega
    · rw [Function.update_of_ne hp]
      exact hbase p
  exact ((Follows.map hinv _ hfree (by decide) hsmall).trans
    (Follows.putAlloc hmap hok hslots hnd hrest hrestCarved)).trans
    (Follows.gainSmall hput hfirst hfirstNew hreq.pos hreq.small hreq.cls)

/-! ### The stages of the small path -/

namespace Heap

/-- A block that comes out of the alloc magazine is served. -/
theorem serve_returns (hinv : Inv full empty h.core L) (hreq : SmallRequest size align c)
    (hpop : ((h.threads t).allocMags c).pop = (some b, m)) :
    Returns h L size align ((h.setAllocMag t c m).serve t size b) := by
  obtain ⟨h', heq, hcore⟩ := serve_eq (h.setAllocMag t c m) t size b
  rw [core_setAllocMag] at hcore
  rw [heq]
  refine ⟨?_, ?_, ?_, by simp⟩
  · show Follows (Within L) h.core L h'.core (grow L (some (b + 16)) size align)
    rw [hcore]
    exact Follows.serve hinv hpop hreq.pos hreq.small hreq.cls
  · show h'.core.carved = _
    rw [hcore]
  · show h.core.regions ⊆ h'.core.regions
    rw [hcore]
    exact List.Subset.refl _

theorem allocSingle_eq {bs : Nat} (hpages : max ((bs + PAGE_SIZE - 1) / PAGE_SIZE) 1 = pages) :
    h.allocSingle t size bs c =
      match h.mapPages pages (.small c) with
      | (h, none) => (h, none)
      | (h, some base) =>
          ((h.write base 8 size).maybeFlush t, some (base + CACHE_HEADER_SIZE)) := by
  subst hpages
  rfl

/-- Pages for one block, if they can be had. -/
theorem allocSingle_returns (hinv : Inv full empty h.core L) (hreq : SmallRequest size align c) :
    Returns h L size align (h.allocSingle t size (blockSize c) c) := by
  have hmax := blockSize_le hreq.lt
  obtain ⟨pages, hpages⟩ : ∃ pages, max ((blockSize c + PAGE_SIZE - 1) / PAGE_SIZE) 1 = pages :=
    ⟨_, rfl⟩
  obtain ⟨hne, hle, hlt⟩ := pages_bounds (by omega) hpages
  rw [allocSingle_eq hpages]
  rcases h.mapPages_cases pages (.small c) hne hlt with
    ⟨h', heq, hcore⟩ | ⟨h', base, heq, hfree, hcore⟩
  · rw [heq]
    exact Returns.nothing hinv hcore
  · rw [heq]
    refine ⟨?_, ?_, ?_, by simp⟩ <;> simp only [core_maybeFlush, core_write, hcore]
    · exact Follows.freshBlock hinv hreq hfree hne hle
    · rfl
    · exact List.subset_cons_self _ _

theorem allocMiss_returns (hinv : Inv full empty h.core L) (hreq : SmallRequest size align c) :
    Returns h L size align (h.allocMiss t size (classSize c) c) := by
  unfold allocMiss
  generalize hh₀ : (h.updateMetrics t ThreadMetrics.countMiss) = h₀
  have hcore₀ : h₀.core = h.core := by
    rw [← hh₀]
    exact core_updateMetrics
  have hinv₀ : Inv full empty h₀.core L := by
    rw [hcore₀]
    exact hinv
  have hsingle : ∀ h₁ : Heap, h₁.core = h.core →
      Returns h L size align (h₁.allocSingle t size (blockSize c) c) := by
    intro h₁ hcore₁
    have hinv₁ : Inv full empty h₁.core L := by
      rw [hcore₁]
      exact hinv
    exact Returns.of_core hcore₁ (allocSingle_returns hinv₁ hreq)
  have hbs : classSize c + CACHE_HEADER_SIZE = blockSize c := rfl
  simp only [hbs]
  split
  · rename_i hmany
    rcases h₀.mapPages_cases 1 (.small c) (by decide) (by decide) with
      ⟨h', heq, hcore⟩ | ⟨h', base, heq, hfree, hcore⟩
    · rw [heq]
      exact hsingle h' (hcore.trans hcore₀)
    · rw [heq]
      simp only
      rw [if_pos (by omega)]
      have hmag : (h'.threads t).allocMags c = h.core.allocMags t c := by
        rw [allocMags_eq, hcore, hcore₀]
        rfl
      rw [hmag]
      obtain ⟨hok, hslots⟩ := Magazine.bulkInit_slots (hinv.blocks.mags t c).1
        (base + blockSize c) (blockSize c) (PAGE_SIZE / blockSize c - 1)
      -- as many blocks as fit into the page, or into the magazine
      have hfit : (min (PAGE_SIZE / blockSize c - 1)
          (MAGAZINE_CAPACITY - (h.core.allocMags t c).slots.length) + 1) * blockSize c
            ≤ PAGE_SIZE := by
        refine Nat.le_trans (Nat.mul_le_mul_right _ ?_) (Nat.div_mul_le_self _ (blockSize c))
        omega
      rw [hcore₀] at hfree
      refine ⟨?_, ?_, ?_, by simp⟩ <;>
        simp only [core_maybeFlush, core_write, core_setAllocMag, hcore, hcore₀]
      · exact Follows.freshPage hinv hreq hfree hfit hok hslots
      · rfl
      · exact List.subset_cons_self _ _
  · exact hsingle h₀ hcore₀

/-- Popping a node of the full stack and swapping with it is one move of the core. -/
theorem core_swapNode {n : Nat} :
    ((h.setPool c { h.globalMagazines c with fullHead := (h.nodes n).next }
      h.nodes).swapNode t c n).core = h.core.takeFull t c n := by
  generalize hpool : { h.globalMagazines c with fullHead := (h.nodes n).next } = pool
  have hcore : ((h.setPool c pool h.nodes).swapNode t c n).core
      = { ((h.setPool c pool h.nodes).setAllocMag t c (h.nodes n).magazine).core with
        pools := Function.update (Function.update h.globalMagazines c pool) c
          { Function.update h.globalMagazines c pool c with emptyHead := some n }
        nodes := GlobalMagazinePool.setNext
          (Function.update h.nodes n
            { h.nodes n with magazine := ((h.threads t).allocMags c).clear })
          n (Function.update h.globalMagazines c pool c).emptyHead
        cleared := (h.threads t).allocMags c :: h.cleared } := rfl
  rw [hcore, core_setAllocMag]
  unfold GlobalMagazinePool.setNext
  simp only [Function.update_self, Function.update_idem, ← hpool]
  rfl

/-- A block that can be popped is served. -/
theorem pop_serves {next : Heap × Option Nat} (hinv : Inv full empty h.core L)
    (hreq : SmallRequest size align c) (hne : (h.core.allocMags t c).slots ≠ []) :
    Returns h L size align (match ((h.threads t).allocMags c).pop with
      | (some block, m) => (h.setAllocMag t c m).serve t size block
      | (none, _) => next) ∧
    (match ((h.threads t).allocMags c).pop with
      | (some block, m) => (h.setAllocMag t c m).serve t size block
      | (none, _) => next).2 ≠ none := by
  rcases Magazine.pop_cases (hinv.blocks.mags t c).1 with ⟨hslots, -⟩ | ⟨b, m, hpop, -, -⟩
  · exact absurd hslots hne
  · have hpop' : ((h.threads t).allocMags c).pop = (some b, m) := hpop
    rw [hpop']
    exact ⟨serve_returns hinv hreq hpop', by simp [serve]⟩

/-- Otherwise the next stage takes over. -/
theorem pop_returns {next : Heap × Option Nat} (hinv : Inv full empty h.core L)
    (hreq : SmallRequest size align c)
    (hnext : (h.core.allocMags t c).slots = [] → Returns h L size align next) :
    Returns h L size align (match ((h.threads t).allocMags c).pop with
      | (some block, m) => (h.setAllocMag t c m).serve t size block
      | (none, _) => next) := by
  by_cases hslots : (h.core.allocMags t c).slots = []
  · rcases Magazine.pop_cases (hinv.blocks.mags t c).1 with ⟨-, hpop⟩ | ⟨b, m, -, -, hcons⟩
    · have hpop' : ((h.threads t).allocMags c).pop = (none, h.core.allocMags t c) := hpop
      rw [hpop']
      exact hnext hslots
    · rw [hslots] at hcons
      exact absurd hcons (by simp)
  · exact (pop_serves hinv hreq hslots).1

/-- A magazine of the full stack is full, so there is a block in it. -/
theorem allocGlobal_returns (hinv : Inv full empty h.core L) (hreq : SmallRequest size align c)
    (hempty : (h.core.allocMags t c).slots = []) :
    Returns h L size align (h.allocGlobal t size (classSize c) c) := by
  unfold allocGlobal GlobalMagazinePool.popFull
  cases hhead : (h.globalMagazines c).fullHead with
  | none => exact allocMiss_returns hinv hreq
  | some n =>
      simp only
      generalize hh' : (h.setPool c { h.globalMagazines c with fullHead := (h.nodes n).next }
        h.nodes).swapNode t c n = h'
      have hcore : h'.core = h.core.takeFull t c n := by
        rw [← hh']
        exact core_swapNode
      have hstep : Follows (Within L) h.core L h'.core L := by
        rw [hcore]
        exact Follows.takeFull hinv hhead hempty
      obtain ⟨full', empty', hinv'⟩ := hstep.inv
      have hcarved : h'.core.carved = h.core.carved ∧ h'.core.regions = h.core.regions := by
        rw [hcore]
        exact ⟨rfl, rfl⟩
      have hne : (h'.core.allocMags t c).slots ≠ [] := by
        obtain ⟨rest, hfull, -⟩ := hinv.takeFull hhead hempty
        have hlen := hinv.blocks.fullMags c n (by rw [hfull]; simp)
        rw [hcore]
        show (setMag h.core.allocMags t c (h.core.nodes n).magazine t c).slots ≠ []
        rw [setMag_self]
        intro hnil
        rw [hnil] at hlen
        exact absurd hlen (by decide)
      obtain ⟨hserved, hsome⟩ := pop_serves hinv' hreq hne
      exact Returns.after hstep hcarved.1 hcarved.2 hserved hsome

theorem allocSwap_returns (hinv : Inv full empty h.core L) (hreq : SmallRequest size align c)
    (hempty : (h.core.allocMags t c).slots = []) :
    Returns h L size align (h.allocSwap t size (classSize c) c) := by
  unfold allocSwap
  split
  · exact allocGlobal_returns hinv hreq hempty
  · rename_i hfree
    simp only
    generalize hh' : (h.setAllocMag t c ((h.threads t).freeMags c)).setFreeMag t c
      ((h.threads t).allocMags c) = h'
    have hcore : h'.core = { h.core with
        allocMags := setMag h.core.allocMags t c (h.core.freeMags t c)
        freeMags := setMag h.core.freeMags t c (h.core.allocMags t c) } := by
      rw [← hh', core_setFreeMag, core_setAllocMag]
      rfl
    have hstep : Follows (Within L) h.core L h'.core L := by
      rw [hcore]
      exact Follows.swapMags hinv
    obtain ⟨full', empty', hinv'⟩ := hstep.inv
    have hcarved : h'.core.carved = h.core.carved ∧ h'.core.regions = h.core.regions := by
      rw [hcore]
      exact ⟨rfl, rfl⟩
    have hne : (h'.core.allocMags t c).slots ≠ [] := by
      rw [hcore]
      show (setMag h.core.allocMags t c (h.core.freeMags t c) t c).slots ≠ []
      rw [setMag_self]
      exact fun hnil => hfree (Magazine.isEmpty_of_nil (hinv.blocks.mags t c).2 hnil)
    obtain ⟨hserved, hsome⟩ := pop_serves hinv' hreq hne
    exact Returns.after hstep hcarved.1 hcarved.2 hserved hsome

theorem allocSmall_returns (hinv : Inv full empty h.core L) (hreq : SmallRequest size align c) :
    Returns h L size align (h.allocSmall t size (classSize c) c) :=
  pop_returns hinv hreq fun hempty => allocSwap_returns hinv hreq hempty

/-! ### Large requests -/

theorem allocLarge_eq {h₀ : Heap} (hh₀ : (h.updateMetrics t ThreadMetrics.countDirect).maybeFlush t = h₀)
    (hpages : max ((32 + size + align + PAGE_SIZE - 1) / PAGE_SIZE) 1 = pages) :
    h.allocLarge t size align =
      match h₀.mapPages pages .large with
      | (h, none) => (h, none)
      | (h, some base) =>
          (((((h.write base 4 MAGIC).write (base + 4) 4 pages).write (base + 8) 8 size).write
            (alignUp (base + 32) align - LARGE_HEADER_SIZE) 4 LARGE_MAGIC).write
              (alignUp (base + 32) align - LARGE_HEADER_SIZE + 8) 8 base,
            some (alignUp (base + 32) align)) := by
  subst hh₀ hpages
  rfl

theorem allocLarge_returns (hinv : Inv full empty h.core L) (hsize : 0 < size)
    (hlarge : ¬ (size ≤ MAX_CACHE_SIZE ∧ align ≤ 8)) (hpow : align.isPowerOfTwo)
    (hbound : size + align ≤ 2 ^ 63) : Returns h L size align (h.allocLarge t size align) := by
  obtain ⟨h₀, hh₀⟩ : ∃ h₀, (h.updateMetrics t ThreadMetrics.countDirect).maybeFlush t = h₀ :=
    ⟨_, rfl⟩
  obtain ⟨pages, hpages⟩ : ∃ pages,
      max ((32 + size + align + PAGE_SIZE - 1) / PAGE_SIZE) 1 = pages := ⟨_, rfl⟩
  have hcore₀ : h₀.core = h.core := by
    rw [← hh₀, core_maybeFlush, core_updateMetrics]
  obtain ⟨hne, hle, hlt⟩ := pages_bounds (by omega) hpages
  rw [allocLarge_eq hh₀ hpages]
  rcases h₀.mapPages_cases pages .large hne hlt with
    ⟨h', heq, hcore⟩ | ⟨h', base, heq, hfree, hcore⟩
  · rw [heq]
    exact Returns.nothing hinv (hcore.trans hcore₀)
  · rw [heq]
    rw [hcore₀] at hfree
    obtain ⟨hlow, hhigh⟩ := user_bounds hfree.2.2.1 hle hpow
    refine ⟨?_, ?_, ?_, by simp⟩ <;> simp only [core_write, hcore, hcore₀]
    · exact Follows.gainLarge hinv hfree hne hsize hlarge hlow hhigh
    · rfl
    · exact List.subset_cons_self _ _

/-! ### Both paths -/

theorem alloc_returns (hinv : Inv full empty h.core L) (layout : Layout) :
    Returns h L layout.size layout.align (h.alloc t layout) := by
  unfold alloc
  simp only
  split
  · exact Returns.nothing hinv rfl
  · rename_i hsize
    have hpos : 0 < layout.size := Nat.pos_of_ne_zero hsize
    split
    · rename_i hsmall
      obtain ⟨c, hc, hclass, hround, -⟩ := classOf_spec hpos hsmall.1
      have hcls : sizeToClass (max (roundUpPow2 layout.size) 16) = some c := hclass
      rw [hcls, hround]
      exact allocSmall_returns hinv ⟨hpos, hsmall, hclass, hc⟩
    · rename_i hlarge
      exact allocLarge_returns hinv hpos hlarge layout.isPow2 layout.bound

end Heap

end Aethalloc.Abi
