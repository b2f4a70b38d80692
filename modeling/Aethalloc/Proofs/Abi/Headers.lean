/-
What can be read back from a pointer.

Sixteen bytes before every pointer tell `dealloc` and `get_alloc_size` everything:
the size of a small block, or where the header of a large region is.  For a live
pointer they still say what `alloc` wrote, whatever happened since, so the size is
the one asked for, the branch is the one the pointer came from, and the fallback
that looks at the start of the page is never taken.

What is unmapped for a large pointer is what the header says.  The header keeps 32
bits of the number of pages, so the mapping is undone exactly when that is enough.
-/
import Aethalloc.Proofs.Abi

namespace Aethalloc.Abi

open Lib

variable {mem : Mem} {foreign : Nat → Bool} {full empty : Nat → List Nat} {h h' : Heap}
  {L : List Allocation} {a : Allocation} {w w' : World} {l : Label} {t c : Nat} {r : Region}

/-! ### Decoding -/

/-- The pointer came from the large path: it lies in a mapping made there. -/
def FromLarge (w : World) (a : Allocation) : Prop :=
  ∃ r ∈ w.heap.regions, r.purpose = .large ∧ r.Has a.ptr

/-- The header before the pointer decodes to what `alloc` encoded. -/
structure Decodes (w : World) (a : Allocation) : Prop where
  size : w.heap.getAllocSize (some a.ptr) = a.size
  path : FromLarge w a ↔ MAX_CACHE_SIZE < a.size ∨ 8 < a.align
  magic : w.heap.read (a.ptr - LARGE_HEADER_SIZE) 4 = LARGE_MAGIC ↔ FromLarge w a
  /-- Any other block goes back to the class it was carved for, which is that of the size, and into
  the thread's free magazine if that has room or a node can be had. -/
  small : ¬ FromLarge w a → ∃ c, sizeToClass a.size = some c ∧
    Carved w.heap.regions (a.ptr - CACHE_HEADER_SIZE) c ∧ w.heap.headerClass a.ptr = some c ∧
    ∀ t answers, (w.enter answers).dealloc t (some a.ptr)
        = (w.enter answers).deallocSmall t c (a.ptr - CACHE_HEADER_SIZE) ∧
      (((w.heap.threads t).freeMags c).count ≠ MAGAZINE_CAPACITY ∨
          (w.enter answers).allocNode.2 ≠ none →
        a.ptr - CACHE_HEADER_SIZE
          ∈ ((((w.enter answers).dealloc t (some a.ptr)).threads t).freeMags c).slots)
  /-- One of the two headers is recognised, so the header of the page is not looked at. -/
  recognised : w.heap.read (a.ptr - LARGE_HEADER_SIZE) 4 = LARGE_MAGIC ∨
    (0 < w.heap.read (a.ptr - CACHE_HEADER_SIZE) 8 ∧
      w.heap.read (a.ptr - CACHE_HEADER_SIZE) 8 ≤ MAX_CACHE_SIZE ∧
      w.heap.read (a.ptr - CACHE_HEADER_SIZE) 4 ≠ MAGIC)

/-- A block's class can be computed from the size asked for as well as from the rounded one. -/
theorem sizeToClass_eq_classOf {size : Nat} (hpos : 0 < size) (hle : size ≤ MAX_CACHE_SIZE) :
    sizeToClass size = classOf size := by
  obtain ⟨c, hc, -, hround, -⟩ := classOf_spec hpos hle
  have hpow : classSize c = 2 ^ (c + 4) := by
    unfold classSize
    rw [Nat.pow_add, Nat.mul_comm]
  have hself : roundUpPow2 (classSize c) = classSize c := by
    rw [hpow]
    have hpos := Nat.two_pow_pos (c + 4)
    exact roundUpPow2_eq (by omega) (Nat.le_refl _) (by omega)
  have hge : 16 ≤ classSize c := by
    have := Nat.one_le_two_pow (n := c)
    unfold classSize
    omega
  unfold classOf sizeToClass
  rw [hround, hself, Nat.max_eq_left hge]

theorem Allocation.not_small : ¬ a.Small ↔ MAX_CACHE_SIZE < a.size ∨ 8 < a.align := by
  unfold Allocation.Small
  omega

/-- What came from the large path is what is not small. -/
theorem Inv.fromLarge_iff (hinv : Inv full empty w.heap.core w.live) (ha : a ∈ w.live) :
    FromLarge w a ↔ ¬ a.Small := by
  constructor
  · rintro ⟨r, hr, hp, hhas⟩ hs
    obtain ⟨c, -, -, -, hcarved, hptr, -⟩ := hinv.ground.small_block ha hs
    obtain ⟨r', hr', hp', hhas'⟩ := hcarved.has
    have hsize := blockSize_pos c
    have hin := hhas' a.ptr (by omega) (by unfold CACHE_HEADER_SIZE at hptr; omega)
    have hrr : r = r' := hinv.regions.unique hr hr' hhas hin
    rw [← hrr, hp] at hp'
    exact absurd hp' (by simp)
  · intro hs
    obtain ⟨r, hr, hhas⟩ := hinv.ground.large_region ha hs
    exact ⟨r, hr.region, hr.purpose, hhas⟩

theorem Inv.decodes (hinv : Inv full empty w.heap.core w.live) (ha : a ∈ w.live) : Decodes w a := by
  have hpath := hinv.fromLarge_iff ha
  have hsize := Heap.getAllocSize_eq hinv ha
  by_cases hs : a.Small
  · obtain ⟨c, -, hclass, -, hcarved, -⟩ := hinv.ground.small_block ha hs
    obtain ⟨hmagic, hheader⟩ := Heap.header_small hinv ha hs hclass
    obtain ⟨hread, -, hpage⟩ := Heap.header_word hinv ha hs
    have hnot : ¬ FromLarge w a := fun hc => hpath.mp hc hs
    refine ⟨hsize, hpath.trans Allocation.not_small, iff_of_false hmagic hnot, fun _ => ?_,
      Or.inr ?_⟩
    · refine ⟨c, ?_, hcarved, hheader, fun t answers => ?_⟩
      · rw [sizeToClass_eq_classOf (hinv.lives.pos a ha) hs.1]
        exact hclass
      · refine ⟨Heap.dealloc_small (h := w.enter answers) hinv ha hs hclass, fun hroom => ?_⟩
        rcases Heap.dealloc_recovers (h := w.enter answers) (t := t) hinv ha hs hclass with
          ⟨hfull, hnone, -⟩ | ⟨-, -, hat⟩
        · exact absurd hroom (by rw [not_or, not_not, not_not]; exact ⟨hfull, hnone⟩)
        · exact hat.2
    · rw [hread]
      exact ⟨hinv.lives.pos a ha, hs.1, hpage⟩
  · obtain ⟨r, hr, -⟩ := hinv.ground.large_region ha hs
    have hlarge : FromLarge w a := hpath.mpr hs
    have hmagic : w.heap.read (a.ptr - LARGE_HEADER_SIZE) 4 = LARGE_MAGIC := hr.magic
    exact ⟨hsize, hpath.trans Allocation.not_small, iff_of_true hmagic hlarge,
      fun hc => absurd hlarge hc, Or.inl hmagic⟩

/-- Whatever `alloc` returns for a layout is live, and as long as it is, its header decodes to that
layout. -/
theorem alloc_decodes {w₀ : World} {layout : Layout} {answers : List (Option Nat)} {ptr : Nat}
    (h₀ : (machine mem foreign).Reaches w₀)
    (hret : ((w₀.enter answers).alloc t layout).2 = some ptr) :
    ∃ w₁, step w₀ (.alloc t layout answers) = some w₁ ∧
      { ptr := ptr, size := layout.size, align := layout.align } ∈ w₁.live ∧
      ∀ ls w, (machine mem foreign).exec w₁ ls = some w →
        { ptr := ptr, size := layout.size, align := layout.align } ∈ w.live →
        Decodes w { ptr := ptr, size := layout.size, align := layout.align } := by
  refine ⟨_, rfl, ?_, fun ls w hrun hlive => ?_⟩
  · unfold World.gain
    rw [hret]
    exact List.mem_cons_self ..
  · obtain ⟨ls₀, hls₀⟩ := h₀
    have hstep := (machine mem foreign).exec_snoc hls₀
      (show (machine mem foreign).step w₀ (.alloc t layout answers) = _ from rfl)
    have hreach : (machine mem foreign).Reaches w := by
      refine ⟨ls₀ ++ [.alloc t layout answers] ++ ls, ?_⟩
      rw [Machine.exec_append, hstep]
      exact hrun
    obtain ⟨full, empty, hinv⟩ := reaches_good hreach
    exact hinv.decodes hlive

/-- Still so after the client has filled its eight bytes. -/
theorem alloc_decodes_filled : ∃ w, bare.exec bare.init
      [.alloc 0 word [some 4096], .write 4112 255, .write 4119 255] = some w ∧
    Decodes w ⟨4112, 8, 8⟩ := by
  have hret : ((bare.init.enter [some 4096]).alloc 0 word).2 = some 4112 := by decide +kernel
  have hinit : (machine (fun _ => 0) fun _ => false).Reaches bare.init := Machine.reaches_init
  obtain ⟨w₁, hstep, -, hlater⟩ := alloc_decodes (t := 0) hinit hret
  have hrest : ((step bare.init (.alloc 0 word [some 4096])).bind fun w =>
      bare.exec w [.write 4112 255, .write 4119 255]).map World.live = some [⟨4112, 8, 8⟩] := by
    decide +kernel
  obtain ⟨w, hw, hlive⟩ := Option.map_eq_some_iff.mp hrest
  rw [hstep, Option.bind_some] at hw
  have hrun : bare.exec bare.init
      [.alloc 0 word [some 4096], .write 4112 255, .write 4119 255] = some w := by
    rw [Machine.exec_cons]
    show (step bare.init (.alloc 0 word [some 4096])).bind _ = _
    rw [hstep]
    exact hw
  exact ⟨w, hrun, hlater _ w hw (by rw [hlive]; exact List.mem_singleton.mpr rfl)⟩

/-! ### The region of a large allocation stays its own -/

/-- No step gives up the region of an allocation that stays live. -/
theorem step_retains (hinv : Inv full empty w.heap.core w.live) (hstep : step w l = some w')
    (ha : a ∈ w.live) (ha' : a ∈ w'.live) (hs : ¬ a.Small) (hr : r ∈ w.heap.regions)
    (hhas : r.Has a.ptr) : r ∈ w'.heap.regions := by
  have hin : ∀ answers, Inv full empty (w.enter answers).core w.live := fun _ => hinv
  -- a pointer other than the allocation's is in another region, or in none of this kind
  have hother : ∀ a₀ ∈ w.live, a₀ ≠ a → ¬ (r.purpose = .large ∧ r.Has a₀.ptr) := by
    rintro a₀ ha₀ hne ⟨hp, hhas₀⟩
    have hs₀ := (hinv.fromLarge_iff ha₀).mp ⟨r, hr, hp, hhas₀⟩
    exact hne (hinv.lives.alone a₀ ha₀ a ha hs₀ hs r hr hhas₀ hhas)
  have hfree : ∀ {t : Nat} {ptr : Option Nat} {answers : List (Option Nat)}, w.Holds ptr →
      a ∈ drop w.live ptr → r ∈ ((w.enter answers).dealloc t ptr).core.regions := by
    intro t ptr answers hholds hlive
    cases ptr with
    | none => exact hr
    | some ptr =>
        obtain ⟨a₀, ha₀, rfl⟩ := hholds
        refine Heap.dealloc_retains (hin answers) ha₀ hr (hother a₀ ha₀ fun hc => ?_)
        rw [hc] at hlive
        simp [drop] at hlive
  cases l with
  | alloc t layout answers =>
      obtain rfl := Option.some.inj hstep
      exact (Heap.alloc_returns (hin answers) layout).regions hr
  | dealloc t ptr answers =>
      obtain ⟨hholds, hsome⟩ := Option.ite_none_right_eq_some.mp hstep
      obtain rfl := Option.some.inj hsome
      exact hfree hholds ha'
  | malloc t size answers =>
      obtain ⟨-, hsome⟩ := Option.ite_none_right_eq_some.mp hstep
      obtain rfl := Option.some.inj hsome
      exact (Heap.malloc_returns t size (hin answers)).regions hr
  | free t ptr answers =>
      obtain ⟨hholds, hsome⟩ := Option.ite_none_right_eq_some.mp hstep
      obtain rfl := Option.some.inj hsome
      rw [Heap.free_eq] at ha' ⊢
      exact hfree hholds ha'
  | calloc t nmemb size answers =>
      obtain ⟨-, hsome⟩ := Option.ite_none_right_eq_some.mp hstep
      obtain rfl := Option.some.inj hsome
      exact (Heap.calloc_returns (hin answers)).regions hr
  | realloc t ptr size answers =>
      rcases step_realloc hinv hstep with ⟨-, rfl⟩ | ⟨a₀, ha₀, rfl, ⟨-, rfl⟩ |
        ⟨-, heap, hret, rfl⟩ | ⟨-, heap, new, -, hnew, -, hretains, rfl⟩⟩
      · exact (Heap.malloc_returns t size (hin answers)).regions hr
      · exact hfree ⟨a₀, ha₀, rfl⟩ ha'
      · exact hret.regions hr
      · refine hretains r hr (hother a₀ ha₀ fun hc => ?_)
        -- the moved allocation is not live any more
        rw [hc] at ha'
        rcases List.mem_cons.mp ha' with hnewa | hold
        · exact hnew a ha (congrArg Allocation.ptr hnewa)
        · simp [World.lose] at hold
  | alignedAlloc t alignment size answers =>
      obtain ⟨-, hsome⟩ := Option.ite_none_right_eq_some.mp hstep
      obtain rfl := Option.some.inj hsome
      exact (Heap.alignedAlloc_returns t alignment size (hin answers)).regions hr
  | posixMemalign t memptr alignment size answers =>
      obtain ⟨heap, code, hm, -, rfl⟩ := step_posixMemalign hstep
      have hregions : r ∈ heap.regions := by
        rcases Heap.posixMemalign_cases memptr (hin answers) hm with
          ⟨-, hcore⟩ | ⟨h₁, p, -, -, hret, rfl⟩
        · show r ∈ heap.core.regions
          rw [hcore]
          exact hr
        · exact hret.regions hr
      split
      · exact hregions
      · exact hregions
  | write addr byte =>
      obtain ⟨-, hsome⟩ := Option.ite_none_right_eq_some.mp hstep
      obtain rfl := Option.some.inj hsome
      exact hr
  | foreign page mapped =>
      obtain ⟨-, hsome⟩ := Option.ite_none_right_eq_some.mp hstep
      obtain rfl := Option.some.inj hsome
      exact hr

/-- The allocation is live in every state of the run. -/
def LiveThrough (M : Machine World Label) (w : World) (ls : List Label) (a : Allocation) : Prop :=
  ∀ ls₀, ls₀ <+: ls → ∀ v, M.exec w ls₀ = some v → a ∈ v.live

/-- A region with the pointer of a large allocation is the one its headers describe. -/
theorem Inv.largeAt (hinv : Inv full empty w.heap.core w.live) (ha : a ∈ w.live) (hs : ¬ a.Small)
    (hr : r ∈ w.heap.regions) (hhas : r.Has a.ptr) :
    LargeAt w.heap.core.mem w.heap.core.regions r a := by
  obtain ⟨r', hr', hhas'⟩ := hinv.ground.large_region ha hs
  have hrr : r = r' := hinv.regions.unique hr hr'.region hhas hhas'
  rw [hrr]
  exact hr'

theorem exec_largeAt : ∀ {ls : List Label} {w₁ : World}, Good w₁ →
    (machine mem foreign).exec w₁ ls = some w → LiveThrough (machine mem foreign) w₁ ls a →
    ¬ a.Small → r ∈ w₁.heap.regions → r.Has a.ptr →
    Good w ∧ a ∈ w.live ∧ r ∈ w.heap.regions := by
  intro ls
  induction ls with
  | nil =>
      intro w₁ hgood hrun hlive _ hr _
      obtain rfl := Option.some.inj hrun
      exact ⟨hgood, hlive [] List.nil_prefix w₁ rfl, hr⟩
  | cons l ls ih =>
      intro w₁ hgood hrun hlive hs hr hhas
      obtain ⟨full, empty, hinv⟩ := hgood
      obtain ⟨v, hstep, hrest⟩ := Option.bind_eq_some_iff.mp hrun
      have hfirst : (machine mem foreign).exec w₁ [l] = some v := by
        rw [Machine.exec_cons, hstep]
        rfl
      have hmem : a ∈ w₁.live := hlive [] List.nil_prefix w₁ rfl
      have hmem' : a ∈ v.live := hlive [l] (List.prefix_append [l] ls) v hfirst
      refine ih (step_keeps hinv hstep).inv hrest (fun ls₀ hls₀ u hu => ?_) hs
        (step_retains hinv hstep hmem hmem' hs hr hhas) hhas
      refine hlive (l :: ls₀) (List.cons_prefix_cons.mpr ⟨rfl, hls₀⟩) u ?_
      rw [Machine.exec_cons, hstep]
      exact hu

/-! ### Mapping and unmapping a large allocation -/

/-- The pages the large path asks for. -/
def Layout.pages (layout : Layout) : Nat :=
  max ((PAGE_HEADER_SIZE + LARGE_HEADER_SIZE + layout.size + layout.align + PAGE_SIZE - 1)
    / PAGE_SIZE) 1

/-- What the client holds after the large path got its pages at `base`. -/
def Layout.placed (layout : Layout) (base : Nat) : Allocation where
  ptr := alignUp (base + PAGE_HEADER_SIZE + LARGE_HEADER_SIZE) layout.align
  size := layout.size
  align := layout.align

/-- The layout is sent to the large path. -/
def Layout.Large (layout : Layout) : Prop :=
  0 < layout.size ∧ (MAX_CACHE_SIZE < layout.size ∨ 8 < layout.align)

instance (layout : Layout) : Decidable layout.Large := inferInstanceAs (Decidable (_ ∧ _))

/-- `PageAllocator::dealloc` was called with the base and the pages, which unmapped these pages
and no others. -/
structure Unmaps (h h' : Heap) (base pages : Nat) : Prop where
  call : h'.sys = PageAllocator.dealloc h.sys base pages
  gone : ∀ i < pages, h'.sys.mapped (base / PAGE_SIZE + i) = false
  others : ∀ page, page < base / PAGE_SIZE ∨ base / PAGE_SIZE + pages ≤ page →
    h'.sys.mapped page = h.sys.mapped page

theorem Layout.pages_bounds (layout : Layout) : layout.pages ≠ 0 ∧
    PAGE_HEADER_SIZE + LARGE_HEADER_SIZE + layout.size + layout.align ≤ layout.pages * PAGE_SIZE ∧
    layout.pages * PAGE_SIZE < 2 ^ 64 := by
  have hbound := layout.bound
  unfold Layout.pages PAGE_HEADER_SIZE LARGE_HEADER_SIZE PAGE_SIZE
  omega

/-- The header's 32 bits hold the number of pages unless the request is that large. -/
theorem Layout.pages_lt_iff (layout : Layout) : layout.pages < 2 ^ 32 ↔
    PAGE_HEADER_SIZE + LARGE_HEADER_SIZE + layout.size + layout.align
      ≤ (2 ^ 32 - 1) * PAGE_SIZE := by
  unfold Layout.pages PAGE_HEADER_SIZE LARGE_HEADER_SIZE PAGE_SIZE
  omega

namespace Heap

theorem maybeFlush_sys : (h.maybeFlush t).sys = h.sys := rfl

theorem countFree_sys : (h.countFree t).sys = h.sys := maybeFlush_sys

/-- A large request that is granted pages maps them and returns the aligned address in them. -/
theorem alloc_maps {layout : Layout} {base : Nat} {rest : List (Option Nat)}
    (hlarge : layout.Large) (hans : h.sys.answers = some base :: rest)
    (hfree : h.sys.Free base (layout.pages * PAGE_SIZE)) :
    ∃ h', h.alloc t layout = (h', some (layout.placed base).ptr) ∧
      h'.regions = { base := base, pages := layout.pages, purpose := .large } :: h.regions := by
  obtain ⟨hne, -, hlt⟩ := layout.pages_bounds
  obtain ⟨hpos, hbig⟩ := hlarge
  obtain ⟨h₀, hh₀⟩ : ∃ h₀, (h.updateMetrics t ThreadMetrics.countDirect).maybeFlush t = h₀ :=
    ⟨_, rfl⟩
  have hsys : h₀.sys = h.sys := by
    rw [← hh₀, maybeFlush_sys]
    rfl
  have hregions : h₀.core.regions = h.core.regions := by
    rw [← hh₀, core_maybeFlush, core_updateMetrics]
  have halloc : h.alloc t layout = h.allocLarge t layout.size layout.align := by
    unfold alloc
    simp only
    rw [if_neg (by omega), if_neg (by omega)]
  have hmap : ∃ h₁, h₀.mapPages layout.pages .large = (h₁, some base) ∧
      h₁.regions = { base := base, pages := layout.pages, purpose := .large } :: h.regions := by
    unfold mapPages PageAllocator.alloc System.mmap
    rw [if_neg hne, Nat.mod_eq_of_lt hlt, hsys, hans]
    simp only
    rw [if_pos ⟨by unfold PAGE_SIZE; omega, hfree⟩]
    exact ⟨_, rfl, congrArg _ hregions⟩
  obtain ⟨h₁, hmap₁, hregions₁⟩ := hmap
  rw [halloc, allocLarge_eq hh₀ rfl]
  have hpages : max ((32 + layout.size + layout.align + PAGE_SIZE - 1) / PAGE_SIZE) 1
      = layout.pages := rfl
  rw [hpages, hmap₁]
  exact ⟨_, rfl, hregions₁⟩

/-- What the header says is unmapped: the pages of the region modulo 2^32, if that is not zero. -/
theorem dealloc_large_sys (hr : LargeAt h.core.mem h.core.regions r a) :
    (h.dealloc t (some a.ptr)).sys
      = PageAllocator.dealloc h.sys r.base (r.pages % 2 ^ 32) := by
  have hmagic : h.read r.base 4 = MAGIC := hr.pageMagic
  have hnum : h.read (r.base + 4) 4 = r.pages % 2 ^ 32 := hr.numPages
  rw [dealloc_large hr, countFree_sys]
  unfold unmapHeader
  rw [hmagic, hnum]
  split
  · rfl
  · rename_i hzero
    unfold PageAllocator.dealloc
    rw [if_pos (by omega)]

end Heap

/-- A large region is unmapped as a whole exactly when its header could hold its size. -/
theorem Inv.unmaps_iff (hinv : Inv full empty h.core L)
    (hr : LargeAt h.core.mem h.core.regions r a) :
    Unmaps h (h.dealloc t (some a.ptr)) r.base r.pages ↔ r.pages < 2 ^ 32 := by
  obtain ⟨-, hal, hne, hend⟩ := hinv.regions.page r hr.region
  have hsys := Heap.dealloc_large_sys (t := t) hr
  constructor
  · -- a page past what the header says is mapped before, and still is
    intro hunmaps
    by_contra hbig
    have hmod : r.pages % 2 ^ 32 < r.pages :=
      Nat.lt_of_lt_of_le (Nat.mod_lt _ (by decide)) (Nat.le_of_not_lt hbig)
    have hgone := hunmaps.gone (r.pages % 2 ^ 32) hmod
    have hhas : r.Has (r.base + r.pages % 2 ^ 32 * PAGE_SIZE) := by
      unfold Region.Has Region.len PAGE_SIZE
      omega
    have hmapped := hinv.regions.inMapped r hr.region _ hhas
    rw [Nat.add_mul_div_right _ _ (by decide)] at hmapped
    have hstays : (h.dealloc t (some a.ptr)).sys.mapped (r.base / PAGE_SIZE + r.pages % 2 ^ 32)
        = h.sys.mapped (r.base / PAGE_SIZE + r.pages % 2 ^ 32) := by
      rw [hsys]
      by_cases hzero : r.pages % 2 ^ 32 = 0
      · unfold PageAllocator.dealloc
        rw [if_pos hzero]
      · have hlt : r.pages % 2 ^ 32 < 2 ^ 32 := Nat.mod_lt _ (by decide)
        rw [PageAllocator.dealloc_eq hzero hal (by unfold PAGE_SIZE; omega)]
        exact if_neg (by omega)
    rw [hgone] at hstays
    exact absurd (hstays.trans hmapped) (by simp)
  · intro hlt
    rw [Nat.mod_eq_of_lt hlt] at hsys
    have hmapped : (h.dealloc t (some a.ptr)).sys.mapped
        = h.sys.setPages r.base r.pages false := by
      rw [hsys, PageAllocator.dealloc_eq hne hal (by unfold PAGE_SIZE; omega)]
    refine ⟨hsys, fun i hi => ?_, fun page hpage => ?_⟩
    · rw [hmapped]
      exact if_pos ⟨Nat.le_add_right _ _, Nat.add_lt_add_left hi _⟩
    · rw [hmapped]
      exact if_neg (by omega)

/-- The region has the address in it, past the headers. -/
theorem Layout.placed_has (layout : Layout) {base : Nat} (hpos : 0 < layout.size)
    (hend : base + layout.pages * PAGE_SIZE ≤ 2 ^ 64) :
    Region.Has { base := base, pages := layout.pages, purpose := .large }
      (layout.placed base).ptr := by
  obtain ⟨-, hroom, -⟩ := layout.pages_bounds
  unfold PAGE_HEADER_SIZE LARGE_HEADER_SIZE at hroom
  obtain ⟨hlow, hhigh⟩ := user_bounds hend hroom layout.isPow2
  have hptr : (layout.placed base).ptr = alignUp (base + 32) layout.align := rfl
  unfold Region.Has Region.len
  rw [hptr]
  simp only
  omega

/-- The state after a large request was granted pages. -/
theorem large_placed {w₀ : World} {layout : Layout} {base : Nat} (rest : List (Option Nat))
    (hgood : Good w₀) (hlarge : layout.Large)
    (hfree : w₀.heap.sys.Free base (layout.pages * PAGE_SIZE)) :
    ∃ w₁, step w₀ (.alloc t layout (some base :: rest)) = some w₁ ∧
      w₁.live = layout.placed base :: w₀.live ∧ Good w₁ ∧
      { base := base, pages := layout.pages, purpose := .large } ∈ w₁.heap.regions := by
  obtain ⟨full, empty, hinv⟩ := hgood
  obtain ⟨h', heq, hregions⟩ :=
    Heap.alloc_maps (h := w₀.enter (some base :: rest)) (t := t) hlarge rfl hfree
  have hstep : step w₀ (.alloc t layout (some base :: rest))
      = some (w₀.gain (h', some (layout.placed base).ptr) layout.size layout.align) := by
    unfold step
    simp only [heq]
  refine ⟨_, hstep, rfl, (step_keeps hinv hstep).inv, ?_⟩
  show _ ∈ h'.regions
  rw [hregions]
  exact List.mem_cons_self ..

/-- Freeing a large allocation in any later state. -/
theorem placed_unmaps_iff {w₁ : World} {layout : Layout} {base : Nat} {ls : List Label}
    (answers : List (Option Nat)) (hgood : Good w₁) (hlarge : layout.Large)
    (hregion : { base := base, pages := layout.pages, purpose := .large } ∈ w₁.heap.regions)
    (hrun : (machine mem foreign).exec w₁ ls = some w)
    (hlive : LiveThrough (machine mem foreign) w₁ ls (layout.placed base)) :
    Unmaps (w.enter answers) ((w.enter answers).dealloc t (some (layout.placed base).ptr)) base
      layout.pages ↔
    PAGE_HEADER_SIZE + LARGE_HEADER_SIZE + layout.size + layout.align
      ≤ (2 ^ 32 - 1) * PAGE_SIZE := by
  obtain ⟨full, empty, hinv⟩ := hgood
  obtain ⟨-, -, -, hend⟩ := hinv.regions.page _ hregion
  have hhas := layout.placed_has hlarge.1 hend
  have hs : ¬ (layout.placed base).Small := Allocation.not_small.mpr hlarge.2
  obtain ⟨⟨full', empty', hinv'⟩, ha, hr⟩ :=
    exec_largeAt ⟨full, empty, hinv⟩ hrun hlive hs hregion hhas
  have hlargeAt := hinv'.largeAt ha hs hr hhas
  have hunmaps := Inv.unmaps_iff (h := w.enter answers) (t := t) hinv' hlargeAt
  exact hunmaps.trans layout.pages_lt_iff

/-- Whatever happens between, freeing a large allocation unmaps what allocating it mapped, if and
only if the header's 32 bits can hold the number of pages. -/
theorem large_unmaps_iff {w₀ : World} {layout : Layout} {base : Nat} (rest : List (Option Nat))
    (h₀ : (machine mem foreign).Reaches w₀) (hlarge : layout.Large)
    (hfree : w₀.heap.sys.Free base (layout.pages * PAGE_SIZE)) :
    ∃ w₁, step w₀ (.alloc t layout (some base :: rest)) = some w₁ ∧
      w₁.live = layout.placed base :: w₀.live ∧
      ∀ ls w, (machine mem foreign).exec w₁ ls = some w →
        LiveThrough (machine mem foreign) w₁ ls (layout.placed base) → ∀ t' answers,
        (Unmaps (w.enter answers) ((w.enter answers).dealloc t' (some (layout.placed base).ptr))
          base layout.pages ↔
        PAGE_HEADER_SIZE + LARGE_HEADER_SIZE + layout.size + layout.align
          ≤ (2 ^ 32 - 1) * PAGE_SIZE) := by
  obtain ⟨w₁, hstep, hlive, hgood, hregion⟩ := large_placed rest (reaches_good h₀) hlarge hfree
  refine ⟨w₁, hstep, hlive, fun ls w hrun hthrough t' answers => ?_⟩
  exact placed_unmaps_iff answers hgood hlarge hregion hrun hthrough

/-- A hundred thousand bytes. -/
def hundredK : Layout where
  size := 100000
  align := 8
  isPow2 := isPowerOfTwo_eight
  bound := by decide

/-- Sixteen tebibytes: 2^32 + 1 pages with the headers. -/
def huge : Layout where
  size := 2 ^ 44
  align := 8
  isPow2 := isPowerOfTwo_eight
  bound := by decide

theorem liveThrough_nil (ha : a ∈ w.live) : LiveThrough (machine mem foreign) w [] a := by
  intro ls₀ hls₀ v hv
  rw [List.prefix_nil.mp hls₀] at hv
  rw [← Option.some.inj hv]
  exact ha

theorem large_unmaps_hundredK : ∃ w₁,
    step bare.init (.alloc 0 hundredK [some 4096]) = some w₁ ∧
      Unmaps w₁.heap (w₁.heap.dealloc 1 (some 4128)) 4096 25 := by
  have hfree : bare.init.heap.sys.Free 4096 (hundredK.pages * PAGE_SIZE) := by decide +kernel
  have hinit : (machine (fun _ => 0) fun _ => false).Reaches bare.init := Machine.reaches_init
  obtain ⟨w₁, hstep, hlive, hlater⟩ :=
    large_unmaps_iff (t := 0) [] hinit (by decide) hfree
  refine ⟨w₁, hstep, ?_⟩
  have hmem : hundredK.placed 4096 ∈ w₁.live := by
    rw [hlive]
    exact List.mem_cons_self ..
  have hpages : hundredK.pages = 25 := by decide
  have hptr : (hundredK.placed 4096).ptr = 4128 := by decide
  have hunmaps := (hlater [] w₁ rfl (liveThrough_nil hmem) 1 w₁.heap.sys.answers).mpr (by decide)
  rw [hpages, hptr] at hunmaps
  exact hunmaps

/-- One page is unmapped of 2^32 + 1. -/
theorem huge_stays : ∃ w₁, step bare.init (.alloc 0 huge [some (2 ^ 45)]) = some w₁ ∧
    (huge.placed (2 ^ 45)) ∈ w₁.live ∧
    ¬ Unmaps w₁.heap (w₁.heap.dealloc 0 (some (huge.placed (2 ^ 45)).ptr)) (2 ^ 45)
      huge.pages := by
  have hfree : bare.init.heap.sys.Free (2 ^ 45) (huge.pages * PAGE_SIZE) :=
    ⟨by decide, by decide, by decide, fun _ _ => ⟨rfl, rfl⟩⟩
  have hinit : (machine (fun _ => 0) fun _ => false).Reaches bare.init := Machine.reaches_init
  obtain ⟨w₁, hstep, hlive, hgood, hregion⟩ :=
    large_placed (t := 0) [] (reaches_good hinit) (by decide) hfree
  have hmem : huge.placed (2 ^ 45) ∈ w₁.live := by
    rw [hlive]
    exact List.mem_cons_self ..
  refine ⟨w₁, hstep, hmem, fun hunmaps => ?_⟩
  have hrun : (machine (fun _ => 0) fun _ => false).exec w₁ [] = some w₁ := rfl
  have hiff := placed_unmaps_iff (t := 0) w₁.heap.sys.answers hgood (by decide) hregion hrun
    (liveThrough_nil hmem)
  exact absurd (hiff.mp hunmaps) (by decide)

end Aethalloc.Abi
