/-
Where pointers lie.

The large path adds headers, size and alignment, rounds to pages and aligns an
address with a mask, for sizes up to 2^63.  The first part repeats this arithmetic
operation by operation, with no result where a word would wrap, and shows that it
always has one: the slack of a whole alignment that is reserved covers the worst
rounding for every base.

The small path never looks at alignments.  Its pointers are aligned because every
block that is in any magazine was carved from a page at a multiple of its size, and
sizes of blocks are multiples of sixteen.
-/
import Aethalloc.Proofs.Abi.Headers

namespace Aethalloc.Abi

open Lib

variable {full empty : Nat → List Nat} {h : Heap} {L : List Allocation} {w w' : World} {l : Label}
  {t c base : Nat} {mem : Mem} {foreign : Nat → Bool} {layout : Layout}

/-! ### The arithmetic of the large path -/

/-- `min_size`, `pages`, and the length that `PageAllocator::alloc` maps. -/
def checkedPages (size align : Nat) : Option (Nat × Nat) := do
  let headers ← checkedAdd PAGE_HEADER_SIZE LARGE_HEADER_SIZE
  let withSize ← checkedAdd headers size
  let minSize ← checkedAdd withSize align
  let divided ← checkedDivCeil minSize PAGE_SIZE
  let pages := max divided 1
  let len ← checkedMul pages PAGE_SIZE
  return (pages, len)

def checkedAlignUp (addr align : Nat) : Option Nat := do
  let sum ← checkedAdd addr align
  let last ← checkedSub sum 1
  let mask ← checkedSub align 1
  return andNot last mask

/-- `user_addr`, and the address of the header before it. -/
def checkedUser (base align : Nat) : Option (Nat × Nat) := do
  let afterPage ← checkedAdd base PAGE_HEADER_SIZE
  let addr ← checkedAdd afterPage LARGE_HEADER_SIZE
  let user ← checkedAlignUp addr align
  let header ← checkedSub user LARGE_HEADER_SIZE
  return (user, header)

theorem checkedPages_eq (layout : Layout) :
    checkedPages layout.size layout.align = some (layout.pages, layout.pages * PAGE_SIZE) := by
  have hbound := layout.bound
  obtain ⟨-, -, hlt⟩ := layout.pages_bounds
  have hheaders : checkedAdd PAGE_HEADER_SIZE LARGE_HEADER_SIZE = some 32 := rfl
  have hsize : checkedAdd 32 layout.size = some (32 + layout.size) :=
    checkedAdd_of_lt (by omega)
  have hmin : checkedAdd (32 + layout.size) layout.align = some (32 + layout.size + layout.align) :=
    checkedAdd_of_lt (by omega)
  have hdiv : checkedDivCeil (32 + layout.size + layout.align) PAGE_SIZE
      = some ((32 + layout.size + layout.align + PAGE_SIZE - 1) / PAGE_SIZE) :=
    checkedDivCeil_of_lt (by decide) (by omega)
  have hmul : checkedMul layout.pages PAGE_SIZE = some (layout.pages * PAGE_SIZE) :=
    checkedMul_of_lt hlt
  have hpages : max ((32 + layout.size + layout.align + PAGE_SIZE - 1) / PAGE_SIZE) 1
      = layout.pages := rfl
  unfold checkedPages
  refine Option.bind_eq_some_iff.mpr ⟨_, hheaders, ?_⟩
  refine Option.bind_eq_some_iff.mpr ⟨_, hsize, ?_⟩
  refine Option.bind_eq_some_iff.mpr ⟨_, hmin, ?_⟩
  refine Option.bind_eq_some_iff.mpr ⟨_, hdiv, ?_⟩
  exact Option.bind_eq_some_iff.mpr ⟨_, hpages ▸ hmul, rfl⟩

theorem checkedAlignUp_eq {addr align : Nat} (hpos : 0 < align) (h : addr + align < 2 ^ 64) :
    checkedAlignUp addr align = some (alignUp addr align) := by
  have hlast : checkedSub (addr + align) 1 = some (addr + align - 1) :=
    checkedSub_of_le (by omega)
  unfold checkedAlignUp
  simp only [Option.bind_eq_bind, checkedAdd_of_lt h, Option.bind_some, hlast,
    checkedSub_of_le hpos]
  rfl

/-- The two headers and the client's bytes follow each other in the mapping, and the pointer is the
one `alloc` returns. -/
structure Laid (layout : Layout) (base : Nat) : Prop where
  computed : checkedUser base layout.align
    = some ((layout.placed base).ptr, (layout.placed base).ptr - LARGE_HEADER_SIZE)
  aligned : layout.align ∣ (layout.placed base).ptr
  pageHeader : base + PAGE_HEADER_SIZE ≤ (layout.placed base).ptr - LARGE_HEADER_SIZE
  largeHeader : LARGE_HEADER_SIZE ≤ (layout.placed base).ptr
  user : (layout.placed base).ptr + layout.size ≤ base + layout.pages * PAGE_SIZE
  returned : ∀ (h : Heap) (t : Nat), (PageAllocator.alloc h.sys layout.pages).2 = some base →
    (h.allocLarge t layout.size layout.align).2 = some (layout.placed base).ptr

theorem Heap.allocLarge_snd : (h.allocLarge t layout.size layout.align).2
    = (PageAllocator.alloc h.sys layout.pages).2.map fun base => (layout.placed base).ptr := by
  obtain ⟨h₀, hh₀⟩ : ∃ h₀, (h.updateMetrics t ThreadMetrics.countDirect).maybeFlush t = h₀ :=
    ⟨_, rfl⟩
  have hsys : h₀.sys = h.sys := by
    rw [← hh₀, maybeFlush_sys]
    rfl
  have hpages : max ((32 + layout.size + layout.align + PAGE_SIZE - 1) / PAGE_SIZE) 1
      = layout.pages := rfl
  have hsnd : (h₀.mapPages layout.pages .large).2 = (PageAllocator.alloc h₀.sys layout.pages).2 :=
    mapPages_snd
  rw [allocLarge_eq hh₀ hpages, ← hsys, ← hsnd]
  rcases h₀.mapPages layout.pages .large with ⟨h₁, _ | base⟩
  · rfl
  · rfl

/--
**The large path's arithmetic is exact.**  For every layout of at least one byte the
number of pages and their length are computed without a wrap; and wherever these
pages are mapped, the address is computed without a wrap too, is a multiple of the
alignment, and leaves room for both headers before it and the client's bytes after it.
-/
theorem large_layout (layout : Layout) (hpos : 0 < layout.size) :
    checkedPages layout.size layout.align = some (layout.pages, layout.pages * PAGE_SIZE) ∧
    ∀ base, base % PAGE_SIZE = 0 → base + layout.pages * PAGE_SIZE ≤ 2 ^ 64 →
      Laid layout base := by
  refine ⟨checkedPages_eq layout, fun base _ hend => ?_⟩
  obtain ⟨-, hroom, -⟩ := layout.pages_bounds
  unfold PAGE_HEADER_SIZE LARGE_HEADER_SIZE at hroom
  obtain ⟨hlow, hhigh⟩ := user_bounds hend hroom layout.isPow2
  have hptr : (layout.placed base).ptr = alignUp (base + 32) layout.align := rfl
  rw [← hptr] at hlow hhigh
  have halign : 0 < layout.align := Nat.pos_of_isPowerOfTwo layout.isPow2
  have hpage : checkedAdd base PAGE_HEADER_SIZE = some (base + 16) := by
    unfold PAGE_HEADER_SIZE
    exact checkedAdd_of_lt (by omega)
  have haddr : checkedAdd (base + 16) LARGE_HEADER_SIZE = some (base + 32) := by
    unfold LARGE_HEADER_SIZE
    exact checkedAdd_of_lt (by omega)
  -- the size is not zero, so even the sum before the mask stays below 2^64
  have huser : checkedAlignUp (base + 32) layout.align = some (layout.placed base).ptr :=
    checkedAlignUp_eq halign (by omega)
  have hheader : checkedSub (layout.placed base).ptr LARGE_HEADER_SIZE
      = some ((layout.placed base).ptr - LARGE_HEADER_SIZE) := by
    unfold LARGE_HEADER_SIZE
    exact checkedSub_of_le (by omega)
  refine ⟨?_, ?_, ?_, ?_, hhigh, fun h t hmap => ?_⟩
  · unfold checkedUser
    simp only [Option.bind_eq_bind, hpage, Option.bind_some, haddr, huser, hheader]
    rfl
  · obtain ⟨k, hk⟩ := layout.isPow2
    rw [hptr, hk]
    exact (alignUp_spec (by omega)).1
  · unfold PAGE_HEADER_SIZE LARGE_HEADER_SIZE
    omega
  · unfold LARGE_HEADER_SIZE
    omega
  · rw [Heap.allocLarge_snd, hmap]
    rfl

/-- The largest size for an alignment of 2^62. -/
def widest : Layout where
  size := 2 ^ 62
  align := 2 ^ 62
  isPow2 := ⟨62, rfl⟩
  bound := by decide

/-- In a mapping at 2^62 the address is 2^63. -/
theorem large_layout_widest : (widest.placed (2 ^ 62)).ptr = 2 ^ 63 ∧ Laid widest (2 ^ 62) :=
  ⟨by decide +kernel, (large_layout widest (by decide)).2 (2 ^ 62) (by decide) (by decide)⟩

/-! ### Alignment -/

/-- Blocks are carved at multiples of sixteen. -/
theorem Carved.dvd {R : List Region} {b : Nat} (h : Carved R b c)
    (hpage : ∀ r ∈ R, r.base % PAGE_SIZE = 0) : 16 ∣ b := by
  obtain ⟨r, hr, -, i, rfl, -⟩ := h
  have hbase : 16 ∣ r.base :=
    (by decide : 16 ∣ PAGE_SIZE).trans (Nat.dvd_of_mod_eq_zero (hpage r hr))
  have hsize : 16 ∣ blockSize c := by
    unfold blockSize classSize CACHE_HEADER_SIZE
    exact Nat.dvd_add (Nat.dvd_mul_right 16 _) (Nat.dvd_refl 16)
  exact Nat.dvd_add hbase (hsize.mul_left i)

/-- A pointer of the small path is a header past a carved block. -/
theorem Inv.small_dvd {a : Allocation} (hinv : Inv full empty h.core L) (ha : a ∈ L)
    (hs : a.Small) : 16 ∣ a.ptr := by
  obtain ⟨c, -, -, -, hcarved, hptr, -⟩ := hinv.ground.small_block ha hs
  have hdvd := hcarved.dvd fun r hr => (hinv.regions.page r hr).2.1
  unfold CACHE_HEADER_SIZE at hptr hdvd
  omega

/-- Whichever is larger, both divide the number. -/
theorem max_dvd {align p : Nat} (h16 : 16 ∣ p) (halign : align ∣ p) : max 16 align ∣ p := by
  rcases Nat.le_total 16 align with hle | hle
  · rw [Nat.max_eq_right hle]
    exact halign
  · rw [Nat.max_eq_left hle]
    exact h16

/-- A power of two up to 8 divides every multiple of sixteen. -/
theorem dvd_of_small_align {align p : Nat} (hpow : align.isPowerOfTwo) (hle : align ≤ 16)
    (h16 : 16 ∣ p) : align ∣ p := by
  obtain ⟨k, rfl⟩ := hpow
  have hk : k ≤ 4 := (Nat.pow_le_pow_iff_right (by decide)).mp (hle : 2 ^ k ≤ 2 ^ 4)
  exact (Nat.pow_dvd_pow 2 hk : 2 ^ k ∣ 2 ^ 4).trans h16

/-- A pointer of the large path: past a page-aligned base, or a multiple of a large alignment. -/
theorem placed_dvd (layout : Layout) (hpos : 0 < layout.size) (hbase : base % PAGE_SIZE = 0)
    (hend : base + layout.pages * PAGE_SIZE ≤ 2 ^ 64) :
    16 ∣ (layout.placed base).ptr ∧ layout.align ∣ (layout.placed base).ptr := by
  have hlaid := (large_layout layout hpos).2 base hbase hend
  refine ⟨?_, hlaid.aligned⟩
  have hstart : 16 ∣ base + 32 := by
    unfold PAGE_SIZE at hbase
    omega
  rcases Nat.le_total 16 layout.align with hle | hle
  · -- sixteen divides the alignment
    obtain ⟨k, hk⟩ := layout.isPow2
    rw [hk] at hle
    have hk4 : 4 ≤ k := (Nat.pow_le_pow_iff_right (by decide : 1 < 2)).mp hle
    have hdvd : 2 ^ 4 ∣ 2 ^ k := Nat.pow_dvd_pow 2 hk4
    rw [← hk] at hdvd
    exact hdvd.trans hlaid.aligned
  · -- the address past the headers is aligned already
    obtain ⟨k, hk⟩ := layout.isPow2
    obtain ⟨-, hroom, -⟩ := layout.pages_bounds
    unfold PAGE_HEADER_SIZE LARGE_HEADER_SIZE at hroom
    have hptr : (layout.placed base).ptr = alignUp (base + 32) layout.align := rfl
    have hdvd := dvd_of_small_align layout.isPow2 hle hstart
    rw [hk] at hdvd hroom
    rw [hptr, hk, alignUp_of_dvd (by omega) hdvd]
    exact hstart

/-- Whatever `alloc` returns is aligned. -/
theorem Heap.alloc_dvd {p : Nat} (hinv : Inv full empty h.core L)
    (hret : (h.alloc t layout).2 = some p) : max 16 layout.align ∣ p := by
  have hsize : layout.size ≠ 0 := by
    intro hzero
    unfold Heap.alloc at hret
    simp only [if_pos hzero] at hret
    cases hret
  by_cases hs : layout.size ≤ MAX_CACHE_SIZE ∧ layout.align ≤ 8
  · obtain ⟨full', empty', hinv'⟩ := (Heap.alloc_returns (t := t) hinv layout).follows.inv
    rw [hret] at hinv'
    have h16 := hinv'.small_dvd (a := ⟨p, layout.size, layout.align⟩) (List.mem_cons_self ..) hs
    exact max_dvd h16 (dvd_of_small_align layout.isPow2 (by omega) h16)
  · have halloc : h.alloc t layout = h.allocLarge t layout.size layout.align := by
      unfold Heap.alloc
      simp only
      rw [if_neg hsize, if_neg hs]
    rw [halloc, Heap.allocLarge_snd] at hret
    obtain ⟨base, hmap, rfl⟩ := Option.map_eq_some_iff.mp hret
    obtain ⟨hne, -, hlt⟩ := layout.pages_bounds
    rcases PageAllocator.alloc_cases h.sys layout.pages hne hlt with
      ⟨rest, heq⟩ | ⟨base', rest, hfree, heq⟩
    · rw [heq] at hmap
      cases hmap
    · rw [heq] at hmap
      obtain rfl := Option.some.inj hmap
      obtain ⟨h16, halign⟩ := placed_dvd layout (Nat.pos_of_ne_zero hsize) hfree.2.1 hfree.2.2.1
      exact max_dvd h16 halign

theorem Heap.allocLayout_dvd {size align p : Nat} (hinv : Inv full empty h.core L)
    (hret : (magazineMode.allocLayout h t (Layout.fromSizeAlign size align)).2 = some p) :
    max 16 align ∣ p := by
  unfold Layout.fromSizeAlign at hret
  split at hret
  · rename_i hlayout
    have halloc : (h.alloc t ⟨size, align, hlayout.1, hlayout.2⟩).2 = some p := hret
    exact Heap.alloc_dvd hinv halloc
  · cases hret

theorem Heap.malloc_dvd {size p : Nat} (hinv : Inv full empty h.core L)
    (hret : (h.malloc t size).2 = some p) : max 16 8 ∣ p := by
  have hinit : Inv full empty h.ensureInit.core L := hinv
  rw [Heap.malloc_eq] at hret
  split at hret
  · cases hret
  · exact Heap.allocLayout_dvd hinit hret

theorem Heap.calloc_dvd {nmemb size p : Nat} (hinv : Inv full empty h.core L)
    (hret : (h.calloc t nmemb size).2 = some p) : max 16 8 ∣ p := by
  rw [Heap.calloc_eq] at hret
  split at hret
  · refine Heap.malloc_dvd hinv (?_ : (h.malloc t (nmemb * size)).2 = some p)
    rcases hm : h.malloc t (nmemb * size) with ⟨h', _ | ptr⟩
    · rw [hm] at hret
      cases hret
    · rw [hm] at hret
      exact hret
  · cases hret

theorem Heap.realloc_dvd {ptr : Option Nat} {size p : Nat} (hinv : Inv full empty h.core L)
    (hret : (h.realloc t ptr size).2 = some p) : max 16 8 ∣ p := by
  cases ptr with
  | none => exact Heap.malloc_dvd hinv hret
  | some ptr =>
      rw [Heap.realloc_eq] at hret
      split at hret
      · cases hret
      · refine Heap.malloc_dvd hinv (?_ : (h.malloc t size).2 = some p)
        rcases hm : h.malloc t size with ⟨h', _ | newPtr⟩
        · rw [hm] at hret
          cases hret
        · rw [hm] at hret
          exact hret

theorem Heap.alignedAlloc_dvd {alignment size p : Nat} (hinv : Inv full empty h.core L)
    (hret : (h.alignedAlloc t alignment size).2 = some p) : max 16 alignment ∣ p := by
  rw [Heap.alignedAlloc_eq] at hret
  split at hret
  · cases hret
  · exact Heap.allocLayout_dvd hinv hret

/-- What `posix_memalign` stores is what `aligned_alloc` returned. -/
theorem Heap.posixMemalign_dvd {memptr alignment size : Nat} (hinv : Inv full empty h.core L)
    (hcode : (h.posixMemalign t memptr alignment size).2 = 0)
    (hne : (h.posixMemalign t memptr alignment size).1.read memptr 8 ≠ 0) :
    max 16 alignment ∣ (h.posixMemalign t memptr alignment size).1.read memptr 8 := by
  rcases hm : h.posixMemalign t memptr alignment size with ⟨h', code⟩
  rw [hm] at hcode hne
  rcases Heap.posixMemalign_cases memptr hinv hm with
    ⟨hfailed, -⟩ | ⟨h₁, p, -, halloc, hreturns, rfl⟩
  · exact absurd hcode hfailed
  · cases p with
    | none => exact absurd (Mem.read_write (by decide)) hne
    | some q =>
        obtain ⟨full', empty', hinv'⟩ := hreturns.follows.inv
        have hword := (ptr_bound hinv' (List.mem_cons_self ..)).2
        have hread : (h₁.write memptr 8 (toPtr (some q))).read memptr 8 = q :=
          Mem.read_write hword
        rw [hread]
        exact Heap.alignedAlloc_dvd hinv (by rw [halloc])

/-- The pointer that a call of the C interface gives its caller. -/
def Label.returned (w : World) : Label → Option Nat
  | .malloc t size answers => ((w.enter answers).malloc t size).2
  | .calloc t nmemb size answers => ((w.enter answers).calloc t nmemb size).2
  | .realloc t ptr size answers => ((w.enter answers).realloc t ptr size).2
  | .alignedAlloc t alignment size answers => ((w.enter answers).alignedAlloc t alignment size).2
  | .posixMemalign t memptr alignment size answers =>
      let r := (w.enter answers).posixMemalign t memptr alignment size
      if r.2 = 0 ∧ r.1.read memptr 8 ≠ 0 then some (r.1.read memptr 8) else none
  | _ => none

/-- The alignment a call was asked for. -/
def Label.alignment : Label → Nat
  | .alignedAlloc _ alignment _ _ => alignment
  | .posixMemalign _ _ alignment _ _ => alignment
  | _ => 8

/--
**Every pointer is aligned.**  In every reachable state, whatever call of the C
interface is made by whatever thread, the pointer it returns or stores, if it is not
null, is a multiple of sixteen and of the alignment asked for.
-/
theorem returned_aligned (hw : (machine mem foreign).Reaches w) (l : Label) (p : Nat)
    (hp : l.returned w = some p) : max 16 l.alignment ∣ p := by
  obtain ⟨full, empty, hinv⟩ := reaches_good hw
  have hin : ∀ answers, Inv full empty (w.enter answers).core w.live := fun _ => hinv
  cases l with
  | malloc t size answers => exact Heap.malloc_dvd (hin answers) hp
  | calloc t nmemb size answers => exact Heap.calloc_dvd (hin answers) hp
  | realloc t ptr size answers => exact Heap.realloc_dvd (hin answers) hp
  | alignedAlloc t alignment size answers => exact Heap.alignedAlloc_dvd (hin answers) hp
  | posixMemalign t memptr alignment size answers =>
      obtain ⟨⟨hcode, hne⟩, hread⟩ := Option.ite_none_right_eq_some.mp hp
      rw [← Option.some.inj hread]
      exact Heap.posixMemalign_dvd (hin answers) hcode hne
  | alloc t layout answers => cases hp
  | dealloc t ptr answers => cases hp
  | free t ptr answers => cases hp
  | write addr byte => cases hp
  | foreign page mapped => cases hp

/-- A block that another thread freed, and a large alignment. -/
theorem returned_aligned_recycled : ∃ w, bare.exec bare.init
      [.malloc 0 40 [some 4096], .free 1 (some 4112) []] = some w ∧
    (Label.malloc 1 40 []).returned w = some 4112 ∧ 16 ∣ 4112 ∧
    (Label.alignedAlloc 0 8192 1 [some 12288]).returned w = some 16384 ∧ 8192 ∣ 16384 := by
  have hrun : (bare.exec bare.init [.malloc 0 40 [some 4096], .free 1 (some 4112) []]).map (fun w =>
      ((Label.malloc 1 40 []).returned w,
        (Label.alignedAlloc 0 8192 1 [some 12288]).returned w)) = some (some 4112, some 16384) := by
    decide +kernel
  obtain ⟨w, hw, hvals⟩ := Option.map_eq_some_iff.mp hrun
  obtain ⟨hsmall, hlarge⟩ := Prod.mk.inj hvals
  exact ⟨w, hw, hsmall, returned_aligned ⟨_, hw⟩ _ _ hsmall, hlarge,
    returned_aligned ⟨_, hw⟩ _ _ hlarge⟩

end Aethalloc.Abi
