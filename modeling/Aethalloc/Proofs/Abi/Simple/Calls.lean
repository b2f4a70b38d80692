/-
Calls in simple-cache mode, move by move.

Every stage of `alloc` leaves the invariant and lists within their limit: only a
thread whose list is empty takes blocks from the global list or from a fresh page,
and neither gives it more than 128.  `dealloc` puts the block in front of the
thread's list, and when that makes the list as long as the limit, the first half of
it goes to the global list: the walk stops at the last block of that half, and the
link of this one block is all that has to be written.
-/
import Aethalloc.Proofs.Abi.Simple.Moves

namespace Aethalloc.Abi.Simple

open Lib

variable {F : Shelf → List Nat} {h : Heap} {L : List Allocation} {a : Allocation}
  {s : Shelf} {l : List Nat} {t c b size align : Nat}

/-- The invariant holds, with every list within its limit. -/
def Settled (k : Core) (L : List Allocation) : Prop := ∃ F, Inv F k L ∧ Limited F

theorem Limited.cache (hlim : Limited F) (hl : l.length < MAX_FREE_LIST_LENGTH) :
    Limited (Function.update F (.cache t c) l) := by
  intro t' c'
  by_cases hs : Shelf.cache t' c' = .cache t c
  · rw [hs, Function.update_self]
    exact hl
  · rw [Function.update_of_ne hs]
    exact hlim t' c'

/-- The global lists have no limit. -/
theorem Limited.shared (hlim : Limited F) : Limited (Function.update F (.shared c) l) := by
  intro t' c'
  rw [Function.update_of_ne (by simp)]
  exact hlim t' c'

namespace Heap

/-! ### Lists -/

/-- Blocks go over from the global list in its order, each in front of the one before. -/
theorem popBatch_spec : ∀ (n : Nat) {h : Heap} {F : Shelf → List Nat}, Inv F h.core L →
    Inv (Function.update (Function.update F (.shared c) ((F (.shared c)).drop n)) (.cache t c)
        (((F (.shared c)).take n).reverse ++ F (.cache t c))) (popBatch t c n h).1.core L ∧
      (popBatch t c n h).2 = min n (F (.shared c)).length := by
  intro n
  induction n with
  | zero =>
      intro h F hinv
      refine ⟨?_, by simp [popBatch]⟩
      simp only [List.drop_zero, List.take_zero, List.reverse_nil, List.nil_append,
        Function.update_eq_self]
      exact hinv
  | succ n ih =>
      intro h F hinv
      have hchain := hinv.chains (.shared c)
      unfold popBatch GlobalFreeList.pop
      cases hhead : (h.globalFreeLists c).head with
      | none =>
          have hnil : F (.shared c) = [] := by
            have hnone : h.core.heads (.shared c) = none := hhead
            rw [hnone] at hchain
            exact hchain.eq_nil_of_none
          refine ⟨?_, by simp [hnil]⟩
          have hF : Function.update (Function.update F (.shared c) []) (.cache t c)
              (F (.cache t c)) = F := by
            rw [← hnil, Function.update_eq_self, Function.update_eq_self]
          simp only [hnil, List.drop_nil, List.take_nil, List.reverse_nil, List.nil_append, hF]
          exact hinv
      | some b =>
          have hsome : h.core.heads (.shared c) = some b := hhead
          rw [hsome] at hchain
          obtain ⟨g, hF, -⟩ := hchain.exists_cons_of_some
          have hmove := hinv.takeShared (t := t) hF
          rw [← Heap.core_setGlobal, ← core_pushLocal] at hmove
          obtain ⟨hrest, hcount⟩ := ih hmove
          have hshared : Function.update (Function.update F (.shared c) g) (.cache t c)
              (b :: F (.cache t c)) (.shared c) = g := by
            rw [Function.update_of_ne (by simp), Function.update_self]
          rw [hshared] at hrest hcount
          rw [Function.update_self] at hrest
          refine ⟨?_, ?_⟩
          · have hF' : Function.update (Function.update F (.shared c) ((b :: g).drop (n + 1)))
                (.cache t c) (((b :: g).take (n + 1)).reverse ++ F (.cache t c))
                  = Function.update (Function.update (Function.update (Function.update F (.shared c)
                    g) (.cache t c) (b :: F (.cache t c))) (.shared c) (g.drop n)) (.cache t c)
                      ((g.take n).reverse ++ b :: F (.cache t c)) := by
              have hne : Shelf.cache t c ≠ Shelf.shared c := by simp
              rw [Function.update_comm hne, Function.update_idem, Function.update_idem]
              simp
            rw [hF, hF']
            exact hrest
          · rw [hF, List.length_cons, Nat.add_min_add_right]
            exact congrArg (· + 1) hcount

/-- The blocks of a page, from the `i`-th on. -/
def pageBlocks (base bs i n : Nat) : List Nat := (List.range' i n).map fun j => base + j * bs

theorem mem_pageBlocks {base bs i n : Nat} :
    b ∈ pageBlocks base bs i n ↔ ∃ j, (i ≤ j ∧ j < i + n) ∧ b = base + j * bs := by
  unfold pageBlocks
  rw [List.mem_map]
  refine exists_congr fun j => ?_
  rw [List.mem_range'_1, eq_comm]

/-- Blocks that are at no place go to a thread's list one after the other. -/
theorem carveRest_fold {base bs : Nat} : ∀ (n i : Nat) {h : Heap} {F : Shelf → List Nat},
    Inv F h.core L → 0 < bs →
    (∀ j, i ≤ j → j < i + n → Carved h.core.arena.regions (base + j * bs) c ∧
      ∀ p, base + j * bs ∉ contents F L p) →
    Inv (Function.update F (.cache t c) ((pageBlocks base bs i n).reverse ++ F (.cache t c)))
      ((List.range' i n).foldl (fun h i =>
        let blockPtr := base + i * bs
        (h.carve c blockPtr).pushLocal t c blockPtr) h).core L := by
  intro n
  induction n with
  | zero =>
      intro i h F hinv _ _
      simp only [pageBlocks, List.range'_zero, List.map_nil, List.reverse_nil, List.nil_append,
        Function.update_eq_self]
      exact hinv
  | succ n ih =>
      intro i h F hinv hpos hfresh
      obtain ⟨hgrid, hnew⟩ := hfresh i (Nat.le_refl i) (by omega)
      have hmove := hinv.carveListed (t := t) hgrid hnew
      rw [← core_carve, ← core_pushLocal] at hmove
      have hrest := ih (i + 1) hmove hpos (fun j h1 h2 => ?_)
      · rw [Function.update_self, Function.update_idem] at hrest
        rw [List.range'_succ, List.foldl_cons]
        have hlist : (pageBlocks base bs i (n + 1)).reverse ++ F (.cache t c)
            = (pageBlocks base bs (i + 1) n).reverse ++ (base + i * bs) :: F (.cache t c) := by
          simp [pageBlocks, List.range'_succ]
        rw [hlist]
        exact hrest
      · obtain ⟨hgrid', hnew'⟩ := hfresh j (by omega) (by omega)
        refine ⟨hgrid', fun p hp => ?_⟩
        rw [contents_update] at hp
        by_cases hpc : p = .listed (.cache t c)
        · subst hpc
          rw [Function.update_self] at hp
          rcases List.mem_cons.mp hp with heq | hp
          · -- another block of the page
            have hmul : i * bs < j * bs := Nat.mul_lt_mul_of_pos_right (by omega) hpos
            omega
          · exact hnew' (.listed (.cache t c)) hp
        · rw [Function.update_of_ne hpc] at hp
          exact hnew' p hp

/-- Lists change, mappings do not. -/
theorem carveRest_regions {base bs n : Nat} :
    (h.carveRest t c base bs n).core.arena.regions = h.core.arena.regions := by
  unfold carveRest
  generalize List.range' 1 (n - 1) = is
  induction is generalizing h with
  | nil => rfl
  | cons i is ih =>
      rw [List.foldl_cons, ih]
      simp only
      rw [core_pushLocal, core_carve]
      rfl

/-! ### Allocating -/

/-- The first block of the thread's list is served. -/
theorem serve_settled (hinv : Inv F h.core L) (hlim : Limited F)
    (hreq : SmallRequest size align c) (hF : F (.cache t c) = b :: l) :
    Settled (h.serve t size c b).1.core (grow L (h.serve t size c b).2 size align) := by
  have hcore : (h.serve t size c b).1.core
      = { h.core.setMem (h.core.arena.mem.write b 8 size) with
        heads := Function.update h.core.heads (.cache t c) (Link.pointer.read h.core.arena.mem b)
        counts := Function.update h.core.counts (t, c) (h.core.counts (t, c) - 1) } := by
    unfold serve
    simp only
    rw [core_write, core_maybeFlush, core_updateMetrics, core_setList]
    rfl
  rw [hcore]
  refine ⟨_, hinv.serve hF hreq, hlim.cache ?_⟩
  have := hlim t c
  rw [hF, List.length_cons] at this
  omega

theorem allocSingle_eq {bs pages : Nat}
    (hpages : max ((bs + PAGE_SIZE - 1) / PAGE_SIZE) 1 = pages) :
    h.allocSingle t size bs c =
      match h.mapPages pages (.small c) with
      | (h, none) => (h, none)
      | (h, some base) =>
          (((h.carve c base).write base 8 size).maybeFlush t, some (base + CACHE_HEADER_SIZE)) := by
  subst hpages
  rfl

/-- Pages for one block, if they can be had. -/
theorem allocSingle_settled (hinv : Inv F h.core L) (hlim : Limited F)
    (hreq : SmallRequest size align c) :
    Settled (h.allocSingle t size (blockSize c) c).1.core
      (grow L (h.allocSingle t size (blockSize c) c).2 size align) := by
  have hpos := blockSize_pos c
  have hmax := blockSize_le hreq.lt
  obtain ⟨pages, hpages⟩ : ∃ pages, max ((blockSize c + PAGE_SIZE - 1) / PAGE_SIZE) 1 = pages :=
    ⟨_, rfl⟩
  obtain ⟨hne, hle, hlt⟩ := pages_bounds (by omega) hpages
  rw [allocSingle_eq hpages]
  rcases h.mapPages_cases pages (.small c) hne hlt with
    ⟨h', heq, hcore⟩ | ⟨h', base, heq, hfree, hcore⟩
  · rw [heq]
    show Settled h'.core L
    rw [hcore]
    exact ⟨F, hinv, hlim⟩
  · rw [heq]
    have hmap := hinv.map (.small c) hfree hne (hreq.purpose hle)
    have hgrid : Carved (h.core.arena.map base pages (.small c)).regions base c :=
      carved_map_first hle
    have hnew := hinv.fresh_nowhere hfree hne ⟨Nat.le_refl base, by omega⟩
    show Settled (((h'.carve c base).write base 8 size).maybeFlush t).core (_ :: L)
    rw [core_maybeFlush, core_write, core_carve, hcore]
    exact ⟨F, hmap.carveLive hreq hgrid hnew, hlim⟩

/-- A page of blocks: the first is served, the others go to the thread's list. -/
theorem carvePage_settled {base : Nat} {h' : Heap} (hinv : Inv F h.core L) (hlim : Limited F)
    (hreq : SmallRequest size align c) (hfree : h.core.arena.Free base 1)
    (hcore : h'.core = { h.core with arena := h.core.arena.map base 1 (.small c) })
    (hempty : F (.cache t c) = []) (hmany : 1 < PAGE_SIZE / blockSize c) :
    Settled ((((h'.carveRest t c base (blockSize c) (PAGE_SIZE / blockSize c)).carve c base).write
        base 8 size).maybeFlush t).core
      ({ ptr := base + CACHE_HEADER_SIZE, size := size, align := align } :: L) := by
  have hpos := blockSize_pos c
  obtain ⟨n, hn⟩ : ∃ n, PAGE_SIZE / blockSize c = n + 1 := ⟨PAGE_SIZE / blockSize c - 1, by omega⟩
  have hfit : (n + 1) * blockSize c ≤ PAGE_SIZE := by
    rw [← hn]
    exact Nat.div_mul_le_self _ _
  have hrange : ∀ j ≤ n, base + j * blockSize c + blockSize c ≤ base + PAGE_SIZE := by
    intro j hj
    have : (j + 1) * blockSize c ≤ (n + 1) * blockSize c := Nat.mul_le_mul_right _ (by omega)
    rw [Nat.succ_mul] at this
    omega
  have hmap : Inv F h'.core L := by
    rw [hcore]
    have hfirst := hrange 0 (Nat.zero_le n)
    exact hinv.map (.small c) hfree (by decide) (hreq.purpose (by omega))
  -- every block of the page is in its grid and at no place yet
  have hfresh : ∀ j ≤ n, Carved h'.core.arena.regions (base + j * blockSize c) c ∧
      ∀ p, base + j * blockSize c ∉ contents F L p := by
    intro j hj
    have hj' := hrange j hj
    refine ⟨?_, hinv.fresh_nowhere hfree (by decide) ⟨Nat.le_add_right _ _, by omega⟩⟩
    rw [hcore]
    refine carved_map ?_
    rw [Nat.succ_mul]
    omega
  have hrest := carveRest_fold (t := t) n 1 hmap (by omega) fun j h1 h2 => hfresh j (by omega)
  obtain ⟨hgrid, hnew⟩ := hfresh 0 (Nat.zero_le n)
  rw [Nat.zero_mul, Nat.add_zero] at hgrid hnew
  have hnew' : ∀ p, base ∉ contents (Function.update F (.cache t c)
      ((pageBlocks base (blockSize c) 1 n).reverse ++ F (.cache t c))) L p := by
    intro p hp
    rw [contents_update] at hp
    by_cases hpc : p = .listed (.cache t c)
    · subst hpc
      rw [Function.update_self, List.mem_append, List.mem_reverse] at hp
      rcases hp with hp | hp
      · obtain ⟨j, ⟨h1, -⟩, hj⟩ := mem_pageBlocks.mp hp
        have : 1 * blockSize c ≤ j * blockSize c := Nat.mul_le_mul_right _ h1
        omega
      · exact hnew (.listed (.cache t c)) hp
    · rw [Function.update_of_ne hpc] at hp
      exact hnew p hp
  have hregions : (h'.carveRest t c base (blockSize c) (n + 1)).core.arena.regions
      = h'.core.arena.regions := carveRest_regions
  rw [core_maybeFlush, core_write, core_carve, hn]
  have hgrid' : Carved (h'.carveRest t c base (blockSize c) (n + 1)).core.arena.regions base c := by
    rw [hregions]
    exact hgrid
  refine ⟨_, Inv.carveLive hrest hreq hgrid' hnew', hlim.cache ?_⟩
  -- a page has at most 128 blocks
  have hsmall : n < 4096 := by
    have : n * 32 ≤ n * blockSize c := Nat.mul_le_mul_left n hpos
    rw [Nat.succ_mul] at hfit
    unfold PAGE_SIZE at hfit
    omega
  rw [hempty, List.append_nil, List.length_reverse]
  unfold pageBlocks MAX_FREE_LIST_LENGTH
  rw [List.length_map, List.length_range']
  exact hsmall

theorem allocMiss_settled (hinv : Inv F h.core L) (hlim : Limited F)
    (hreq : SmallRequest size align c) (hempty : F (.cache t c) = []) :
    Settled (h.allocMiss t size (classSize c) c).1.core
      (grow L (h.allocMiss t size (classSize c) c).2 size align) := by
  unfold allocMiss
  generalize hh₀ : (h.updateMetrics t ThreadMetrics.countMiss) = h₀
  have hcore₀ : h₀.core = h.core := by
    rw [← hh₀]
    exact core_updateMetrics
  have hinv₀ : Inv F h₀.core L := by
    rw [hcore₀]
    exact hinv
  have hbs : classSize c + CACHE_HEADER_SIZE = blockSize c := rfl
  simp only [hbs]
  split
  · rename_i hmany
    rcases h₀.mapPages_cases 1 (.small c) (by decide) (by decide) with
      ⟨h', heq, hcore⟩ | ⟨h', base, heq, hfree, hcore⟩
    · rw [heq]
      have hinv' : Inv F h'.core L := by
        rw [hcore]
        exact hinv₀
      exact allocSingle_settled hinv' hlim hreq
    · rw [heq]
      exact carvePage_settled hinv₀ hlim hreq hfree hcore hempty hmany
  · exact allocSingle_settled hinv₀ hlim hreq

theorem allocGlobal_settled (hinv : Inv F h.core L) (hlim : Limited F)
    (hreq : SmallRequest size align c) (hempty : F (.cache t c) = []) :
    Settled (h.allocGlobal t size (classSize c) c).1.core
      (grow L (h.allocGlobal t size (classSize c) c).2 size align) := by
  unfold allocGlobal
  cases hhead : (h.globalFreeLists c).head with
  | none => exact allocMiss_settled hinv hlim hreq hempty
  | some b =>
      have hchain := hinv.chains (.shared c)
      have hsome : h.core.heads (.shared c) = some b := hhead
      rw [hsome] at hchain
      obtain ⟨g, hF, -⟩ := hchain.exists_cons_of_some
      obtain ⟨hbatch, hcount⟩ := popBatch_spec (t := t) (c := c) GLOBAL_FREE_BATCH hinv
      rw [hempty, List.append_nil] at hbatch
      generalize hl : ((F (.shared c)).take GLOBAL_FREE_BATCH).reverse = l at hbatch
      have hlen : l.length = min GLOBAL_FREE_BATCH (F (.shared c)).length := by
        rw [← hl, List.length_reverse, List.length_take]
      rw [hF, List.length_cons] at hcount hlen
      have hbound : 0 < l.length ∧ l.length ≤ 128 := by
        unfold GLOBAL_FREE_BATCH at hlen
        omega
      simp only
      have htaken : 0 < (popBatch t c GLOBAL_FREE_BATCH h).2 := by
        rw [hcount]
        exact Nat.lt_min.mpr ⟨by decide, Nat.succ_pos _⟩
      rw [if_pos htaken]
      cases l with
      | nil => exact absurd hbound.1 (by simp)
      | cons b' l' =>
          generalize (popBatch t c GLOBAL_FREE_BATCH h).1 = h' at hbatch ⊢
          have hlist : Function.update (Function.update F (.shared c)
              ((F (.shared c)).drop GLOBAL_FREE_BATCH)) (.cache t c) (b' :: l') (.cache t c)
                = b' :: l' := Function.update_self ..
          have hhead' : (h'.threads t).heads c = some b' := by
            have hchain' := hbatch.chains (.cache t c)
            rw [hlist, Chain.cons_iff] at hchain'
            exact hchain'.1
          have hlim' : Limited (Function.update (Function.update F (.shared c)
              ((F (.shared c)).drop GLOBAL_FREE_BATCH)) (.cache t c) (b' :: l')) := by
            refine hlim.shared.cache ?_
            unfold MAX_FREE_LIST_LENGTH
            omega
          rw [hhead']
          exact serve_settled hbatch hlim' hreq hlist

theorem allocSmall_settled (hinv : Inv F h.core L) (hlim : Limited F)
    (hreq : SmallRequest size align c) :
    Settled (h.allocSmall t size (classSize c) c).1.core
      (grow L (h.allocSmall t size (classSize c) c).2 size align) := by
  have hchain := hinv.chains (.cache t c)
  unfold allocSmall
  cases hhead : (h.threads t).heads c with
  | none =>
      have hnone : h.core.heads (.cache t c) = none := hhead
      rw [hnone] at hchain
      exact allocGlobal_settled hinv hlim hreq hchain.eq_nil_of_none
  | some b =>
      have hsome : h.core.heads (.cache t c) = some b := hhead
      rw [hsome] at hchain
      obtain ⟨l, hF, -⟩ := hchain.exists_cons_of_some
      exact serve_settled hinv hlim hreq hF

theorem allocLarge_eq {pages : Nat} {h₀ : Heap} (hh₀ : (h.updateMetrics t ThreadMetrics.countDirect).maybeFlush t = h₀)
    (hpages : max ((32 + size + align + PAGE_SIZE - 1) / PAGE_SIZE) 1 = pages) :
    h.allocLarge t size align =
      match h₀.mapPages pages .large with
      | (h, none) => (h, none)
      | (h, some base) =>
          (((((h.write base 4 MAGIC).write (base + 4) 4 pages).write (base + 8) 8 size).write
            (alignUp (base + 32) align - LARGE_HEADER_SIZE) 4 LARGE_MAGIC).write
              (alignUp (base + 32) align - LARGE_HEADER_SIZE + 8) 8 base,
            some (alignUp (base + 32) align)) := by
  subst hh₀ hpages
  rfl

theorem allocLarge_settled (hinv : Inv F h.core L) (hlim : Limited F) (hsize : 0 < size)
    (hlarge : ¬ (size ≤ MAX_CACHE_SIZE ∧ align ≤ 8)) (hpow : align.isPowerOfTwo)
    (hbound : size + align ≤ 2 ^ 63) :
    Settled (h.allocLarge t size align).1.core
      (grow L (h.allocLarge t size align).2 size align) := by
  obtain ⟨h₀, hh₀⟩ : ∃ h₀, (h.updateMetrics t ThreadMetrics.countDirect).maybeFlush t = h₀ :=
    ⟨_, rfl⟩
  obtain ⟨pages, hpages⟩ : ∃ pages,
      max ((32 + size + align + PAGE_SIZE - 1) / PAGE_SIZE) 1 = pages := ⟨_, rfl⟩
  have hcore₀ : h₀.core = h.core := by
    rw [← hh₀, core_maybeFlush, core_updateMetrics]
  obtain ⟨hne, hle, hlt⟩ := pages_bounds (by omega) hpages
  rw [allocLarge_eq hh₀ hpages]
  rcases h₀.mapPages_cases pages .large hne hlt with
    ⟨h', heq, hcore⟩ | ⟨h', base, heq, hfree, hcore⟩
  · rw [heq]
    show Settled h'.core L
    rw [hcore, hcore₀]
    exact ⟨F, hinv, hlim⟩
  · rw [heq]
    rw [hcore₀] at hfree
    obtain ⟨hlow, hhigh⟩ := user_bounds hfree.2.2.1 hle hpow
    refine ⟨F, ?_, hlim⟩
    simp only [core_write, hcore, hcore₀]
    exact hinv.gainLarge align hfree hne hsize hlarge hlow hhigh

theorem alloc_settled (hinv : Inv F h.core L) (hlim : Limited F) (layout : Layout) :
    Settled (h.alloc t layout).1.core (grow L (h.alloc t layout).2 layout.size layout.align) := by
  unfold alloc
  simp only
  split
  · exact ⟨F, hinv, hlim⟩
  · rename_i hsize
    have hpos : 0 < layout.size := Nat.pos_of_ne_zero hsize
    split
    · rename_i hsmall
      obtain ⟨c, hc, hclass, hround, -⟩ := classOf_spec hpos hsmall.1
      have hcls : sizeToClass (max (roundUpPow2 layout.size) 16) = some c := hclass
      rw [hcls, hround]
      exact allocSmall_settled hinv hlim ⟨hpos, hsmall, hclass, hc⟩
    · rename_i hlarge
      exact allocLarge_settled hinv hlim hpos hlarge layout.isPow2 layout.bound

/-! ### Freeing -/

/-- With the last block of the batch found, flushing is one move of the core. -/
theorem core_flush (htail : follow h.readLink ((h.threads t).counts c / 2 - 1)
      ((h.threads t).heads c) = some b) :
    (h.flush t c).core
      = h.core.flush t c b ((h.threads t).counts c - (h.threads t).counts c / 2) := by
  unfold flush
  simp only [htail]
  generalize hh' : (h.writeLink b none).setList t c (h.readLink b)
    ((h.threads t).counts c - (h.threads t).counts c / 2) = h'
  have hcore : h'.core = { h.core.setMem (Link.pointer.write h.core.arena.mem b none) with
      heads := Function.update h.core.heads (.cache t c) (Link.pointer.read h.core.arena.mem b)
      counts := Function.update h.core.counts (t, c)
        ((h.threads t).counts c - (h.threads t).counts c / 2) } := by
    rw [← hh', core_setList]
    rfl
  have hshared : (h'.globalFreeLists c).head = h.core.heads (.shared c) := by
    rw [← hh']
    rfl
  have hmem : h'.sys.mem = Link.pointer.write h.core.arena.mem b none := by
    rw [← hh']
    rfl
  refine (core_setGlobal (h := h'.setMem (Link.pointer.write h'.sys.mem b
    (h'.globalFreeLists c).head))).trans ?_
  rw [core_setMem, hcore, hshared, hmem]
  rfl

/-- The first half of a thread's list goes to the global list. -/
theorem flush_inv (hinv : Inv F h.core L) (hl : F (.cache t c) = l) (hlen : 2 ≤ l.length) :
    Inv (Function.update (Function.update F (.cache t c) (l.drop (l.length / 2))) (.shared c)
      (l.take (l.length / 2) ++ F (.shared c))) (h.flush t c).core L := by
  obtain ⟨n, hn⟩ : ∃ n, l.length / 2 = n + 1 := ⟨l.length / 2 - 1, by omega⟩
  have hlt : n < l.length := by omega
  -- the walk ends at the block with `n` others before it
  have hsplit : F (.cache t c) = l.take n ++ l.get ⟨n, hlt⟩ :: l.drop (n + 1) := by
    rw [hl]
    simp
  have hcount : (h.threads t).counts c = l.length := by
    rw [← hl]
    exact hinv.counts t c
  have hchain := hinv.chains (.cache t c)
  rw [hsplit] at hchain
  have htail : follow h.readLink ((h.threads t).counts c / 2 - 1) ((h.threads t).heads c)
      = some (l.get ⟨n, hlt⟩) := by
    have hwalk := hchain.follow_append
    rw [List.length_take_of_le (Nat.le_of_lt hlt)] at hwalk
    rw [hcount, hn]
    exact hwalk
  have hmove := hinv.flush hsplit
  have hbatch : l.take (n + 1) ++ F (.shared c)
      = l.take n ++ l.get ⟨n, hlt⟩ :: F (.shared c) := by
    rw [List.take_succ_eq_append_getElem hlt, List.append_assoc]
    rfl
  have hrest : (l.drop (n + 1)).length = l.length - (n + 1) := List.length_drop
  rw [core_flush htail, hcount, hn, hbatch, ← hrest]
  exact hmove

end Heap

/-- The lists after a block was freed: it is in front of the thread's list, and a list that has
become too long has given its first half to the global list. -/
def freed (F : Shelf → List Nat) (t c b : Nat) : Shelf → List Nat :=
  let l := b :: F (.cache t c)
  if l.length < MAX_FREE_LIST_LENGTH then
    Function.update F (.cache t c) l
  else
    Function.update (Function.update F (.cache t c) (l.drop (l.length / 2))) (.shared c)
      (l.take (l.length / 2) ++ F (.shared c))

theorem Limited.freed (hlim : Limited F) (t c b : Nat) : Limited (freed F t c b) := by
  have hlen := hlim t c
  unfold Simple.freed
  simp only
  split
  · rename_i hshort
    exact hlim.cache hshort
  · refine Limited.shared (hlim.cache ?_)
    rw [List.length_drop, List.length_cons]
    unfold MAX_FREE_LIST_LENGTH at *
    omega

namespace Heap

theorem deallocSmall_inv (hinv : Inv F h.core (a :: L)) (hs : a.Small)
    (hclass : classOf a.size = some c) :
    Inv (freed F t c a.block) (h.deallocSmall t c a.block).core L := by
  have hpush : Inv (Function.update F (.cache t c) (a.block :: F (.cache t c)))
      ((h.pushLocal t c a.block).countFree t).core L := by
    rw [core_countFree, core_pushLocal]
    exact hinv.free hs hclass
  have hcount : (((h.pushLocal t c a.block).countFree t).threads t).counts c
      = (a.block :: F (.cache t c)).length := by
    have := hpush.counts t c
    rw [Function.update_self] at this
    exact this
  unfold deallocSmall freed
  simp only
  rw [hcount]
  by_cases hlong : (a.block :: F (.cache t c)).length ≥ MAX_FREE_LIST_LENGTH
  · rw [if_pos hlong, if_neg (by omega)]
    have hflush := flush_inv hpush (Function.update_self ..)
      (by unfold MAX_FREE_LIST_LENGTH at hlong; omega)
    rw [Function.update_idem, Function.update_of_ne (by simp)] at hflush
    exact hflush
  · rw [if_neg hlong, if_pos (by omega)]
    exact hpush

/-- A small block goes to the lists of its class. -/
theorem dealloc_small (hinv : Inv F h.core L) (ha : a ∈ L) (hs : a.Small)
    (hclass : classOf a.size = some c) :
    h.dealloc t (some a.ptr) = h.deallocSmall t c a.block := by
  obtain ⟨hword, hlarge, hmagic⟩ := hinv.ground.header_word ha hs
  have hread : h.read (a.ptr - CACHE_HEADER_SIZE) 8 = a.size := hword
  have hheader : h.headerClass a.ptr = some c := by
    unfold headerClass
    simp only
    rw [if_pos ⟨by rw [hread]; exact hinv.ground.lives.pos a ha, by rw [hread]; exact hs.1, hmagic⟩,
      hread]
    exact hclass
  have hlarge' : h.read (a.ptr - LARGE_HEADER_SIZE) 4 ≠ LARGE_MAGIC := hlarge
  unfold dealloc
  simp only
  rw [if_neg hlarge', hheader]
  rfl

/-- A large allocation ends with its lists as they were. -/
theorem dealloc_large (hinv : Inv F h.core (a :: L)) (hs : ¬ a.Small) :
    Inv F (h.dealloc t (some a.ptr)).core L := by
  obtain ⟨r, hr, -⟩ := hinv.ground.large_region (List.mem_cons_self ..) hs
  have hmagic : h.read (a.ptr - LARGE_HEADER_SIZE) 4 = LARGE_MAGIC := hr.magic
  have hbase : h.read (a.ptr - LARGE_HEADER_SIZE + 8) 8 = r.base := hr.basePtr
  have hpage : h.read r.base 4 = MAGIC := hr.pageMagic
  have hnum : h.read (r.base + 4) 4 = r.pages % 2 ^ 32 := hr.numPages
  obtain ⟨hstays, hgone⟩ := hinv.loseLarge hs hr (Nat.mod_le r.pages (2 ^ 32))
  unfold dealloc
  simp only
  rw [if_pos hmagic, core_countFree, hbase]
  unfold unmapHeader
  rw [hpage, hnum]
  split
  · rename_i hpos
    obtain ⟨-, hal, -, -⟩ := hinv.ground.regions.page r hr.region
    have hlt : r.pages % 2 ^ 32 < 2 ^ 32 := Nat.mod_lt _ (by decide)
    rw [unmapPages_core (by omega) hal (by unfold PAGE_SIZE; omega)]
    exact hgone
  · exact hstays

theorem dealloc_settled (hinv : Inv F h.core L) (hlim : Limited F) (ha : a ∈ L) :
    Settled (h.dealloc t (some a.ptr)).core (drop L (some a.ptr)) := by
  have hinv' := hinv.perm (hinv.ground.perm_drop ha)
  by_cases hs : a.Small
  · obtain ⟨c, -, hclass, -⟩ := hinv.ground.small_block ha hs
    rw [dealloc_small hinv ha hs hclass]
    exact ⟨_, deallocSmall_inv hinv' hs hclass, hlim.freed t c a.block⟩
  · exact ⟨F, dealloc_large hinv' hs, hlim⟩

end Heap

end Aethalloc.Abi.Simple
