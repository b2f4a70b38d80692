/-
The thread-local cache maps and unmaps in balance.

Every mapping the cache has made and not given up is a block that is live or on one
of the lists, and its pages are those of its slot.  The slot of a block never
changes: it can be computed from any size it was ever handed out for, and so can
its pages, in either of the two ways the code does it.
-/
import Mathlib.Data.List.Pairwise
import Aethalloc.Lib.Bins
import Aethalloc.Core.ThreadLocal
import Aethalloc.Proofs.Page
import Aethalloc.Proofs.SizeClass

namespace Aethalloc.ThreadLocal

open Lib
open ThreadLocalCache (getSlot)
open Heap (slots)

variable {F : Index → List Nat} {w w' : World} {h h' : Heap} {s : Index} {a : Allocation}
  {ptr size : Nat}

/-! ### Slots and sizes -/

/-- The pages of a slot's blocks. -/
def Index.pages (s : Index) : Nat := divCeil s.sizeForIndex PAGE_SIZE

/-- Every slot has one page or two, and that is enough. -/
theorem pages_of_slot : ∀ s ∈ slots, 0 < s.pages ∧ s.pages ≤ 2 ∧
    s.sizeForIndex ≤ s.pages * PAGE_SIZE := by decide

theorem getSlot_tiny {k : Nat} (hsize : size ≤ 128) (hround : roundUpPow2 size = 2 ^ k)
    (hk : k < 8) : getSlot size = some { isTiny := true, idx := k - 4 } := by
  have hclass : SizeClass.classify size = .tiny := by
    unfold SizeClass.classify
    rw [if_pos hsize, ite_self]
  unfold getSlot
  rw [hclass, hround]
  clear hround hclass
  revert k
  decide

theorem getSlot_small {k : Nat} (hlow : 128 < size) (hsize : size ≤ 8192)
    (hround : roundUpPow2 size = 2 ^ k) (hk : 7 < k) (hk' : k < 14) :
    getSlot size = some { isTiny := false, idx := k - 8 } := by
  have hclass : SizeClass.classify size = .small := by
    unfold SizeClass.classify
    rw [if_neg (by omega), if_neg (by omega), if_pos hsize]
  unfold getSlot
  rw [hclass, hround]
  clear hround hclass hlow hsize
  obtain ⟨j, rfl⟩ : ∃ j, k = j + 8 := ⟨k - 8, by omega⟩
  have hj : j < 6 := by omega
  clear hk hk'
  revert j
  decide

/-- Every size up to 8 KB has a slot, told from the power of two it is rounded to. -/
theorem getSlot_cases (hle : size ≤ 8192) : ∃ k, size ≤ 2 ^ k ∧ roundUpPow2 size = 2 ^ k ∧
    ((k < 8 ∧ getSlot size = some { isTiny := true, idx := k - 4 }) ∨
      (7 < k ∧ k < 14 ∧ getSlot size = some { isTiny := false, idx := k - 8 })) := by
  by_cases hzero : size = 0
  · subst hzero
    have hround : roundUpPow2 0 = 2 ^ 0 := by decide
    exact ⟨0, Nat.zero_le _, hround,
      Or.inl ⟨by decide, getSlot_tiny (by decide) hround (by decide)⟩⟩
  · obtain ⟨k, hk, hk'⟩ := exists_two_pow hzero
    have hk14 : k < 14 := by
      by_contra hc
      have : 2 ^ 14 ≤ 2 ^ k := Nat.pow_le_pow_right (by decide) (by omega)
      omega
    have hround := roundUpPow2_eq (by omega) hk hk'
    refine ⟨k, hk, hround, ?_⟩
    rcases Nat.lt_or_ge 128 size with hlow | hlow
    · have hk7 : 7 < k := by
        by_contra hc
        have : 2 ^ k ≤ 2 ^ 7 := Nat.pow_le_pow_right (by decide) (by omega)
        omega
      exact Or.inr ⟨hk7, hk14, getSlot_small hlow hle hround hk7 hk14⟩
    · have hk8 : k < 8 := by
        by_contra hc
        have : 2 ^ 8 ≤ 2 ^ k := Nat.pow_le_pow_right (by decide) (by omega)
        omega
      exact Or.inl ⟨hk8, getSlot_tiny hlow hround hk8⟩

/-- And no other size has one. -/
theorem le_of_getSlot (hslot : getSlot size = some s) : size ≤ 8192 := by
  by_contra hc
  have hnone : getSlot size = none := by
    unfold getSlot SizeClass.classify
    rw [if_neg (by omega), if_neg (by omega), if_neg (by omega)]
    by_cases hmedium : size ≤ 256 * 1024
    · rw [if_pos hmedium]
    · rw [if_neg hmedium]
  rw [hnone] at hslot
  cases hslot

/-- A slot's blocks are large enough for every size it is chosen for, and rounding that size leads
to the same pages. -/
theorem getSlot_spec (hslot : getSlot size = some s) :
    s ∈ slots ∧ size ≤ s.sizeForIndex ∧ divCeil (roundUpPow2 size) PAGE_SIZE = s.pages := by
  have htiny : ∀ k < 8, ({ isTiny := true, idx := k - 4 } : Index) ∈ slots ∧
      2 ^ k ≤ ({ isTiny := true, idx := k - 4 } : Index).sizeForIndex ∧
      divCeil (2 ^ k) PAGE_SIZE = ({ isTiny := true, idx := k - 4 } : Index).pages := by decide
  have hsmall : ∀ j < 6, ({ isTiny := false, idx := j } : Index) ∈ slots ∧
      2 ^ (j + 8) ≤ ({ isTiny := false, idx := j } : Index).sizeForIndex ∧
      divCeil (2 ^ (j + 8)) PAGE_SIZE = ({ isTiny := false, idx := j } : Index).pages := by decide
  obtain ⟨k, hle, hround, ⟨hk, htiny'⟩ | ⟨hk7, hk, hsmall'⟩⟩ := getSlot_cases (le_of_getSlot hslot)
  · obtain rfl := Option.some.inj (htiny'.symm.trans hslot)
    obtain ⟨hmem, hsize, hpages⟩ := htiny k hk
    exact ⟨hmem, hle.trans hsize, by rw [hround]; exact hpages⟩
  · obtain rfl := Option.some.inj (hsmall'.symm.trans hslot)
    obtain ⟨hmem, hsize, hpages⟩ := hsmall (k - 8) (by omega)
    rw [show k - 8 + 8 = k by omega] at hsize hpages
    exact ⟨hmem, hle.trans hsize, by rw [hround]; exact hpages⟩

namespace ThreadLocalCache

variable {c : ThreadLocalCache} {v : CacheSlot} {s' : Index}

@[simp] theorem slot_setSlot_self : (c.setSlot s v).slot s = v := by
  obtain ⟨isTiny, idx⟩ := s
  cases isTiny with
  | true => simp [slot, setSlot]
  | false => simp [slot, setSlot]

theorem slot_setSlot_of_ne (hne : s' ≠ s) : (c.setSlot s v).slot s' = c.slot s' := by
  obtain ⟨isTiny, idx⟩ := s
  obtain ⟨isTiny', idx'⟩ := s'
  cases isTiny <;> cases isTiny' <;> simp [slot, setSlot] at hne ⊢
  · rw [Function.update_of_ne hne]
  · rw [Function.update_of_ne hne]

@[simp] theorem setSlot_setSlot {v' : CacheSlot} :
    (c.setSlot s v).setSlot s v' = c.setSlot s v' := by
  obtain ⟨isTiny, idx⟩ := s
  cases isTiny with
  | true => simp [setSlot]
  | false => simp [setSlot]

@[simp] theorem setSlot_slot : c.setSlot s (c.slot s) = c := by
  obtain ⟨isTiny, idx⟩ := s
  cases isTiny with
  | true => simp [slot, setSlot]
  | false => simp [slot, setSlot]

end ThreadLocalCache

/-! ### Mappings -/

namespace Mapping

/-- The page is one of the mapping's. -/
def Has (m : Mapping) (page : Nat) : Prop :=
  m.base / PAGE_SIZE ≤ page ∧ page < m.base / PAGE_SIZE + m.pages

def Apart (m m' : Mapping) : Prop := ∀ page, ¬ (m.Has page ∧ m'.Has page)

end Mapping

/-- The list is what the kernel has mapped. -/
structure Maps (sys : System) (M : List Mapping) : Prop where
  page : ∀ m ∈ M, m.base ≠ 0 ∧ m.base % PAGE_SIZE = 0 ∧ m.pages ≠ 0 ∧
    m.base + m.pages * PAGE_SIZE ≤ 2 ^ 64
  apart : M.Pairwise Mapping.Apart
  mapped : ∀ page, sys.mapped page = true ↔ ∃ m ∈ M, m.Has page
  own : ∀ page, sys.mapped page = true → sys.foreign page = false

namespace Maps

variable {sys : System} {M : List Mapping} {m m' : Mapping} {page base pages : Nat}

theorem unique (hM : Maps sys M) (hm : m ∈ M) (hm' : m' ∈ M) (hpage : m.Has page)
    (hpage' : m'.Has page) : m = m' := by
  by_contra hne
  have : Std.Symm Mapping.Apart := ⟨fun _ _ hap q hq => hap q hq.symm⟩
  exact hM.apart.forall hm hm' hne page ⟨hpage, hpage'⟩

theorem has_base (hM : Maps sys M) (hm : m ∈ M) : m.Has (m.base / PAGE_SIZE) := by
  obtain ⟨-, -, hpos, -⟩ := hM.page m hm
  unfold Mapping.Has
  omega

theorem eq_of_base (hM : Maps sys M) (hm : m ∈ M) (hm' : m' ∈ M) (hbase : m.base = m'.base) :
    m = m' := by
  have hhas := hM.has_base hm
  rw [hbase] at hhas
  exact hM.unique hm hm' hhas (hM.has_base hm')

/-- The bytes of a mapping are on its pages. -/
theorem has_div (hM : Maps sys M) (hm : m ∈ M) {x : Nat} (h1 : m.base ≤ x)
    (h2 : x < m.base + m.pages * PAGE_SIZE) : m.Has (x / PAGE_SIZE) := by
  obtain ⟨-, hal, -, -⟩ := hM.page m hm
  unfold Mapping.Has
  unfold PAGE_SIZE at *
  omega

theorem map (hM : Maps sys M) (hpos : pages ≠ 0) (hfree : sys.FreePages base pages) (mem : Mem)
    (rest : List (Option Nat)) :
    Maps { sys with
      mem := mem
      mapped := sys.setPages base pages true
      answers := rest } ({ base := base, pages := pages } :: M) := by
  refine ⟨fun m hm => ?_, List.pairwise_cons.mpr ⟨fun m hm q hq => ?_, hM.apart⟩, fun q => ?_,
    hfree.own hM.own⟩
  · obtain ⟨hnz, hal, hend, -⟩ := hfree
    rcases List.mem_cons.mp hm with rfl | hm
    · exact ⟨hnz, hal, hpos, hend⟩
    · exact hM.page m hm
  · have hunmapped := (hfree.fresh hq.1).1
    rw [(hM.mapped q).mpr ⟨m, hm, hq.2⟩] at hunmapped
    exact absurd hunmapped (by decide)
  · refine System.setPages_true_iff.trans ?_
    rw [List.exists_mem_cons_iff, hM.mapped q]
    rfl

theorem unmap (hM : Maps sys M) (hm : { base := base, pages := pages } ∈ M) :
    Maps { sys with mapped := sys.setPages base pages false } (M.filter (·.base ≠ base)) := by
  have hmem : ∀ m, m ∈ M.filter (·.base ≠ base) ↔ m ∈ M ∧ m.base ≠ base := by
    intro m
    simp
  refine ⟨fun m hm' => hM.page m (List.mem_of_mem_filter hm'), hM.apart.filter _, fun q => ?_,
    fun q hq => ?_⟩
  · refine System.setPages_false_iff.trans ?_
    rw [hM.mapped q]
    constructor
    · rintro ⟨hout, m, hm', hhas⟩
      refine ⟨m, (hmem m).mpr ⟨hm', fun hc => ?_⟩, hhas⟩
      have heq : m = { base := base, pages := pages } := hM.eq_of_base hm' hm hc
      rw [heq] at hhas
      exact hout hhas
    · rintro ⟨m, hm', hhas⟩
      obtain ⟨hm', hne⟩ := (hmem m).mp hm'
      refine ⟨fun hin => ?_, m, hm', hhas⟩
      have heq := hM.unique hm hm' hin hhas
      rw [← heq] at hne
      exact hne rfl
  · exact hM.own q (System.setPages_false_iff.mp hq).2

end Maps

/-! ### The invariant -/

/-- The blocks, by where they are: with the client, or on the list of a slot. -/
def bins (F : Index → List Nat) (L : List Allocation) : Option Index → List Nat
  | none => L.map Allocation.ptr
  | some s => F s

structure Inv (F : Index → List Nat) (w : World) : Prop where
  maps : Maps w.heap.sys w.heap.mappings
  exclusive : Exclusive (bins F w.live)
  live : ∀ a ∈ w.live, ∃ s, getSlot a.size = some s ∧
    { base := a.ptr, pages := s.pages } ∈ w.heap.mappings
  cached : ∀ s, ∀ b ∈ F s, s ∈ slots ∧ { base := b, pages := s.pages } ∈ w.heap.mappings
  held : ∀ m ∈ w.heap.mappings, Held (fun _ => ()) (bins F w.live) m.base ()
  chain : ∀ s, Chain (Link.pointer.read w.heap.sys.mem) (w.heap.cache.slot s).head (F s)
  count : ∀ s, (w.heap.cache.slot s).count = (F s).length ∧ (F s).length ≤ CACHE_SIZE
  unmaps : ∀ u ∈ w.heap.unmaps, u.made = some u.pages

theorem bins_update_free {l : List Nat} {L : List Allocation} :
    bins (Function.update F s l) L = Function.update (bins F L) (some s) l := by
  funext p
  cases p with
  | none => rfl
  | some s' =>
      by_cases hs : s' = s
      · subst hs
        simp [bins]
      · rw [Function.update_of_ne (fun hc => hs (Option.some.inj hc))]
        exact Function.update_of_ne hs _ _

theorem bins_update_live {L L' : List Allocation} :
    bins F L' = Function.update (bins F L) none (L'.map Allocation.ptr) := by
  funext p
  cases p with
  | none => rw [Function.update_self]; rfl
  | some s' => rw [Function.update_of_ne (by simp)]; rfl

namespace Inv

/-- A cached block and what it needs of its mapping. -/
theorem block (hinv : Inv F w) {b : Nat} (hb : b ∈ F s) :
    b ≠ 0 ∧ b + PAGE_SIZE ≤ 2 ^ 64 ∧ b % PAGE_SIZE = 0 ∧
      ∀ x, b ≤ x → x < b + PAGE_SIZE →
        Mapping.Has { base := b, pages := s.pages } (x / PAGE_SIZE) := by
  obtain ⟨-, hm⟩ := hinv.cached s b hb
  obtain ⟨hnz, hal, hpos, hend⟩ := hinv.maps.page _ hm
  simp only at hnz hal hpos hend
  have hpage : PAGE_SIZE ≤ s.pages * PAGE_SIZE := Nat.le_mul_of_pos_left _ (Nat.pos_of_ne_zero hpos)
  exact ⟨hnz, by omega, hal, fun x h1 h2 => hinv.maps.has_div hm h1 (by simp only; omega)⟩

/-- What is in a bin has a mapping. -/
theorem placed (hinv : Inv F w) {x : Nat} {p : Option Index} (hx : x ∈ bins F w.live p) :
    ∃ m ∈ w.heap.mappings, m.base = x := by
  cases p with
  | none =>
      obtain ⟨a, ha, rfl⟩ := List.mem_map.mp hx
      obtain ⟨s, -, hm⟩ := hinv.live a ha
      exact ⟨_, hm, rfl⟩
  | some s => exact ⟨_, (hinv.cached s x hx).2, rfl⟩

/-- Two blocks in different places, or different blocks of one, are at least a page apart. -/
theorem apart (hinv : Inv F w) {b b' : Nat} {m : Mapping} (hb : b ∈ F s)
    (hm : m ∈ w.heap.mappings) (hbase : m.base = b') (hne : b ≠ b') :
    b + PAGE_SIZE ≤ b' ∨ b' + PAGE_SIZE ≤ b := by
  obtain ⟨-, -, hal, hhas⟩ := hinv.block hb
  obtain ⟨-, hal', -, -⟩ := hinv.maps.page m hm
  have hdiv : b / PAGE_SIZE ≠ b' / PAGE_SIZE := by
    rw [← hbase] at hne ⊢
    unfold PAGE_SIZE at *
    omega
  rw [hbase] at hal'
  unfold PAGE_SIZE at *
  omega

/-- The lists stay when memory changes off their links. -/
theorem chain_setMem (hinv : Inv F w) (mem : Mem)
    (hmem : ∀ s, ∀ b ∈ F s, ∀ x, b ≤ x → x < b + 8 → mem x = w.heap.sys.mem x) (s : Index) :
    Chain (Link.pointer.read mem) (w.heap.cache.slot s).head (F s) :=
  Link.chain_congr (hinv.chain s) (by rw [Link.pointer_width]; exact hmem s)

/-- Lists and counts after one slot was set. -/
theorem chains_setSlot {mem : Mem} {cache : ThreadLocalCache} {v : CacheSlot} {l : List Nat}
    (hchain : ∀ s, Chain (Link.pointer.read mem) (cache.slot s).head (F s))
    (hhead : Chain (Link.pointer.read mem) v.head l) (s' : Index) :
    Chain (Link.pointer.read mem) ((cache.setSlot s v).slot s').head
      (Function.update F s l s') := by
  by_cases hs : s' = s
  · subst hs
    rw [ThreadLocalCache.slot_setSlot_self, Function.update_self]
    exact hhead
  · rw [ThreadLocalCache.slot_setSlot_of_ne hs, Function.update_of_ne hs]
    exact hchain s'

theorem counts_setSlot {cache : ThreadLocalCache} {v : CacheSlot} {l : List Nat}
    (hcount : ∀ s, (cache.slot s).count = (F s).length ∧ (F s).length ≤ CACHE_SIZE)
    (hv : v.count = l.length) (hl : l.length ≤ CACHE_SIZE) (s' : Index) :
    ((cache.setSlot s v).slot s').count = (Function.update F s l s').length ∧
      (Function.update F s l s').length ≤ CACHE_SIZE := by
  by_cases hs : s' = s
  · subst hs
    rw [ThreadLocalCache.slot_setSlot_self, Function.update_self]
    exact ⟨hv, hl⟩
  · rw [ThreadLocalCache.slot_setSlot_of_ne hs, Function.update_of_ne hs]
    exact hcount s'

/-- The first block of a list goes to the client. -/
theorem pop (hinv : Inv F w) {rest : List Nat} (hF : F s = ptr :: rest)
    (hslot : getSlot size = some s) :
    Inv (Function.update F s rest) {
      heap := w.heap.setSlot s {
        head := Link.pointer.read w.heap.sys.mem ptr
        count := (w.heap.cache.slot s).count - 1 }
      live := { ptr := ptr, size := size } :: w.live } := by
  have hmem : ptr ∈ F s := by rw [hF]; exact List.mem_cons_self ..
  have hchain := hinv.chain s
  obtain ⟨hcount, hle⟩ := hinv.count s
  rw [hF] at hchain
  rw [hF, List.length_cons] at hcount hle
  have hbins : bins (Function.update F s rest) ({ ptr := ptr, size := size } :: w.live)
      = Function.update (Function.update (bins F w.live) (some s) rest) none
        (ptr :: w.live.map Allocation.ptr) := by
    rw [bins_update_live (L := w.live), bins_update_free]
    rfl
  have hperm : (bins F w.live (some s)).Perm (ptr :: rest) := by
    show (F s).Perm _
    rw [hF]
  exact {
    maps := hinv.maps
    exclusive := by
      rw [hbins]
      exact hinv.exclusive.carry (by simp) hperm (List.Perm.refl _)
    live := fun a ha => by
      rcases List.mem_cons.mp ha with rfl | ha
      · exact ⟨s, hslot, (hinv.cached s ptr hmem).2⟩
      · exact hinv.live a ha
    cached := fun s' b hb => hinv.cached s' b (by
      by_cases hs : s' = s
      · subst hs
        rw [Function.update_self] at hb
        rw [hF]
        exact List.mem_cons_of_mem _ hb
      · rw [Function.update_of_ne hs] at hb
        exact hb)
    held := fun m hm => by
      rw [hbins]
      exact (hinv.held m hm).carry hinv.exclusive (by simp) rfl hperm (List.mem_cons_self ..)
        (List.subset_cons_self ..)
    chain := chains_setSlot hinv.chain hchain.2
    count := counts_setSlot hinv.count (by simp only; omega) (by omega)
    unmaps := hinv.unmaps }

/-- A block of the client's goes in front of the list of its slot. -/
theorem push (hinv : Inv F w) (ha : a ∈ w.live) (hslot : getSlot a.size = some s)
    (hroom : (F s).length < CACHE_SIZE) :
    Inv (Function.update F s (a.ptr :: F s)) {
      heap := Heap.setSlot { w.heap with sys := { w.heap.sys with
          mem := Link.pointer.write w.heap.sys.mem a.ptr (w.heap.cache.slot s).head } } s {
        head := some a.ptr
        count := (w.heap.cache.slot s).count + 1 }
      live := w.live.erase a } := by
  obtain ⟨s', hslot', hm⟩ := hinv.live a ha
  obtain rfl : s = s' := Option.some.inj (hslot.symm.trans hslot')
  obtain ⟨hcount, -⟩ := hinv.count s
  have hperm : (bins F w.live none).Perm (a.ptr :: (w.live.erase a).map Allocation.ptr) :=
    (List.perm_cons_erase ha).map Allocation.ptr
  have hbins : bins (Function.update F s (a.ptr :: F s)) (w.live.erase a)
      = Function.update (Function.update (bins F w.live) none
        ((w.live.erase a).map Allocation.ptr)) (some s) (a.ptr :: F s) := by
    rw [bins_update_free, bins_update_live (L := w.live)]
  -- a cached block is another block, and its link is not written
  have hother : ∀ s', ∀ b ∈ F s', b + PAGE_SIZE ≤ a.ptr ∨ a.ptr + PAGE_SIZE ≤ b := by
    intro s' b hb
    refine hinv.apart hb hm rfl fun hc => ?_
    have hplace := hinv.exclusive.unique (some s') none b hb (by
      rw [hc]
      exact List.mem_map.mpr ⟨a, ha, rfl⟩)
    exact absurd hplace (by simp)
  have hfits : Link.pointer.Fits (w.heap.cache.slot s).head := by
    refine Link.pointer_fits.mpr fun v hv => ?_
    have hchain := hinv.chain s
    rw [Option.mem_def.mp hv] at hchain
    obtain ⟨rest, hF, -⟩ := hchain.exists_cons_of_some
    obtain ⟨hnz, hend, -⟩ := hinv.block (s := s) (b := v) (by rw [hF]; exact List.mem_cons_self ..)
    exact ⟨hnz, by unfold PAGE_SIZE at hend; omega⟩
  exact {
    maps := ⟨hinv.maps.page, hinv.maps.apart, hinv.maps.mapped, hinv.maps.own⟩
    exclusive := by
      rw [hbins]
      exact hinv.exclusive.carry (by simp) hperm (List.Perm.refl _)
    live := fun a' ha' => hinv.live a' (List.mem_of_mem_erase ha')
    cached := fun s' b hb => by
      by_cases hs : s' = s
      · subst hs
        rw [Function.update_self] at hb
        rcases List.mem_cons.mp hb with rfl | hb
        · exact ⟨(getSlot_spec hslot).1, hm⟩
        · exact hinv.cached s' b hb
      · rw [Function.update_of_ne hs] at hb
        exact hinv.cached s' b hb
    held := fun m hm => by
      rw [hbins]
      exact (hinv.held m hm).carry hinv.exclusive (by simp) rfl hperm (List.mem_cons_self ..)
        (List.subset_cons_self ..)
    chain := by
      refine chains_setSlot (hinv.chain_setMem _ fun s' b hb x h1 h2 => ?_) ?_
      · refine Link.pointer.write_outside fun hc => ?_
        rw [Link.pointer_width] at hc
        have := hother s' b hb
        unfold PAGE_SIZE at this
        omega
      · refine Link.chain_push (hinv.chain s) hfits fun b hb => ?_
        rw [Link.pointer_width]
        have := hother s b hb
        unfold PAGE_SIZE at this
        omega
    count := counts_setSlot hinv.count (by simp only [List.length_cons]; omega)
      (by rw [List.length_cons]; omega)
    unmaps := hinv.unmaps }

/-- A fresh block is mapped for the client. -/
theorem map (hinv : Inv F w) (hslot : getSlot size = some s) {base : Nat}
    (rest : List (Option Nat)) (hfree : w.heap.sys.FreePages base s.pages) :
    Inv F {
      heap := { w.heap with
        sys := { w.heap.sys with
          mem := w.heap.sys.mem.fill base (s.pages * PAGE_SIZE) 0
          mapped := w.heap.sys.setPages base s.pages true
          answers := rest }
        mappings := { base := base, pages := s.pages } :: w.heap.mappings }
      live := { ptr := base, size := size } :: w.live } := by
  obtain ⟨hmem, -, -⟩ := getSlot_spec hslot
  have hpos := (pages_of_slot s hmem).1
  -- nothing that is somewhere is at the new address
  have hfresh : ∀ p, base ∉ bins F w.live p := by
    intro p hp
    obtain ⟨m, hm, hbase⟩ := hinv.placed hp
    have hhas := hinv.maps.has_base hm
    rw [hbase] at hhas
    have hpage := hfree.fresh_byte (Nat.le_refl _)
      (Nat.lt_add_of_pos_right (Nat.mul_pos hpos (by decide)))
    rw [(hinv.maps.mapped _).mpr ⟨m, hm, hhas⟩] at hpage
    exact absurd hpage (by decide)
  have hbins : bins F ({ ptr := base, size := size } :: w.live)
      = Function.update (bins F w.live) none (base :: w.live.map Allocation.ptr) :=
    bins_update_live
  exact {
    maps := hinv.maps.map (Nat.pos_iff_ne_zero.mp hpos) hfree _ rest
    exclusive := by
      rw [hbins]
      refine hinv.exclusive.put (l := [base]) (List.nodup_singleton _) (fun r x hx => ?_)
        (List.Perm.refl _)
      rw [List.mem_singleton.mp hx]
      exact hfresh r
    live := fun a ha => by
      rcases List.mem_cons.mp ha with rfl | ha
      · exact ⟨s, hslot, List.mem_cons_self ..⟩
      · obtain ⟨s', hs', hm⟩ := hinv.live a ha
        exact ⟨s', hs', List.mem_cons_of_mem _ hm⟩
    cached := fun s' b hb => by
      obtain ⟨hs', hm⟩ := hinv.cached s' b hb
      exact ⟨hs', List.mem_cons_of_mem _ hm⟩
    held := fun m hm => by
      rw [hbins]
      rcases List.mem_cons.mp hm with rfl | hm
      · exact ⟨none, rfl, by rw [Function.update_self]; exact List.mem_cons_self ..⟩
      · exact (hinv.held m hm).put (List.subset_cons_self ..)
    chain := hinv.chain_setMem _ fun s' b hb x h1 h2 => by
      refine Mem.fill_outside fun hc => ?_
      obtain ⟨-, hm⟩ := hinv.cached s' b hb
      obtain ⟨-, -, -, hhas⟩ := hinv.block hb
      have hpage := hfree.fresh_byte hc.1 hc.2
      rw [(hinv.maps.mapped _).mpr ⟨_, hm, hhas x h1 (by unfold PAGE_SIZE; omega)⟩] at hpage
      exact absurd hpage (by decide)
    count := hinv.count
    unmaps := hinv.unmaps }

/-- A block that is taken from where it was is unmapped, with the pages it was mapped with. -/
theorem unmap (hinv : Inv F w) {b pages : Nat} {p : Option Index} {l : List Nat}
    {F' : Index → List Nat} {L' : List Allocation} {cache : ThreadLocalCache}
    (hm : { base := b, pages := pages } ∈ w.heap.mappings)
    (hbins : bins F' L' = Function.update (bins F w.live) p l)
    (hperm : (bins F w.live p).Perm (b :: l)) (hlive : L' ⊆ w.live) (hfree : ∀ s, F' s ⊆ F s)
    (hchain : ∀ s, Chain (Link.pointer.read w.heap.sys.mem) (cache.slot s).head (F' s))
    (hcount : ∀ s, (cache.slot s).count = (F' s).length ∧ (F' s).length ≤ CACHE_SIZE) :
    Inv F' { heap := { w.heap.unmap b pages with cache := cache }, live := L' } := by
  obtain ⟨hnz, hal, hpos, hend⟩ := hinv.maps.page _ hm
  simp only at hnz hal hpos hend
  obtain ⟨hex, hgone⟩ := hinv.exclusive.take hperm
  rw [← hbins] at hex hgone
  have hsys : PageAllocator.dealloc w.heap.sys b pages
      = { w.heap.sys with mapped := w.heap.sys.setPages b pages false } :=
    PageAllocator.dealloc_eq hpos hal (by omega)
  -- the mappings that stay are those of other blocks
  have hstay : ∀ m ∈ w.heap.mappings, m.base ≠ b →
      m ∈ w.heap.mappings.filter (·.base ≠ b) := by
    intro m hm' hne
    exact List.mem_filter.mpr ⟨hm', by simpa using hne⟩
  have hmade : (w.heap.mappings.find? (·.base = b)).map Mapping.pages = some pages := by
    cases hfind : w.heap.mappings.find? (·.base = b) with
    | none =>
        have hnone := List.find?_eq_none.mp hfind _ hm
        exact absurd (decide_eq_true rfl) hnone
    | some m =>
        have hbase : m.base = b := by simpa using List.find?_some hfind
        rw [hinv.maps.eq_of_base (List.mem_of_find?_eq_some hfind) hm hbase]
        rfl
  exact {
    maps := by
      show Maps (PageAllocator.dealloc w.heap.sys b pages) _
      rw [hsys]
      exact hinv.maps.unmap hm
    exclusive := hex
    live := fun a ha => by
      obtain ⟨s', hs', hm'⟩ := hinv.live a (hlive ha)
      refine ⟨s', hs', hstay _ hm' fun hc => hgone none ?_⟩
      rw [← hc]
      exact List.mem_map.mpr ⟨a, ha, rfl⟩
    cached := fun s' x hx => by
      obtain ⟨hs', hm'⟩ := hinv.cached s' x (hfree s' hx)
      exact ⟨hs', hstay _ hm' fun hc => hgone (some s') (by rw [← hc]; exact hx)⟩
    held := fun m hm' => by
      obtain ⟨hm', hne⟩ := List.mem_filter.mp hm'
      rw [hbins]
      exact (hinv.held m hm').take hperm (by simpa using hne)
    chain := by
      show ∀ s, Chain (Link.pointer.read (PageAllocator.dealloc w.heap.sys b pages).mem) _ _
      rw [hsys]
      exact hchain
    count := hcount
    unmaps := fun u hu => by
      rcases List.mem_cons.mp hu with rfl | hu
      · exact hmade
      · exact hinv.unmaps u hu }

end Inv

/-! ### The operations -/

namespace Heap

/-- A block is handed out from its list or freshly mapped, or nothing happens. -/
theorem alloc_keeps (hinv : Inv F w) {p : Option Nat} (heq : w.heap.alloc size = (h', p)) :
    ∃ F', Inv F' {
      heap := h'
      live := match p with
        | none => w.live
        | some ptr => { ptr := ptr, size := size } :: w.live } := by
  unfold alloc at heq
  cases hslot : getSlot size with
  | none =>
      rw [hslot] at heq
      obtain ⟨rfl, rfl⟩ := Prod.mk.inj heq
      exact ⟨F, hinv⟩
  | some s =>
      rw [hslot] at heq
      simp only at heq
      have hchain := hinv.chain s
      cases hhead : (w.heap.cache.slot s).head with
      | some ptr =>
          rw [hhead] at heq hchain
          obtain ⟨rest, hF, -⟩ := hchain.exists_cons_of_some
          obtain ⟨rfl, rfl⟩ := Prod.mk.inj heq
          exact ⟨_, hinv.pop hF hslot⟩
      | none =>
          rw [hhead] at heq
          obtain ⟨hmem, -, -⟩ := getSlot_spec hslot
          obtain ⟨hpos, hle, -⟩ := pages_of_slot s hmem
          have hpages : max (divCeil s.sizeForIndex PAGE_SIZE) 1 = s.pages := Nat.max_eq_left hpos
          simp only [hpages] at heq
          unfold map at heq
          rcases PageAllocator.alloc_cases w.heap.sys s.pages (Nat.pos_iff_ne_zero.mp hpos)
            (by unfold PAGE_SIZE; omega) with ⟨rest, hsys⟩ | ⟨base, rest, hfree, hsys⟩
          · rw [hsys] at heq
            obtain ⟨rfl, rfl⟩ := Prod.mk.inj heq
            exact ⟨F, { hinv with maps := ⟨hinv.maps.page, hinv.maps.apart, hinv.maps.mapped,
              hinv.maps.own⟩ }⟩
          · rw [hsys] at heq
            obtain ⟨rfl, rfl⟩ := Prod.mk.inj heq
            exact ⟨F, hinv.map hslot rest hfree⟩

/-- Freeing directly unmaps the pages of the block's slot. -/
theorem freePages_eq (hslot : getSlot size = some s) :
    h.freePages ptr size = h.unmap ptr s.pages := by
  obtain ⟨hmem, -, hpages⟩ := getSlot_spec hslot
  unfold freePages
  simp only [hpages]
  rw [if_pos (pages_of_slot s hmem).1]

theorem dealloc_keeps (hinv : Inv F w) (ha : a ∈ w.live) :
    ∃ F', Inv F' { heap := w.heap.dealloc a.ptr a.size, live := w.live.erase a } := by
  obtain ⟨s, hslot, hm⟩ := hinv.live a ha
  obtain ⟨hcount, -⟩ := hinv.count s
  unfold dealloc
  rw [hslot]
  simp only
  split
  · rw [freePages_eq hslot]
    refine ⟨F, hinv.unmap (p := none) hm bins_update_live ?_ (List.erase_subset ..)
      (fun _ => List.Subset.refl _) hinv.chain hinv.count⟩
    exact (List.perm_cons_erase ha).map Allocation.ptr
  · rename_i hroom
    exact ⟨_, hinv.push ha hslot (by omega)⟩

theorem clearLoop_none {fuel : Nat} : clearLoop s fuel h none = some h := by
  cases fuel with
  | zero => rfl
  | succ fuel => rfl

/-- The walk unmaps the blocks of the list one by one.  While it goes on, the slot still has its
old head; the invariant is kept for the slot as if it had the rest of the list. -/
theorem clearLoop_keeps (hs : s ∈ slots) {L : List Allocation} :
    ∀ (l : List Nat) {fuel : Nat} {h : Heap} {cur : Option Nat}, l.length ≤ fuel →
      Inv (Function.update F s l)
        { heap := h.setSlot s { head := cur, count := l.length }, live := L } →
      ∃ h', clearLoop s fuel h cur = some h' ∧
        Inv (Function.update F s []) { heap := h'.setSlot s CacheSlot.new, live := L } := by
  intro l
  induction l with
  | nil =>
      intro fuel h cur _ hinv
      have hchain := hinv.chain s
      simp only [setSlot, ThreadLocalCache.slot_setSlot_self, Function.update_self] at hchain
      obtain rfl : cur = none := hchain
      exact ⟨h, clearLoop_none, hinv⟩
  | cons b rest ih =>
      intro fuel h cur hfuel hinv
      have hchain := hinv.chain s
      simp only [setSlot, ThreadLocalCache.slot_setSlot_self, Function.update_self] at hchain
      obtain ⟨rfl, hrest⟩ := hchain
      obtain ⟨fuel, rfl⟩ : ∃ n, fuel = n + 1 := ⟨fuel - 1, by rw [List.length_cons] at hfuel; omega⟩
      have hpos : divCeil s.sizeForIndex PAGE_SIZE > 0 := (pages_of_slot s hs).1
      have hmem : b ∈ Function.update F s (b :: rest) s := by
        rw [Function.update_self]
        exact List.mem_cons_self ..
      have hcached := (hinv.cached s b hmem).2
      have hunmap : Inv (Function.update F s rest) {
          heap := (h.unmap b s.pages).setSlot s {
            head := Link.pointer.read h.sys.mem b
            count := rest.length }
          live := L } := by
        refine hinv.unmap (p := some s) (l := rest) hcached ?_ ?_ (List.Subset.refl _)
          (fun s' => ?_) (fun s' => ?_) (fun s' => ?_)
        · rw [bins_update_free, bins_update_free, Function.update_idem]
        · show (Function.update F s (b :: rest) s).Perm (b :: rest)
          rw [Function.update_self]
        · by_cases hs' : s' = s
          · subst hs'
            rw [Function.update_self, Function.update_self]
            exact List.subset_cons_self ..
          · rw [Function.update_of_ne hs', Function.update_of_ne hs']
            exact List.Subset.refl _
        · have hchains := Inv.chains_setSlot (s := s)
            (v := ⟨Link.pointer.read h.sys.mem b, rest.length⟩) hinv.chain hrest s'
          simp only [setSlot, ThreadLocalCache.setSlot_setSlot, Function.update_idem] at hchains
          exact hchains
        · have hle := (hinv.count s).2
          rw [Function.update_self, List.length_cons] at hle
          have hcounts := Inv.counts_setSlot (s := s) (l := rest)
            (v := ⟨Link.pointer.read h.sys.mem b, rest.length⟩) hinv.count rfl (by omega) s'
          simp only [setSlot, ThreadLocalCache.setSlot_setSlot, Function.update_idem] at hcounts
          exact hcounts
      have hfuel' : rest.length ≤ fuel := by
        rw [List.length_cons] at hfuel
        omega
      obtain ⟨h', heq, hinv'⟩ := ih hfuel' hunmap
      refine ⟨h', ?_, hinv'⟩
      unfold clearLoop
      simp only [if_pos hpos]
      exact heq

/-- More fuel does not change a walk that ended. -/
theorem clearLoop_mono : ∀ {fuel fuel' : Nat} {h h' : Heap} {cur : Option Nat}, fuel ≤ fuel' →
    clearLoop s fuel h cur = some h' → clearLoop s fuel' h cur = some h' := by
  intro fuel
  induction fuel with
  | zero =>
      intro fuel' h h' cur _ heq
      cases cur with
      | none =>
          rw [clearLoop_none] at heq ⊢
          exact heq
      | some ptr => exact absurd heq (by simp [clearLoop])
  | succ fuel ih =>
      intro fuel' h h' cur hle heq
      cases cur with
      | none =>
          rw [clearLoop_none] at heq ⊢
          exact heq
      | some ptr =>
          obtain ⟨fuel', rfl⟩ : ∃ n, fuel' = n + 1 := ⟨fuel' - 1, by omega⟩
          unfold clearLoop at heq ⊢
          exact ih (by omega) heq

theorem clear_mono {fuel fuel' : Nat} (hle : fuel ≤ fuel') : ∀ (L : List Index) {h h' : Heap},
    L.foldlM (clearSlot fuel) h = some h' → L.foldlM (clearSlot fuel') h = some h' := by
  intro L
  induction L with
  | nil => intro h h' heq; exact heq
  | cons s L ih =>
      intro h h' heq
      rw [List.foldlM_cons] at heq ⊢
      obtain ⟨h₁, hslot, hrest⟩ := Option.bind_eq_some_iff.mp heq
      obtain ⟨h₂, hloop, rfl⟩ := Option.map_eq_some_iff.mp hslot
      have hslot' : clearSlot fuel' h s = some (h₂.setSlot s CacheSlot.new) := by
        unfold clearSlot
        rw [clearLoop_mono hle hloop]
        rfl
      rw [hslot']
      exact ih hrest

theorem clearSlot_keeps (hinv : Inv F w) (hs : s ∈ slots) {fuel : Nat} (hfuel : CACHE_SIZE ≤ fuel) :
    ∃ h', clearSlot fuel w.heap s = some h' ∧
      Inv (Function.update F s []) { w with heap := h' } := by
  obtain ⟨hcount, hle⟩ := hinv.count s
  have hself : w.heap.setSlot s { head := (w.heap.cache.slot s).head, count := (F s).length }
      = w.heap := by
    rw [← hcount]
    unfold setSlot
    rw [ThreadLocalCache.setSlot_slot]
  have hstart : Inv (Function.update F s (F s)) {
      heap := w.heap.setSlot s { head := (w.heap.cache.slot s).head, count := (F s).length }
      live := w.live } := by
    rw [hself, Function.update_eq_self]
    exact hinv
  obtain ⟨h', heq, hinv'⟩ := clearLoop_keeps hs (F s) (hle.trans hfuel) hstart
  refine ⟨h'.setSlot s CacheSlot.new, ?_, hinv'⟩
  unfold clearSlot
  rw [heq]
  rfl

/-- Clearing slots empties their lists and fills no other. -/
theorem clear_slots {fuel : Nat} (hfuel : CACHE_SIZE ≤ fuel) :
    ∀ (L : List Index) {F : Index → List Nat} {w : World}, (∀ s ∈ L, s ∈ slots) → Inv F w →
      ∃ h' F', L.foldlM (clearSlot fuel) w.heap = some h' ∧ Inv F' { w with heap := h' } ∧
        (∀ s ∈ L, F' s = []) ∧ ∀ s, F s = [] → F' s = [] := by
  intro L
  induction L with
  | nil =>
      intro F w _ hinv
      exact ⟨w.heap, F, rfl, hinv, fun s hs => absurd hs List.not_mem_nil, fun s hs => hs⟩
  | cons s L ih =>
      intro F w hslots hinv
      obtain ⟨h₁, heq₁, hinv₁⟩ := clearSlot_keeps hinv (hslots s (List.mem_cons_self ..)) hfuel
      obtain ⟨h', F', heq, hinv', hdone, hstay⟩ :=
        ih (fun s' hs' => hslots s' (List.mem_cons_of_mem _ hs')) hinv₁
      refine ⟨h', F', ?_, hinv', fun s' hs' => ?_, fun s' hs' => hstay s' ?_⟩
      · rw [List.foldlM_cons, heq₁]
        exact heq
      · rcases List.mem_cons.mp hs' with rfl | hs'
        · exact hstay s' (Function.update_self ..)
        · exact hdone s' hs'
      · by_cases hss : s' = s
        · subst hss
          exact Function.update_self ..
        · rw [Function.update_of_ne hss]
          exact hs'

/-- With the fuel for a full list, clearing ends, and nothing is cached after it. -/
theorem clear_keeps (hinv : Inv F w) {fuel : Nat} (hfuel : CACHE_SIZE ≤ fuel) :
    ∃ h', clear fuel w.heap = some h' ∧ Inv (fun _ => []) { w with heap := h' } := by
  obtain ⟨h', F', heq, hinv', hdone, -⟩ := clear_slots hfuel slots (fun _ hs => hs) hinv
  have hnil : F' = fun _ => [] := by
    funext s
    refine List.eq_nil_iff_forall_not_mem.mpr fun b hb => ?_
    rw [hdone s (hinv'.cached s b hb).1] at hb
    exact absurd hb List.not_mem_nil
  rw [hnil] at hinv'
  exact ⟨h', heq, hinv'⟩

end Heap

/-! ### Runs -/

theorem Inv.init (mem : Mem) (foreign : Nat → Bool) :
    Inv (fun _ => []) (machine mem foreign).init := by
  have hnil : ∀ p, bins (fun _ => []) [] p = [] := by
    intro p
    cases p with
    | none => rfl
    | some s => rfl
  have hnew : ∀ s, ThreadLocalCache.new.slot s = CacheSlot.new := by
    intro s
    unfold ThreadLocalCache.slot
    split
    · rfl
    · rfl
  exact {
    maps := {
      page := fun m hm => absurd hm List.not_mem_nil
      apart := List.Pairwise.nil
      mapped := fun page => iff_of_false (by simp [machine])
        fun ⟨m, hm, _⟩ => absurd hm List.not_mem_nil
      own := fun page hpage => absurd hpage (by simp [machine]) }
    exclusive := by
      refine ⟨fun p => ?_, fun p q x hx _ => ?_⟩
      · show (bins (fun _ => []) [] p).Nodup
        rw [hnil p]
        exact List.nodup_nil
      · have hx' : x ∈ bins (fun _ => []) [] p := hx
        rw [hnil p] at hx'
        exact absurd hx' List.not_mem_nil
    live := fun a ha => absurd ha List.not_mem_nil
    cached := fun s b hb => absurd hb List.not_mem_nil
    held := fun m hm => absurd hm List.not_mem_nil
    chain := fun s => by
      show Chain _ (ThreadLocalCache.new.slot s).head []
      rw [hnew s]
      rfl
    count := fun s => by
      show (ThreadLocalCache.new.slot s).count = 0 ∧ 0 ≤ CACHE_SIZE
      rw [hnew s]
      exact ⟨rfl, Nat.zero_le _⟩
    unmaps := fun u hu => absurd hu List.not_mem_nil }

/-- What the client writes is in no cached block. -/
theorem Inv.write (hinv : Inv F w) {addr : Nat} {byte : UInt8} (hwritable : w.Writable addr) :
    Inv F { w with heap := { w.heap with
      sys := { w.heap.sys with mem := Function.update w.heap.sys.mem addr byte } } } := by
  have hchain := hinv.chain_setMem (Function.update w.heap.sys.mem addr byte)
    fun s b hb x h1 h2 => ?_
  · exact { hinv with
      maps := ⟨hinv.maps.page, hinv.maps.apart, hinv.maps.mapped, hinv.maps.own⟩
      chain := hchain }
  · refine Function.update_of_ne ?_ _ _
    rintro rfl
    obtain ⟨-, hm⟩ := hinv.cached s b hb
    obtain ⟨-, -, -, hhas⟩ := hinv.block hb
    have hpage := hhas x h1 (by unfold PAGE_SIZE; omega)
    rcases hwritable with ⟨a, ha, m, hm', hbase, h1', h2'⟩ | hforeign
    · -- the mapping of a live block is not that of a cached one
      rw [← hbase] at h1' h2'
      have heq := hinv.maps.unique hm hm' hpage (hinv.maps.has_div hm' h1' h2')
      have hplace := hinv.exclusive.unique (some s) none b hb (by
        have hb' : b = a.ptr := by rw [← hbase, ← heq]
        rw [hb']
        exact List.mem_map.mpr ⟨a, ha, rfl⟩)
      exact absurd hplace (by simp)
    · rw [hinv.maps.own _ ((hinv.maps.mapped _).mpr ⟨_, hm, hpage⟩)] at hforeign
      exact absurd hforeign (by decide)

theorem step_keeps {l : Label} (hinv : Inv F w) (hstep : step w l = some w') : ∃ F', Inv F' w' := by
  cases l with
  | alloc size answers =>
      simp only [step] at hstep
      obtain ⟨-, hsome⟩ := Option.ite_none_right_eq_some.mp hstep
      have hin : Inv F { w with heap := w.enter answers } := { hinv with
        maps := ⟨hinv.maps.page, hinv.maps.apart, hinv.maps.mapped, hinv.maps.own⟩ }
      rcases heq : (w.enter answers).alloc size with ⟨heap, p⟩
      obtain ⟨F', hinv'⟩ := Heap.alloc_keeps hin heq
      rw [heq] at hsome
      cases p with
      | none =>
          obtain rfl := Option.some.inj hsome
          exact ⟨F', hinv'⟩
      | some ptr =>
          obtain rfl := Option.some.inj hsome
          exact ⟨F', hinv'⟩
  | dealloc ptr size =>
      obtain ⟨ha, hsome⟩ := Option.ite_none_right_eq_some.mp hstep
      obtain rfl := Option.some.inj hsome
      exact Heap.dealloc_keeps hinv ha
  | clear fuel =>
      obtain ⟨heap, heq, rfl⟩ := Option.map_eq_some_iff.mp hstep
      obtain ⟨h', heq', hinv'⟩ := Heap.clear_keeps hinv (Nat.le_max_right fuel CACHE_SIZE)
      have hmore := Heap.clear_mono (Nat.le_max_left fuel CACHE_SIZE) _ heq
      obtain rfl := Option.some.inj (heq'.symm.trans hmore)
      exact ⟨_, hinv'⟩
  | write addr byte =>
      obtain ⟨hwritable, hsome⟩ := Option.ite_none_right_eq_some.mp hstep
      obtain rfl := Option.some.inj hsome
      exact ⟨F, hinv.write hwritable⟩
  | foreign page mapped =>
      obtain ⟨hunmapped, hsome⟩ := Option.ite_none_right_eq_some.mp hstep
      obtain rfl := Option.some.inj hsome
      refine ⟨F, { hinv with maps := ⟨hinv.maps.page, hinv.maps.apart, hinv.maps.mapped,
        fun q hq => ?_⟩ }⟩
      have hne : q ≠ page := by
        rintro rfl
        have hq' : w.heap.sys.mapped q = true := hq
        rw [hunmapped] at hq'
        exact absurd hq' (by decide)
      show Function.update w.heap.sys.foreign page mapped q = false
      rw [Function.update_of_ne hne]
      exact hinv.maps.own q hq

/-- What is promised of a state, for the blocks on the lists. -/
structure Accounted (w : World) (F : Index → List Nat) : Prop where
  list : ∀ s, Chain (Link.pointer.read w.heap.sys.mem) (w.heap.cache.slot s).head (F s) ∧
    (F s).Nodup
  count : ∀ s, (w.heap.cache.slot s).count = (F s).length ∧ (F s).length ≤ CACHE_SIZE
  live : (w.live.map Allocation.ptr).Nodup
  apart : ∀ s, ∀ b ∈ F s, b ∉ w.live.map Allocation.ptr ∧ ∀ s', b ∈ F s' → s' = s
  once : (w.heap.mappings.map Mapping.base).Nodup
  blocks : ∀ b, b ∈ w.heap.mappings.map Mapping.base ↔
    b ∈ w.live.map Allocation.ptr ∨ ∃ s, b ∈ F s

/-- Dropping the cache ends, and leaves nothing mapped if nothing is live. -/
def Drops (w : World) : Prop :=
  ∀ fuel ≥ CACHE_SIZE, ∃ h', w.heap.clear fuel = some h' ∧
    (∀ u ∈ h'.unmaps, u.made = some u.pages) ∧
    (w.live = [] → h'.mappings = [] ∧ ∀ page, h'.sys.mapped page = false)

/-- The cache maps and unmaps in balance. -/
structure Balanced (w : World) : Prop where
  accounted : ∃ F, Accounted w F
  /-- The mappings are what the kernel has mapped. -/
  mapped : ∀ page, w.heap.sys.mapped page = true ↔ ∃ m ∈ w.heap.mappings, m.Has page
  holds : ∀ a ∈ w.live, ∃ m ∈ w.heap.mappings, m.base = a.ptr ∧ a.size ≤ m.pages * PAGE_SIZE
  unmaps : ∀ u ∈ w.heap.unmaps, u.made = some u.pages
  drop : Drops w

theorem Inv.accounted (hinv : Inv F w) : Accounted w F where
  list s := ⟨hinv.chain s, hinv.exclusive.nodup (some s)⟩
  count := hinv.count
  live := hinv.exclusive.nodup none
  apart s b hb := by
    refine ⟨fun hc => ?_, fun s' hb' => ?_⟩
    · exact absurd (hinv.exclusive.unique (some s) none b hb hc) (by simp)
    · exact Option.some.inj (hinv.exclusive.unique (some s') (some s) b hb' hb)
  once := by
    refine List.pairwise_map.mpr (hinv.maps.apart.imp_of_mem fun hm hm' hap hbase => ?_)
    have heq := hinv.maps.eq_of_base hm hm' hbase
    subst heq
    exact hap _ ⟨hinv.maps.has_base hm, hinv.maps.has_base hm⟩
  blocks b := by
    constructor
    · intro hb
      obtain ⟨m, hm, rfl⟩ := List.mem_map.mp hb
      obtain ⟨p, -, hp⟩ := hinv.held m hm
      cases p with
      | none => exact Or.inl hp
      | some s => exact Or.inr ⟨s, hp⟩
    · rintro (hb | ⟨s, hb⟩)
      · obtain ⟨m, hm, rfl⟩ := hinv.placed (p := none) hb
        exact List.mem_map.mpr ⟨m, hm, rfl⟩
      · obtain ⟨m, hm, rfl⟩ := hinv.placed (p := some s) hb
        exact List.mem_map.mpr ⟨m, hm, rfl⟩

theorem Inv.drops (hinv : Inv F w) : Drops w := by
  intro fuel hfuel
  obtain ⟨h', heq, hinv'⟩ := Heap.clear_keeps hinv hfuel
  refine ⟨h', heq, hinv'.unmaps, fun hlive => ?_⟩
  have hnone : h'.mappings = [] := by
    refine List.eq_nil_iff_forall_not_mem.mpr fun m hm => ?_
    obtain ⟨p, -, hp⟩ := hinv'.held m hm
    cases p with
    | none =>
        have hp' : m.base ∈ w.live.map Allocation.ptr := hp
        rw [hlive] at hp'
        exact absurd hp' List.not_mem_nil
    | some s => exact absurd hp List.not_mem_nil
  refine ⟨hnone, fun page => ?_⟩
  cases hpage : h'.sys.mapped page with
  | false => rfl
  | true =>
      obtain ⟨m, hm, -⟩ := (hinv'.maps.mapped page).mp hpage
      have hm' : m ∈ h'.mappings := hm
      rw [hnone] at hm'
      exact absurd hm' List.not_mem_nil

/-- In every state a run reaches, the cache is balanced. -/
theorem reaches_balanced {mem : Mem} {foreign : Nat → Bool}
    (hw : (machine mem foreign).Reaches w) : Balanced w := by
  have hgood : ∃ F, Inv F w := by
    refine hw.invariant (P := fun w => ∃ F, Inv F w) ⟨_, Inv.init mem foreign⟩ ?_
    rintro w l w' ⟨F, hinv⟩ hstep
    exact step_keeps hinv hstep
  obtain ⟨F, hinv⟩ := hgood
  refine ⟨⟨F, hinv.accounted⟩, hinv.maps.mapped, fun a ha => ?_, hinv.unmaps, hinv.drops⟩
  obtain ⟨s, hslot, hm⟩ := hinv.live a ha
  obtain ⟨hmem, hsize, -⟩ := getSlot_spec hslot
  exact ⟨_, hm, rfl, hsize.trans (pages_of_slot s hmem).2.2⟩

/-- A block of two pages is handed out for one size, freed, and handed out for another. -/
theorem reaches_balanced_reuse : ∃ w, (machine (fun _ => 0) fun _ => false).exec
      (machine (fun _ => 0) fun _ => false).init
      [.alloc 5000 [some 4096], .write 9000 7, .dealloc 4096 5000, .alloc 8192 []] = some w ∧
    w.live = [⟨4096, 8192⟩] ∧ Balanced w := by
  have hrun : ((machine (fun _ => 0) fun _ => false).exec
      (machine (fun _ => 0) fun _ => false).init
      [.alloc 5000 [some 4096], .write 9000 7, .dealloc 4096 5000, .alloc 8192 []]).map
        World.live = some [⟨4096, 8192⟩] := by decide +kernel
  obtain ⟨w, hw, hlive⟩ := Option.map_eq_some_iff.mp hrun
  exact ⟨w, hw, hlive, reaches_balanced ⟨_, hw⟩⟩

end Aethalloc.ThreadLocal
