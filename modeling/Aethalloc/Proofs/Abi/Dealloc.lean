/-
`dealloc` takes back exactly one allocation.

The bytes before the pointer decide everything: the size of a small block, from
which its class is computed again, or the two headers of a large region.  They
still say what `alloc` wrote, so the block goes to the free magazine of its own
class, or the region is unmapped.  When the free magazine is full it is published
first; if no node can be had for it, the block is dropped.
-/
import Aethalloc.Proofs.Abi.Alloc

namespace Aethalloc.Abi

open Lib

variable {full empty : Nat → List Nat} {k : Core} {h : Heap} {L : List Allocation} {a : Allocation}
  {P : Nat → Prop} {t c : Nat}

theorem within_drop {x : Nat} {ptr : Option Nat} (hx : Within (drop L ptr) x) : Within L x := by
  obtain ⟨a, ha, hx⟩ := hx
  exact ⟨a, List.mem_of_mem_filter ha, hx⟩

/-! ### Nodes -/

/-- What getting a node leaves alone. -/
structure SameMagazines (k k' : Core) : Prop where
  freeMags : k'.freeMags = k.freeMags
  pools : k'.pools = k.pools
  carved : k'.carved = k.carved
  regions : k.regions ⊆ k'.regions
  nodeFailures : k'.nodeFailures = k.nodeFailures

namespace Heap

/-- A node cannot be had and nothing changes, or a fresh one is carved. -/
theorem allocNode_cases (hinv : Inv full empty h.core L) :
    (∃ h', h.allocNode = (h', none) ∧ h'.core = h.core) ∨
      ∃ h' n, h.allocNode = (h', some n) ∧ Inv full empty h'.core L ∧
        FreshNode full empty h'.core n ∧ SameMagazines h.core h'.core ∧
        Follows (Within L) h.core L h'.core L := by
  obtain ⟨hal, hle, -⟩ := hinv.pools.page
  have haligned : alignUp h.metadata.offset Metadata.NODE_ALIGN = h.metadata.offset := by
    refine alignUp_of_dvd (k := 3) ?_ (Nat.dvd_of_mod_eq_zero hal)
    have : h.metadata.offset ≤ PAGE_SIZE := hle
    unfold PAGE_SIZE at this
    omega
  unfold allocNode
  simp only [haligned]
  split
  · rename_i hfits
    obtain ⟨hinv', hfresh⟩ := hinv.bumpNode hfits
    refine Or.inr ⟨_, _, rfl, hinv', hfresh, ⟨rfl, rfl, rfl, List.Subset.refl _, rfl⟩, ?_⟩
    exact Follows.of_inv hinv hinv' (fun _ _ => rfl) (fun _ _ hb => hb) rfl rfl
  · rcases h.mapPages_cases 1 .metadata (by decide) (by decide) with
      ⟨h', heq, hcore⟩ | ⟨h', base, heq, hfree, hcore⟩
    · rw [heq]
      exact Or.inl ⟨h', rfl, hcore⟩
    · rw [heq]
      obtain ⟨hinv', hfresh⟩ := hinv.pageNode hfree
      have hcore' : Heap.core { h' with
          metadata := { currentPage := base, offset := Metadata.NODE_SIZE } }
            = { h.core.map base 1 .metadata with
              metadata := { currentPage := base, offset := Metadata.NODE_SIZE } } := by
        rw [← hcore]
        rfl
      refine Or.inr ⟨_, _, rfl, ?_⟩
      rw [hcore']
      refine ⟨hinv', hfresh, ⟨rfl, rfl, rfl, List.subset_cons_self _ _, rfl⟩, ?_⟩
      have hmap := Follows.map hinv .metadata hfree (by decide) (by simp)
      exact Follows.of_inv hinv hinv' hmap.bytes (fun _ _ hb => hb) rfl rfl

/-! ### Small blocks -/

/-- Publishing in a node that could be had is one move of the core. -/
theorem core_publish {h' : Heap} {n : Nat} (heq : h.allocNode = (h', some n)) :
    (h.publish t c).core = h'.core.publish t c n := by
  have hcore : (h.publish t c).core = { (h'.setFreeMag t c Magazine.new).core with
      pools := Function.update h'.globalMagazines c { h'.globalMagazines c with fullHead := some n }
      nodes := GlobalMagazinePool.setNext
        (Function.update h'.nodes n { magazine := (h'.threads t).freeMags c, next := none })
        n (h'.globalMagazines c).fullHead
      carved := Function.update h'.carved c (h'.carved c + 1) } := by
    unfold publish
    rw [heq]
    rfl
  rw [hcore, core_setFreeMag]
  unfold GlobalMagazinePool.setNext
  simp only [Function.update_self, Function.update_idem]
  rfl

/-- The three ways a block can go: into the free magazine, into a new one after the full one was
published, or nowhere because no node could be had. -/
theorem deallocSmall_cases (hinv : Inv full empty h.core L) (t c block : Nat) :
    ((h.core.freeMags t c).slots.length < MAGAZINE_CAPACITY ∧
      ∃ m, m.OK ∧ m.slots = (h.core.freeMags t c).slots ++ [block] ∧
        (h.deallocSmall t c block).core
          = { h.core with freeMags := setMag h.core.freeMags t c m }) ∨
    (h.core.freeMags t c).slots.length = MAGAZINE_CAPACITY ∧
      (h.allocNode.2 = none ∧ (h.deallocSmall t c block).core
          = { h.core with nodeFailures := h.core.nodeFailures + 1 } ∨
        ∃ k n m, h.allocNode.2 = some n ∧ Inv full empty k L ∧ FreshNode full empty k n ∧
          SameMagazines h.core k ∧ Follows (Within L) h.core L k L ∧ m.OK ∧ m.slots = [block] ∧
          (h.deallocSmall t c block).core
            = { k.publish t c n with freeMags := setMag (k.publish t c n).freeMags t c m }) := by
  unfold deallocSmall
  rcases Magazine.push_cases (p := block) (hinv.blocks.mags t c).2 with
    ⟨hfull, hpush⟩ | ⟨hroom, m, hpush, hok, hslots⟩
  · refine Or.inr ⟨hfull, ?_⟩
    rw [freeMags_eq, hpush]
    simp only
    rcases allocNode_cases hinv with ⟨h', heq, hcore⟩ | ⟨h', n, heq, hinv', hfresh, hsame, hstep⟩
    · -- no node: the magazine stays full and the block does not go in
      refine Or.inl ⟨congrArg Prod.snd heq, ?_⟩
      have hcore' : (h.publish t c).core
          = { h.core with nodeFailures := h.core.nodeFailures + 1 } := by
        unfold publish
        rw [heq, ← hcore]
        rfl
      rw [freeMags_eq, core_countFree, core_setFreeMag, hcore']
      simp only [hpush, setMag_same]
    · right
      have hmag : (h.publish t c).core.freeMags t c = Magazine.new := by
        rw [core_publish heq]
        exact setMag_self
      obtain ⟨m, hpush', hok, hslots⟩ := Magazine.push_of_room (m := Magazine.new) (p := block)
        (by decide)
      refine ⟨h'.core, n, m, congrArg Prod.snd heq, hinv', hfresh, hsame, hstep, hok,
        by simpa using hslots, ?_⟩
      rw [freeMags_eq, hmag, hpush', core_countFree, core_setFreeMag, core_publish heq]
  · refine Or.inl ⟨hroom, m, hok, hslots, ?_⟩
    rw [freeMags_eq, hpush, core_countFree, core_setFreeMag]

/-- A block that cannot be kept is dropped, and the failure counted. -/
theorem drop_follows (hinv : Inv full empty k (a :: L)) :
    Follows P k (a :: L) { k with nodeFailures := k.nodeFailures + 1 } L where
  inv := by
    have hforget := hinv.forget.1
    exact ⟨full, empty, hforget.regions, hforget.blocks.frame rfl rfl rfl hforget.blocks.carved,
      hforget.pools, hforget.lives, hforget.cleared⟩
  bytes _ _ := rfl
  stored heq := absurd heq (Nat.succ_ne_self _)
  failures := Nat.le_succ _
  foreign := rfl

theorem deallocSmall_follows (hinv : Inv full empty h.core (a :: L)) (hs : a.Small)
    (hclass : classOf a.size = some c) :
    Follows (Within L) h.core (a :: L) (h.deallocSmall t c a.block).core L := by
  rcases deallocSmall_cases hinv t c a.block with ⟨-, m, hok, hslots, hcore⟩ | ⟨hfull, ⟨-, hcore⟩ |
    ⟨k, n, m, -, hinv', hfresh, hsame, hstep, hok, hslots, hcore⟩⟩
  · rw [hcore]
    exact Follows.freeSmall hinv hs hclass hok hslots
  · rw [hcore]
    exact drop_follows hinv
  · have hpub : Follows (Within L) k (a :: L) (k.publish t c n) (a :: L) := by
      refine Follows.publish hinv' hfresh ?_
      rw [hsame.freeMags]
      exact hfull
    obtain ⟨full', empty', hinv''⟩ := hpub.inv
    have hempty : ((k.publish t c n).freeMags t c).slots = [] := by
      show (setMag k.freeMags t c Magazine.new t c).slots = []
      rw [setMag_self, Magazine.new_slots]
    have hsub : ∀ x, Within L x → Within (a :: L) x :=
      fun x ⟨a', ha', hx⟩ => ⟨a', List.mem_cons_of_mem _ ha', hx⟩
    rw [hcore]
    refine ((hstep.weaken hsub).trans hpub).trans (Follows.freeSmall hinv'' hs hclass hok ?_)
    rw [hslots, hempty]
    rfl

/-! ### What the headers say -/

/-- The header of a small block is the size, which is neither of the two magic numbers. -/
theorem header_word (hinv : Inv full empty h.core L) (ha : a ∈ L) (hs : a.Small) :
    h.read (a.ptr - CACHE_HEADER_SIZE) 8 = a.size ∧
      h.read (a.ptr - LARGE_HEADER_SIZE) 4 ≠ LARGE_MAGIC ∧
      h.read (a.ptr - CACHE_HEADER_SIZE) 4 ≠ MAGIC :=
  hinv.ground.header_word ha hs

/-- The header of a small block is no large header, and tells its class. -/
theorem header_small (hinv : Inv full empty h.core L) (ha : a ∈ L) (hs : a.Small)
    (hclass : classOf a.size = some c) :
    h.read (a.ptr - LARGE_HEADER_SIZE) 4 ≠ LARGE_MAGIC ∧ h.headerClass a.ptr = some c := by
  obtain ⟨hread, hlarge, hmagic⟩ := header_word hinv ha hs
  refine ⟨hlarge, ?_⟩
  unfold headerClass
  simp only
  rw [if_pos ⟨by rw [hread]; exact hinv.lives.pos a ha, by rw [hread]; exact hs.1, hmagic⟩, hread]
  exact hclass

theorem getAllocSize_eq (hinv : Inv full empty h.core L) (ha : a ∈ L) :
    h.getAllocSize (some a.ptr) = a.size :=
  hinv.ground.getAllocSize_eq ha

/-- A small block goes to the free magazines of its class. -/
theorem dealloc_small (hinv : Inv full empty h.core L) (ha : a ∈ L) (hs : a.Small)
    (hclass : classOf a.size = some c) :
    h.dealloc t (some a.ptr) = h.deallocSmall t c a.block := by
  obtain ⟨hmagic, hheader⟩ := header_small hinv ha hs hclass
  unfold dealloc
  simp only
  rw [if_neg hmagic, hheader]
  rfl

/-- For a large allocation the header of its region is looked at. -/
theorem dealloc_large {r : Region} (hr : LargeAt h.core.mem h.core.regions r a) :
    h.dealloc t (some a.ptr) = (h.unmapHeader r.base).countFree t := by
  have hmagic : h.read (a.ptr - LARGE_HEADER_SIZE) 4 = LARGE_MAGIC := hr.magic
  have hbase : h.read (a.ptr - LARGE_HEADER_SIZE + 8) 8 = r.base := hr.basePtr
  unfold dealloc
  simp only
  rw [if_pos hmagic, hbase]

/-- Unmapping what the header of a large region describes gives the region up, or nothing. -/
theorem unmapHeader_follows {r : Region} (hinv : Inv full empty h.core (a :: L)) (hs : ¬ a.Small)
    (hr : LargeAt h.core.mem h.core.regions r a) :
    Follows P h.core (a :: L) (h.unmapHeader r.base).core L := by
  have hmagic : h.read r.base 4 = MAGIC := hr.pageMagic
  have hnum : h.read (r.base + 4) 4 = r.pages % 2 ^ 32 := hr.numPages
  unfold unmapHeader
  rw [hmagic, hnum]
  split
  · rename_i hpos
    obtain ⟨-, hal, -, -⟩ := hinv.regions.page r hr.region
    have hlt : r.pages % 2 ^ 32 < 2 ^ 32 := Nat.mod_lt _ (by decide)
    rw [unmapPages_core (by omega) hal (by unfold PAGE_SIZE; omega)]
    exact Follows.loseLarge hinv hs (hinv.loseLarge hs hr (Nat.mod_le _ _)) rfl rfl rfl rfl
  · exact Follows.loseLarge hinv hs hinv.forget.1 rfl rfl rfl rfl

/-- Freeing an allocation that heads the list. -/
theorem dealloc_head (hinv : Inv full empty h.core (a :: L)) :
    Follows (Within L) h.core (a :: L) (h.dealloc t (some a.ptr)).core L := by
  have hself : a ∈ a :: L := List.mem_cons_self ..
  by_cases hs : a.Small
  · obtain ⟨c, -, hclass, -⟩ := hinv.ground.small_block hself hs
    rw [dealloc_small hinv hself hs hclass]
    exact deallocSmall_follows hinv hs hclass
  · obtain ⟨r, hr, -⟩ := hinv.ground.large_region hself hs
    rw [dealloc_large hr, core_countFree]
    exact unmapHeader_follows hinv hs hr

/-- Only the region of a large allocation is given up. -/
theorem dealloc_retains {r : Region} (hinv : Inv full empty h.core L) (ha : a ∈ L)
    (hr : r ∈ h.core.regions) (hother : ¬ (r.purpose = .large ∧ r.Has a.ptr)) :
    r ∈ (h.dealloc t (some a.ptr)).core.regions := by
  by_cases hs : a.Small
  · obtain ⟨c, -, hclass, -⟩ := hinv.ground.small_block ha hs
    rw [dealloc_small hinv ha hs hclass]
    rcases deallocSmall_cases hinv t c a.block with ⟨-, m, -, -, hcore⟩ | ⟨-, ⟨-, hcore⟩ |
      ⟨k, n, m, -, -, -, hsame, -, -, -, hcore⟩⟩
    · rw [hcore]
      exact hr
    · rw [hcore]
      exact hr
    · rw [hcore]
      exact hsame.regions hr
  · obtain ⟨r₀, hr₀, hhas₀⟩ := hinv.ground.large_region ha hs
    rw [dealloc_large hr₀, core_countFree]
    unfold unmapHeader
    split
    · refine List.mem_filter.mpr ⟨hr, ?_⟩
      have hbase : r.base ≠ r₀.base := by
        intro hc
        have hhas := hinv.regions.has_base hr
        rw [hc] at hhas
        have hrr : r = r₀ := hinv.regions.unique hr hr₀.region hhas
          (hinv.regions.has_base hr₀.region)
        rw [hrr] at hother
        exact hother ⟨hr₀.purpose, hhas₀⟩
      simpa using hbase
    · exact hr

theorem dealloc_follows (hinv : Inv full empty h.core L) (ha : a ∈ L) :
    Follows (Within (drop L (some a.ptr))) h.core L (h.dealloc t (some a.ptr)).core
      (drop L (some a.ptr)) := by
  have hperm := hinv.ground.perm_drop ha
  exact (Follows.perm hinv hperm).trans (dealloc_head (hinv.perm hperm))

/-- Without a node the block goes nowhere; with one, or with room, it goes into the magazine. -/
theorem dealloc_recovers (hinv : Inv full empty h.core L) (ha : a ∈ L) (hs : a.Small)
    (hclass : classOf a.size = some c) :
    ((h.core.freeMags t c).count = MAGAZINE_CAPACITY ∧ h.allocNode.2 = none ∧
      (h.dealloc t (some a.ptr)).core.nodeFailures = h.core.nodeFailures + 1 ∧
      ∀ p, ¬ At (h.dealloc t (some a.ptr)).core (drop L (some a.ptr)) a.block p) ∨
    (((h.core.freeMags t c).count ≠ MAGAZINE_CAPACITY ∨ h.allocNode.2 ≠ none) ∧
      (h.dealloc t (some a.ptr)).core.nodeFailures = h.core.nodeFailures ∧
      At (h.dealloc t (some a.ptr)).core (drop L (some a.ptr)) a.block (.freeMag t c)) := by
  have hlen := Magazine.slots_length (hinv.blocks.mags t c).2
  rw [dealloc_small hinv ha hs hclass]
  rcases deallocSmall_cases hinv t c a.block with ⟨hroom, m, -, hslots, hcore⟩ | ⟨hfull,
    ⟨hnone, hcore⟩ | ⟨k, n, m, hsome, -, -, hsame, -, -, hslots, hcore⟩⟩
  · rw [hcore]
    refine Or.inr ⟨Or.inl (by omega), rfl, trivial, ?_⟩
    show a.block ∈ (setMag h.core.freeMags t c m t c).slots
    rw [setMag_self, hslots]
    exact List.mem_append_right _ (List.mem_singleton.mpr rfl)
  · rw [hcore]
    refine Or.inl ⟨by omega, hnone, rfl, fun p hat => ?_⟩
    -- the pointer is not held any more, and nothing else has the block
    obtain ⟨hrest, hgone⟩ := (hinv.perm (hinv.ground.perm_drop ha)).forget
    have hat' : At h.core (drop L (some a.ptr)) a.block p := hat
    exact hgone hs p (hrest.at_iff.mp hat')
  · rw [hcore]
    refine Or.inr ⟨Or.inr (by rw [hsome]; simp), hsame.nodeFailures, trivial, ?_⟩
    show a.block ∈ (setMag (k.publish t c n).freeMags t c m t c).slots
    rw [setMag_self, hslots]
    exact List.mem_singleton.mpr rfl

end Heap

end Aethalloc.Abi
