/-
What one part of a call leaves for the next.

`Keeps P` collects what is wanted of any piece of a run: the invariant holds after
it, the bytes of `P` are as they were, and, unless a node could not be had, every
block that was somewhere is still somewhere in its class.  `Follows` adds that the
rest of the process kept its pages, which calls need of each other.  Both compose,
so a call is followed move by move.

Where a block is, is told here from the heap alone: a node counts while following
the links from the head of the full stack reaches it.
-/
import Aethalloc.Proofs.Abi.Pools

namespace Aethalloc.Abi

open Lib

variable {full empty : Nat → List Nat} {k k' k'' : Core} {L L' L'' : List Allocation}
  {P : Nat → Prop} {a : Allocation} {b c n t x : Nat} {m : Magazine}

/-- The place counts: a node is on the full stack of the class. -/
def InUse (k : Core) : Place → Prop
  | .node c n => OnChain (link k.nodes) (k.pools c).fullHead n
  | _ => True

/-- The blocks at a place, slot by slot. -/
def stock (k : Core) (L : List Allocation) : Place → List Nat
  | .live c => liveBlocks L c
  | .allocMag t c => (k.allocMags t c).slots
  | .freeMag t c => (k.freeMags t c).slots
  | .node _ n => (k.nodes n).magazine.slots

/-- The block is at the place. -/
def At (k : Core) (L : List Allocation) (b : Nat) (p : Place) : Prop :=
  InUse k p ∧ b ∈ stock k L p

/-- The block is at some place of the class. -/
def Stored (k : Core) (L : List Allocation) (b c : Nat) : Prop := ∃ p, p.cls = c ∧ At k L b p

/-- Between calls, what is at a place that counts is what the invariant has there. -/
theorem Inv.stock_eq (h : Inv full empty k L) {p : Place} (hp : InUse k p) :
    stock k L p = contents full k L p := by
  cases p with
  | live c => rfl
  | allocMag t c => rfl
  | freeMag t c => rfl
  | node c n => exact (if_pos ((h.pools.fullChain c).onChain_iff.mp hp)).symm

theorem Inv.at_iff (h : Inv full empty k L) {p : Place} : At k L b p ↔ b ∈ contents full k L p := by
  constructor
  · rintro ⟨hp, hb⟩
    rw [h.stock_eq hp] at hb
    exact hb
  · intro hb
    have hp : InUse k p := by
      cases p with
      | live c => trivial
      | allocMag t c => trivial
      | freeMag t c => trivial
      | node c n =>
          refine (h.pools.fullChain c).onChain_iff.mpr ?_
          by_contra hn
          have hnil : contents full k L (.node c n) = [] := if_neg hn
          rw [hnil] at hb
          exact absurd hb List.not_mem_nil
    refine ⟨hp, ?_⟩
    rw [h.stock_eq hp]
    exact hb

theorem Inv.stored_iff (h : Inv full empty k L) :
    Stored k L b c ↔ Held Place.cls (contents full k L) b c := by
  unfold Stored Held
  simp only [h.at_iff]

/-- The address is in the range of one of the allocations. -/
def Within (L : List Allocation) (x : Nat) : Prop := ∃ a ∈ L, a.InRange x

/-- What a piece of a run does: see the header. -/
structure Keeps (P : Nat → Prop) (k : Core) (L : List Allocation) (k' : Core)
    (L' : List Allocation) : Prop where
  inv : ∃ full empty, Inv full empty k' L'
  bytes : ∀ x, P x → k'.mem x = k.mem x
  stored : k'.nodeFailures = k.nodeFailures → ∀ b c, Stored k L b c → Stored k' L' b c
  failures : k.nodeFailures ≤ k'.nodeFailures

structure Follows (P : Nat → Prop) (k : Core) (L : List Allocation) (k' : Core)
    (L' : List Allocation) : Prop extends Keeps P k L k' L' where
  foreign : k'.foreign = k.foreign

namespace Follows

theorem refl (h : Inv full empty k L) : Follows P k L k L where
  inv := ⟨full, empty, h⟩
  bytes _ _ := rfl
  stored _ _ _ hb := hb
  failures := Nat.le_refl _
  foreign := rfl

theorem trans (h₁ : Follows P k L k' L') (h₂ : Follows P k' L' k'' L'') :
    Follows P k L k'' L'' where
  inv := h₂.inv
  bytes x hx := (h₂.bytes x hx).trans (h₁.bytes x hx)
  stored heq b c hb := by
    have hle₁ := h₁.failures
    have hle₂ := h₂.failures
    exact h₂.stored (by omega) b c (h₁.stored (by omega) b c hb)
  failures := Nat.le_trans h₁.failures h₂.failures
  foreign := h₂.foreign.trans h₁.foreign

theorem weaken {Q : Nat → Prop} (h : Follows P k L k' L') (hsub : ∀ x, Q x → P x) :
    Follows Q k L k' L' where
  inv := h.inv
  bytes x hx := h.bytes x (hsub x hx)
  stored := h.stored
  failures := h.failures
  foreign := h.foreign

/-- A move that keeps the invariant and loses no block. -/
theorem of_inv {full' empty' : Nat → List Nat} (h : Inv full empty k L)
    (h' : Inv full' empty' k' L') (hbytes : ∀ x, P x → k'.mem x = k.mem x)
    (hheld : ∀ b c, Held Place.cls (contents full k L) b c →
      Held Place.cls (contents full' k' L') b c)
    (hfail : k'.nodeFailures = k.nodeFailures) (hforeign : k'.foreign = k.foreign) :
    Follows P k L k' L' where
  inv := ⟨full', empty', h'⟩
  bytes := hbytes
  stored _ b c hb := h'.stored_iff.mpr (hheld b c (h.stored_iff.mp hb))
  failures := Nat.le_of_eq hfail.symm
  foreign := hforeign

/-! ### Moves between magazines -/

/-- The two magazines of a thread and class change roles. -/
theorem swapMags (h : Inv full empty k L) : Follows P k L { k with
    allocMags := setMag k.allocMags t c (k.freeMags t c)
    freeMags := setMag k.freeMags t c (k.allocMags t c) } L := by
  refine of_inv h h.swapMags (fun _ _ => rfl) (fun b c' hb => ?_) rfl rfl
  rw [contents_setMags]
  exact hb.swap rfl

/-- A full magazine is taken for an empty one. -/
theorem takeFull (h : Inv full empty k L) (hhead : (k.pools c).fullHead = some n)
    (hempty : (k.allocMags t c).slots = []) : Follows P k L (k.takeFull t c n) L := by
  obtain ⟨rest, hfull, hinv⟩ := h.takeFull hhead hempty
  refine of_inv h hinv (fun _ _ => rfl) (fun b c' hb => ?_) rfl rfl
  rw [contents_takeFull h hfull hempty]
  exact hb.swap rfl

/-- A full magazine is published in a fresh node. -/
theorem publish (h : Inv full empty k L) (hn : FreshNode full empty k n)
    (hfull : (k.freeMags t c).slots.length = MAGAZINE_CAPACITY) :
    Follows P k L (k.publish t c n) L := by
  have hnew : ∀ c, n ∉ full c := fun c => hn.2 (true, c)
  refine of_inv h (h.publish hn hfull) (fun _ _ => rfl) (fun b c' hb => ?_) rfl rfl
  rw [contents_publish hnew]
  exact hb.swap rfl

/-- Blocks that are nowhere go into an alloc magazine. -/
theorem putAlloc {l : List Nat} (h : Inv full empty k L) (hok : m.OK)
    (hslots : m.slots = (k.allocMags t c).slots ++ l) (hl : l.Nodup)
    (hnew : ∀ p, ∀ b ∈ l, b ∉ contents full k L p) (hcarved : ∀ b ∈ l, Carved k.regions b c) :
    Follows P k L { k with allocMags := setMag k.allocMags t c m } L := by
  refine of_inv h (h.putAlloc hok hslots hl hnew hcarved) (fun _ _ => rfl) (fun b c' hb => ?_)
    rfl rfl
  rw [contents_setAlloc]
  refine hb.put ?_
  rw [hslots]
  exact List.subset_append_left _ _

/-! ### Pages and bytes -/

/-- Fresh pages are mapped. -/
theorem map {base pages : Nat} (h : Inv full empty k L) (purpose : Purpose)
    (hfree : k.Free base pages) (hpos : pages ≠ 0)
    (hsmall : ∀ c, purpose = .small c → c < 13 ∧ blockSize c ≤ pages * PAGE_SIZE) :
    Follows (Within L) k L (k.map base pages purpose) L := by
  obtain ⟨hinv, hkeep⟩ := h.map purpose hfree hpos hsmall
  refine of_inv h hinv (fun x hx => ?_) (fun b c hb => hb) rfl rfl
  obtain ⟨a, ha, hx⟩ := hx
  exact hkeep a ha x (h.ground.range_footprint ha hx)

/-- The range of an allocation is written. -/
theorem fillRange {mem : Mem} (h : Inv full empty k (a :: L))
    (hmem : ∀ x, ¬ a.InRange x → mem x = k.mem x) :
    Follows (Within L) k (a :: L) { k with mem := mem } (a :: L) := by
  have hself : a ∈ a :: L := List.mem_cons_self ..
  have hnd := (List.nodup_cons.mp h.lives.ptrs).1
  refine of_inv h (h.setMem mem fun a' ha' x hx => hmem x fun hc => ?_)
    (fun x hx => hmem x fun hc => ?_) (fun b c hb => hb) rfl rfl
  · exact h.ground.range_no_header hself hc ha' hx
  · obtain ⟨a', ha', hx⟩ := hx
    have hmem' : a' ∈ a :: L := List.mem_cons_of_mem _ ha'
    have haa : a = a' := h.ground.footprint_unique hself hmem' (h.ground.range_footprint hself hc)
      (h.ground.range_footprint hmem' hx)
    subst haa
    exact hnd (List.mem_map.mpr ⟨a, ha', rfl⟩)

/-- The order of what is live does not matter. -/
theorem perm (h : Inv full empty k L) (hp : L.Perm L') : Follows P k L k L' := by
  refine of_inv h (h.perm hp) (fun _ _ => rfl) (fun b c hb => ?_) rfl rfl
  obtain ⟨p, hcls, hb⟩ := hb
  exact ⟨p, hcls, (contents_perm hp p).mem_iff.mp hb⟩

/-! ### Allocations -/

/-- A block that is nowhere becomes live. -/
theorem gainSmall {size align : Nat} (h : Inv full empty k L) (hb : Carved k.regions b c)
    (hnew : ∀ p, b ∉ contents full k L p) (hpos : 0 < size)
    (hsmall : size ≤ MAX_CACHE_SIZE ∧ align ≤ 8) (hclass : classOf size = some c) :
    Follows (Within L) k L { k with mem := k.mem.write b 8 size }
      ({ ptr := b + CACHE_HEADER_SIZE, size := size, align := align } :: L) := by
  obtain ⟨hinv, hkeep⟩ := h.gainSmall align hb hnew hpos hsmall hclass
  have hcontents := contents_gain full k L
    (a := { ptr := b + CACHE_HEADER_SIZE, size := size, align := align }) hsmall hclass
  refine of_inv h hinv (fun x hx => ?_) (fun b' c' hb' => ?_) rfl rfl
  · obtain ⟨a, ha, hx⟩ := hx
    exact hkeep a ha x (h.ground.range_footprint ha hx)
  · show Held Place.cls (contents full k _) b' c'
    rw [hcontents]
    exact hb'.put (List.subset_cons_self _ _)

/-- A block comes out of an alloc magazine and becomes live. -/
theorem serve {size align : Nat} (h : Inv full empty k L)
    (hpop : (k.allocMags t c).pop = (some b, m)) (hpos : 0 < size)
    (hsmall : size ≤ MAX_CACHE_SIZE ∧ align ≤ 8) (hclass : classOf size = some c) :
    Follows (Within L) k L { k with
        allocMags := setMag k.allocMags t c m
        mem := k.mem.write b 8 size }
      ({ ptr := b + CACHE_HEADER_SIZE, size := size, align := align } :: L) := by
  obtain ⟨hinv, hcarved, hnone⟩ := h.popAlloc hpop
  obtain ⟨hinv', hkeep⟩ := hinv.gainSmall align hcarved hnone hpos hsmall hclass
  have hslots : (k.allocMags t c).slots = m.slots ++ [b] :=
    Magazine.slots_of_pop (h.blocks.mags t c).1 hpop
  have hcontents := contents_gain full { k with allocMags := setMag k.allocMags t c m } L
    (a := { ptr := b + CACHE_HEADER_SIZE, size := size, align := align }) hsmall hclass
  refine of_inv h hinv' (fun x hx => ?_) (fun b' c' hb' => ?_) rfl rfl
  · obtain ⟨a, ha, hx⟩ := hx
    exact hkeep a ha x (h.ground.range_footprint ha hx)
  · show Held Place.cls (contents full { k with allocMags := setMag k.allocMags t c m } _) b' c'
    rw [hcontents, contents_setAlloc]
    refine hb'.carry (y := b) h.blocks.exclusive (by simp) rfl ?_ ?_ (List.subset_cons_self _ _)
    · show (k.allocMags t c).slots.Perm _
      rw [hslots]
      exact List.perm_append_singleton b _
    · exact List.mem_cons.mpr (Or.inl (Nat.add_sub_cancel ..).symm)

/-- A fresh region becomes a large allocation. -/
theorem gainLarge {base pages size align user : Nat} (h : Inv full empty k L)
    (hfree : k.Free base pages) (hpos : pages ≠ 0) (hsize : 0 < size)
    (hlarge : ¬ (size ≤ MAX_CACHE_SIZE ∧ align ≤ 8)) (hlow : base + 32 ≤ user)
    (hhigh : user + size ≤ base + pages * PAGE_SIZE) :
    Follows (Within L) k L { k.map base pages .large with
        mem := largeHeaders (k.map base pages .large).mem base pages size user }
      ({ ptr := user, size := size, align := align } :: L) := by
  obtain ⟨hinv, hkeep⟩ := h.gainLarge align hfree hpos hsize hlarge hlow hhigh
  refine of_inv h hinv (fun x hx => ?_) (fun b c hb => ?_) rfl rfl
  · obtain ⟨a, ha, hx⟩ := hx
    exact hkeep a ha x (h.ground.range_footprint ha hx)
  · show Held Place.cls (contents full k _) b c
    rw [contents_gain_large full k L (a := { ptr := user, size := size, align := align }) hlarge]
    exact hb

/-- The block of an allocation goes into a free magazine with room. -/
theorem freeSmall (h : Inv full empty k (a :: L)) (hs : a.Small) (hclass : classOf a.size = some c)
    (hok : m.OK) (hslots : m.slots = (k.freeMags t c).slots ++ [a.block]) :
    Follows P k (a :: L) { k with freeMags := setMag k.freeMags t c m } L := by
  obtain ⟨hinv, hnone⟩ := h.forget
  have hmem : a.block ∈ contents full k (a :: L) (.live c) :=
    mem_liveBlocks.mpr ⟨a, List.mem_cons_self .., hs, hclass, rfl⟩
  have hgain := contents_gain full k L hs hclass
  have hback : contents full k L
      = Function.update (contents full k (a :: L)) (.live c) (liveBlocks L c) := by
    rw [hgain, Function.update_idem]
    exact (Function.update_eq_self _ _).symm
  refine of_inv h (hinv.putFree hok hslots (hnone hs) (h.blocks.carved (.live c) _ hmem))
    (fun _ _ => rfl) (fun b c' hb => ?_) rfl rfl
  rw [contents_setFree, hback]
  refine hb.carry (y := a.block) h.blocks.exclusive (by simp) rfl ?_ (by rw [hslots]; simp) ?_
  · rw [hgain, Function.update_self]
  · show (k.freeMags t c).slots ⊆ _
    rw [hslots]
    exact List.subset_append_left _ _

/-- A large allocation is forgotten, with its region or without. -/
theorem loseLarge (h : Inv full empty k (a :: L)) (hs : ¬ a.Small) (h' : Inv full empty k' L)
    (hmem : k'.mem = k.mem) (hcontents : contents full k' L = contents full k L)
    (hfail : k'.nodeFailures = k.nodeFailures) (hforeign : k'.foreign = k.foreign) :
    Follows P k (a :: L) k' L := by
  refine of_inv h h' (fun x _ => by rw [hmem]) (fun b c hb => ?_) hfail hforeign
  rw [hcontents, ← contents_gain_large full k L hs]
  exact hb

end Follows

end Aethalloc.Abi
