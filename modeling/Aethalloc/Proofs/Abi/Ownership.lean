/-
Allocations begin and end.

What that does to the ground is known; here it is taken over to the whole
invariant.  A block that is nowhere becomes live, and a block that stops being live
is then nowhere, until it is put into a magazine.
-/
import Aethalloc.Proofs.Abi.Moves

namespace Aethalloc.Abi

open Lib

variable {full empty : Nat → List Nat} {k : Core} {L L' : List Allocation} {a : Allocation}
  {b c x size align : Nat}

/-! ### The order of the list does not matter -/

theorem contents_perm (hp : L.Perm L') (p : Place) :
    (contents full k L p).Perm (contents full k L' p) := by
  cases p with
  | live c => exact (hp.filter _).map _
  | allocMag t c => exact List.Perm.refl _
  | freeMag t c => exact List.Perm.refl _
  | node c n => exact List.Perm.refl _

theorem Inv.perm (h : Inv full empty k L) (hp : L.Perm L') : Inv full empty k L' where
  regions := h.regions
  blocks := {
    exclusive := h.blocks.exclusive.perm (contents_perm hp)
    carved := fun p b hb => h.blocks.carved p b ((contents_perm hp p).mem_iff.mpr hb)
    mags := h.blocks.mags
    nodeMags := h.blocks.nodeMags
    fullMags := h.blocks.fullMags }
  pools := h.pools
  lives := (h.ground.perm hp).lives
  cleared := h.cleared

/-! ### Small allocations -/

/-- A block that is nowhere becomes live. -/
theorem Inv.gainSmall (h : Inv full empty k L) (align : Nat) (hb : Carved k.regions b c)
    (hnew : ∀ p, b ∉ contents full k L p) (hpos : 0 < size)
    (hsmall : size ≤ MAX_CACHE_SIZE ∧ align ≤ 8) (hclass : classOf size = some c) :
    Inv full empty { k with mem := k.mem.write b 8 size }
        ({ ptr := b + CACHE_HEADER_SIZE, size := size, align := align } :: L) ∧
      ∀ a ∈ L, ∀ x, Footprint k.regions a x → k.mem.write b 8 size x = k.mem x := by
  obtain ⟨hground, hkeep⟩ :=
    h.ground.gainSmall align hb (fun c => hnew (.live c)) hpos hsmall hclass
  have hcontents := contents_gain full k L
    (a := { ptr := b + CACHE_HEADER_SIZE, size := size, align := align }) hsmall hclass
  have hself : (Allocation.mk (b + CACHE_HEADER_SIZE) size align).block = b := Nat.add_sub_cancel ..
  rw [hself] at hcontents
  refine ⟨{
    regions := h.regions
    blocks := ⟨?_, ?_, h.blocks.mags, h.blocks.nodeMags, h.blocks.fullMags⟩
    pools := h.pools
    lives := hground.lives
    cleared := h.cleared }, hkeep⟩
  · show Exclusive (contents full k _)
    rw [hcontents]
    refine h.blocks.exclusive.put (List.nodup_singleton b) ?_ (List.Perm.refl _)
    intro p b' hb'
    obtain rfl := List.mem_singleton.mp hb'
    exact hnew p
  · intro p b' hb'
    have hb'' : b' ∈ contents full k
      ({ ptr := b + CACHE_HEADER_SIZE, size := size, align := align } :: L) p := hb'
    rw [hcontents] at hb''
    by_cases hp : p = .live c
    · subst hp
      rw [Function.update_self] at hb''
      rcases List.mem_cons.mp hb'' with rfl | hb''
      · exact hb
      · exact h.blocks.carved (.live c) b' hb''
    · rw [Function.update_of_ne hp] at hb''
      exact h.blocks.carved p b' hb''

/-- An allocation is no longer held; the block of a small one is then nowhere. -/
theorem Inv.forget (h : Inv full empty k (a :: L)) : Inv full empty k L ∧
    (a.Small → ∀ p, a.block ∉ contents full k L p) := by
  have hlives := h.ground.forget.lives
  by_cases hs : a.Small
  · obtain ⟨c, -, hclass, -⟩ := h.ground.small_block (List.mem_cons_self ..) hs
    have hcontents := contents_gain full k L hs hclass
    have hback : Function.update (contents full k (a :: L)) (.live c) (liveBlocks L c)
        = contents full k L := by
      rw [hcontents, Function.update_idem]
      exact Function.update_eq_self _ _
    have hperm : (contents full k (a :: L) (.live c)).Perm (a.block :: liveBlocks L c) := by
      rw [hcontents, Function.update_self]
    obtain ⟨hex, hnone⟩ := h.blocks.exclusive.take hperm
    rw [hback] at hex hnone
    refine ⟨⟨h.regions, ⟨hex, fun p b hb => h.blocks.carved p b ?_, h.blocks.mags,
      h.blocks.nodeMags, h.blocks.fullMags⟩, h.pools, hlives, h.cleared⟩, fun _ => hnone⟩
    rw [hcontents]
    by_cases hp : p = .live c
    · subst hp
      rw [Function.update_self]
      exact List.mem_cons_of_mem _ hb
    · rw [Function.update_of_ne hp]
      exact hb
  · have hcontents := contents_gain_large full k L hs
    have hex := h.blocks.exclusive
    have hcarved := h.blocks.carved
    rw [hcontents] at hex hcarved
    exact ⟨⟨h.regions, ⟨hex, hcarved, h.blocks.mags, h.blocks.nodeMags, h.blocks.fullMags⟩, h.pools,
      hlives, h.cleared⟩, fun hs' => absurd hs' hs⟩

/-! ### Large allocations -/

/-- A fresh region becomes a large allocation. -/
theorem Inv.gainLarge {base pages user : Nat} (h : Inv full empty k L) (align : Nat)
    (hfree : k.Free base pages)
    (hpos : pages ≠ 0) (hsize : 0 < size) (hlarge : ¬ (size ≤ MAX_CACHE_SIZE ∧ align ≤ 8))
    (hlow : base + 32 ≤ user)
    (hhigh : user + size ≤ base + pages * PAGE_SIZE) :
    Inv full empty { k.map base pages .large with
        mem := largeHeaders (k.map base pages .large).mem base pages size user }
        ({ ptr := user, size := size, align := align } :: L) ∧
      ∀ a ∈ L, ∀ x, Footprint k.regions a x →
        largeHeaders (k.map base pages .large).mem base pages size user x = k.mem x := by
  obtain ⟨hground, hkeep⟩ := h.ground.gainLarge align hfree hpos hsize hlarge hlow hhigh
  obtain ⟨hmap, -⟩ := h.map .large hfree hpos (by simp)
  have hcontents := contents_gain_large full k L
    (a := { ptr := user, size := size, align := align }) hlarge
  refine ⟨{
    regions := hground.regions
    blocks := ⟨?_, ?_, h.blocks.mags, h.blocks.nodeMags, h.blocks.fullMags⟩
    pools := hmap.pools
    lives := hground.lives
    cleared := h.cleared }, hkeep⟩
  · show Exclusive (contents full k _)
    rw [hcontents]
    exact h.blocks.exclusive
  · intro p b hb
    have hb' : b ∈ contents full k ({ ptr := user, size := size, align := align } :: L) p := hb
    rw [hcontents] at hb'
    exact hmap.blocks.carved p b hb'

/-- A large allocation ends and its region is given up, whatever part of it is unmapped. -/
theorem Inv.loseLarge {r : Region} {pages : Nat} (h : Inv full empty k (a :: L)) (hs : ¬ a.Small)
    (hr : LargeAt k.mem k.regions r a) (hpages : pages ≤ r.pages) :
    Inv full empty (k.unmap r.base pages) L := by
  have hground := h.ground.loseLarge hs hr hpages
  have hrest := h.forget.1
  have hpurpose : ∀ r' ∈ k.regions, r'.purpose ≠ .large → r' ∈ (k.unmap r.base pages).regions :=
    fun r' hr' hp => h.ground.regions.stays hr.region hr'
      (fun hc => hp (by rw [hc]; exact hr.purpose)) pages
  refine {
    regions := hground.regions
    blocks := hrest.blocks.frame rfl rfl rfl fun p b hb =>
      (hrest.blocks.carved p b hb).unmap h.ground.regions hr.region hr.purpose pages
    pools := ⟨h.pools.fullChain, h.pools.emptyChain, h.pools.exclusive, fun s n hn => ?_,
      ⟨h.pools.page.1, h.pools.page.2.1, fun hle => ?_⟩, h.pools.count⟩
    lives := hground.lives
    cleared := h.cleared }
  · obtain ⟨r', hr', hp, hnode⟩ := h.pools.node s n hn
    exact ⟨r', hpurpose r' hr' (by simp [hp]), hp, hnode⟩
  · obtain ⟨r', hr', hp, hpage⟩ := h.pools.page.2.2 hle
    exact ⟨r', hpurpose r' hr' (by simp [hp]), hp, hpage⟩

end Aethalloc.Abi
