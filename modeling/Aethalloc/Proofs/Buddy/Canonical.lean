/-
Free memory is coalesced as far as it goes.

In a region whose address has bits 14 to 17 clear, flipping a bit of an address and
taking the other half of a block are the same thing, so no two free blocks are
halves of one block.  What is free then determines the free blocks: two runs that
leave the same blocks live leave the same free lists, whatever they did before, and
a request fails to find a block only when no aligned range of its size is free.

Once everything is freed such a region is one block again.  With one of the four
bits set it never is: the lowest block of that order looks for its buddy below the
region and stays alone.
-/
import Aethalloc.Proofs.Buddy

namespace Aethalloc.Buddy

open Lib

variable {F : Nat → List Nat} {L : List Block} {s : BuddyAllocator} {w w' : World} {mem mem' : Mem}
  {r : Nat}

/-- Bits 14 to 17 of the address are clear. -/
def BitsClear (r : Nat) : Prop := r % 2 ^ 18 < 2 ^ 14

instance (r : Nat) : Decidable (BitsClear r) := inferInstanceAs (Decidable (_ < _))

/-! ### Runs in such regions -/

/-- A run whose regions all have these bits clear is well placed, and has a base region once it has
a region. -/
theorem reaches_bitsClear (h : (machine mem).Reaches w)
    (hbits : ∀ q ∈ w.buddy.regions, BitsClear q) : (machine mem).ReachesUnder WellPlaced w ∧
      (w.buddy.regions ≠ [] → w.buddy.base ≠ none) := by
  refine Machine.Reaches.invariant (P := fun w => (∀ q ∈ w.buddy.regions, BitsClear q) →
    (machine mem).ReachesUnder WellPlaced w ∧ (w.buddy.regions ≠ [] → w.buddy.base ≠ none))
    (fun _ => ⟨.init, fun hne => absurd rfl hne⟩) (fun w l w' ih hstep hbits => ?_) h hbits
  have hgrows := step_grows hstep
  obtain ⟨hreach, hbase⟩ := ih fun q hq => hbits q (hgrows.keeps hq)
  obtain ⟨l', hstep', huses⟩ := hgrows.used
  refine ⟨hreach.step (l := l') ?_ hstep', hgrows.base hbase⟩
  cases l' with
  | alloc size answers fuel =>
      intro p hp
      have hp' : BitsClear p := hbits p (huses p hp)
      unfold BitsClear at hp'
      refine ⟨by omega, fun q hq hbit => ?_⟩
      have hq' : BitsClear q := hbits q (hgrows.keeps hq)
      unfold BitsClear at hq'
      omega
  | dealloc ptr size fuel => trivial
  | write addr byte => trivial

/-- What holds of a run with one such region. -/
theorem reaches_single (h : (machine mem).Reaches w) (hr : w.buddy.regions = [r])
    (hbits : BitsClear r) : w.buddy.base = some r ∧ ∃ F, Inv F (liveBlocks w) [] w.buddy := by
  obtain ⟨hreach, hbase⟩ := reaches_bitsClear h fun q hq => by
    rw [hr] at hq
    rw [List.mem_singleton.mp hq]
    exact hbits
  obtain ⟨F, hF⟩ := good_of_reachesUnder hreach
  obtain ⟨b, hb⟩ := Option.ne_none_iff_exists'.mp (hbase (by rw [hr]; simp))
  have hmem := (hF.regions.base b hb).1
  rw [hr] at hmem
  rw [hb, List.mem_singleton.mp hmem]
  exact ⟨rfl, F, hF⟩

/-- The buddy of a block is the other half, also by address. -/
theorem xor_eq_sibling {a o : Nat} (h : Placed MAX_ORDER r (a, o)) (hlow : MIN_ORDER ≤ o)
    (ho : o < MAX_ORDER) (hbits : BitsClear r) : a ^^^ 2 ^ o = sibling r a o := by
  unfold BitsClear at hbits
  rcases xor_cases h hlow ho (by omega) with hsib | ⟨hbit, -⟩
  · exact hsib
  · omega

/-- Both halves of a block lie in its region. -/
theorem inRegion_sibling {a o : Nat} (h : Placed MAX_ORDER r (a, o)) (ho : o < MAX_ORDER) :
    InRegion r a ∧ InRegion r (sibling r a o) := by
  have hpos : 0 < 2 ^ o := Nat.two_pow_pos o
  have hpow : 2 ^ (o + 1) = 2 ^ o * 2 := Nat.pow_succ 2 o
  unfold InRegion
  rcases sibling_cases h ho with ⟨hs, -, hlow, hend, -⟩ | ⟨hs, -, hlow, hend, -⟩ <;>
    simp only at hlow hend <;> omega

/-- No two free blocks of the base region are halves of one block. -/
theorem Inv.coalesced (h : Inv F L [] s) (hbase : s.base = some r) (hbits : BitsClear r) :
    Coalesced MAX_ORDER r (freeBlocks F) := by
  intro a o hmem hplaced ho hsib
  obtain ⟨i, hi, hoi, ha⟩ := mem_freeBlocks.mp hmem
  obtain ⟨j, hj, hoj, hb⟩ := mem_freeBlocks.mp hsib
  simp only at hoi hoj ha hb
  obtain rfl : i = j := by omega
  obtain ⟨hin, hin'⟩ := inRegion_sibling hplaced ho
  rw [← xor_eq_sibling hplaced (by omega) ho hbits, hoi] at hb hin'
  exact h.maximal i hi a ha ⟨r, hbase, hin⟩ ⟨r, hbase, hin'⟩ hb

theorem Inv.free_minOrder (h : Inv F L [] s) : ∀ b ∈ freeBlocks F, MIN_ORDER ≤ b.2 :=
  fun b hb => h.minOrder b (List.mem_append_right _ (List.mem_append_right _ hb))

/-- A range of a region that no live block covers is covered by free blocks. -/
theorem Inv.free_of_not_live {a o : Nat} (h : Inv F L [] s) (hr : r ∈ s.regions)
    (hplaced : Placed MAX_ORDER r (a, o))
    (hnot : ∀ x, Block.Covers (a, o) x → ∀ b ∈ L, ¬ b.Covers x) :
    ∀ x, Block.Covers (a, o) x → ∃ b ∈ freeBlocks F, b.Covers x := by
  intro x hx
  obtain ⟨-, hlow, hend, -⟩ := hplaced
  have hin : r ≤ x ∧ x < r + 2 ^ MAX_ORDER := by
    unfold Block.Covers at hx
    omega
  obtain ⟨b, hb, hbx⟩ := h.tiled.exists_covers hr hin
  rcases List.mem_append.mp hb with hb | hb
  · exact absurd hb List.not_mem_nil
  · rcases List.mem_append.mp hb with hb | hb
    · exact absurd hbx (hnot x hx b hb)
    · exact ⟨b, hb, hbx⟩

/-- An aligned range that no live block covers lies in one free block. -/
theorem Inv.absorbs {a o : Nat} (h : Inv F L [] s) (hbase : s.base = some r) (hbits : BitsClear r)
    (hlow : MIN_ORDER ≤ o) (hplaced : Placed MAX_ORDER r (a, o))
    (hnot : ∀ x, Block.Covers (a, o) x → ∀ b ∈ L, ¬ b.Covers x) :
    ∃ b ∈ freeBlocks F, Block.Inside (a, o) b := by
  have hr := (h.regions.base r hbase).1
  have htiled : Tiled MAX_ORDER s.regions (L ++ freeBlocks F) := h.tiled
  exact htiled.absorbs hr (h.coalesced hbase hbits) h.free_minOrder hlow a hplaced
    (h.free_of_not_live hr hplaced hnot)

/-- With a free block of the order or above, `alloc` maps nothing. -/
theorem Inv.alloc_unmapped {k : Nat} {b : Block} (h : Inv F L [] s) (hlow : MIN_ORDER ≤ k)
    (hb : b ∈ freeBlocks F) (hle : k ≤ b.2) :
    ∃ s' p, (∀ fuel answers, Buddy.alloc (fuel + 1) s (2 ^ k) answers = some (s', some p)) ∧
      Served L k s' (some p) ∧ s'.regions = s.regions := by
  obtain ⟨j, hj, hbj, hmem⟩ := mem_freeBlocks.mp hb
  have hhead : s.freeLists j ≠ none := by
    intro hnone
    have hchain := h.lists.chain j hj
    rw [hnone] at hchain
    rw [hchain.eq_nil_of_none] at hmem
    exact absurd hmem List.not_mem_nil
  have hjmax : MIN_ORDER + j ≤ MAX_ORDER := by
    unfold NUM_ORDERS MAX_ORDER MIN_ORDER at *
    omega
  have horder : trailingZeros (2 ^ k) = k :=
    trailingZeros_two_pow (Nat.lt_of_le_of_lt (by omega : k ≤ MAX_ORDER) (by decide))
  obtain ⟨s', p, hresult⟩ := alloc_total s (2 ^ k) []
  have hserved := h.served (fun p hp => absurd hp List.not_mem_nil) hresult
  rw [horder] at hserved
  cases hresult with
  | outside hrange => omega
  | found hk hkj hj hfirst hblock =>
      exact ⟨_, _, alloc_takes hk hkj hj hfirst hblock, hserved, takeBlock_regions.regions⟩
  | refused hk _ hempty _ => exact absurd (hempty j (by omega) hj) hhead
  | mapped _ _ _ hans _ => cases hans

/-! ### The free blocks are determined by the live ones -/

theorem Inv.onList_iff {F : Nat → List Nat} {i b : Nat} (h : Inv F L [] s) (hi : i < NUM_ORDERS) :
    OnList s i b ↔ (b, MIN_ORDER + i) ∈ freeBlocks F := by
  unfold OnList
  rw [(h.lists.chain i hi).onChain_iff, mem_freeBlocks]
  constructor
  · intro hb
    exact ⟨i, hi, rfl, hb⟩
  · rintro ⟨j, -, hij, hb⟩
    simp only at hij hb
    rw [show i = j by omega]
    exact hb

/-- One direction of the comparison of two runs. -/
theorem Inv.onList_of_live {F' : Nat → List Nat} {L' : List Block} {s' : BuddyAllocator} {i b : Nat}
    (h : Inv F L [] s) (h' : Inv F' L' [] s') (hr : s.regions = [r]) (hr' : s'.regions = [r])
    (hbase : s.base = some r) (hbase' : s'.base = some r) (hbits : BitsClear r)
    (hL : ∀ b, b ∈ L ↔ b ∈ L') (hi : i < NUM_ORDERS) (hb : OnList s i b) : OnList s' i b := by
  rw [h.onList_iff hi] at hb
  rw [h'.onList_iff hi]
  have htiled : Tiled MAX_ORDER [r] (L ++ freeBlocks F) := by
    rw [← hr]
    exact h.tiled
  have htiled' : Tiled MAX_ORDER [r] (L' ++ freeBlocks F') := by
    rw [← hr']
    exact h'.tiled
  obtain ⟨q, hq, hplaced⟩ := htiled.placed _ (List.mem_append_right _ hb)
  rw [List.mem_singleton.mp hq] at hplaced
  exact htiled.canonical htiled' (List.mem_singleton.mpr rfl) (h.coalesced hbase hbits)
    (h'.coalesced hbase' hbits) h.free_minOrder h'.free_minOrder hL hb hplaced

/--
**The state is canonical.**  Two runs in one region aligned to its size that end
with the same live blocks end with the same blocks on every free list; and as long
as some aligned range of the size asked for is free, no second region is mapped.
-/
theorem buddy_canonical (mem mem' : Mem) (w w' : World) (r : Nat) (halign : 2 ^ MAX_ORDER ∣ r)
    (h : (machine mem).Reaches w) (h' : (machine mem').Reaches w') (hr : w.buddy.regions = [r])
    (hr' : w'.buddy.regions = [r]) (hlive : ∀ b, b ∈ liveBlocks w ↔ b ∈ liveBlocks w') :
    (∀ i < NUM_ORDERS, ∀ b, OnList w.buddy i b ↔ OnList w'.buddy i b) ∧
    ∀ k, MIN_ORDER ≤ k → k ≤ MAX_ORDER → ∀ a, 2 ^ k ∣ a → r ≤ a → a + 2 ^ k ≤ r + 2 ^ MAX_ORDER →
      (∀ x, Block.Covers (a, k) x → ∀ b ∈ liveBlocks w, ¬ b.Covers x) →
      ∀ fuel answers, ∃ s' p, alloc (fuel + 1) w.buddy (2 ^ k) answers = some (s', some p) ∧
        s'.regions = [r] := by
  have hbits : BitsClear r := by
    have hmod : r % 2 ^ 18 = 0 := Nat.mod_eq_zero_of_dvd halign
    unfold BitsClear
    omega
  obtain ⟨hbase, F, hF⟩ := reaches_single h hr hbits
  obtain ⟨hbase', F', hF'⟩ := reaches_single h' hr' hbits
  refine ⟨fun i hi b => ⟨fun hb => ?_, fun hb => ?_⟩, fun k hlow hhigh a hdvd hra hend hnot fuel
    answers => ?_⟩
  · exact hF.onList_of_live hF' hr hr' hbase hbase' hbits hlive hi hb
  · exact hF'.onList_of_live hF hr' hr hbase' hbase hbits (fun b => (hlive b).symm) hi hb
  · have hplaced : Placed MAX_ORDER r (a, k) :=
      ⟨hhigh, hra, hend, Nat.dvd_sub hdvd ((Nat.pow_dvd_pow 2 hhigh).trans halign)⟩
    obtain ⟨b, hb, hin⟩ := hF.absorbs hbase hbits hlow hplaced hnot
    have hle : k ≤ b.2 := by
      refine (Nat.pow_le_pow_iff_right (by decide)).mp (?_ : 2 ^ k ≤ 2 ^ b.2)
      unfold Block.Inside at hin
      simp only at hin
      omega
    obtain ⟨s', p, hs, -, hregions⟩ := hF.alloc_unmapped hlow hb hle
    exact ⟨s', p, hs fuel answers, by rw [hregions, hr]⟩

/-- Two runs with different histories that leave the same block live. -/
theorem buddy_canonical_pair : ∃ w w',
    (machine fun _ => 0).exec (machine fun _ => 0).init [.alloc (2 ^ 14) [some (2 ^ 18)] 2] = some w ∧
    (machine fun _ => 7).exec (machine fun _ => 7).init [.alloc (2 ^ 14) [some (2 ^ 18)] 2,
      .alloc (2 ^ 16) [] 2, .alloc (2 ^ 14) [] 2, .dealloc (2 ^ 18 + 2 ^ 14 + 16) (2 ^ 14) 5,
      .dealloc (2 ^ 18 + 2 ^ 16 + 16) (2 ^ 16) 5] = some w' ∧
    ∀ i < NUM_ORDERS, ∀ b, OnList w.buddy i b ↔ OnList w'.buddy i b := by
  have hrun : ((machine fun _ => 0).exec (machine fun _ => 0).init
      [.alloc (2 ^ 14) [some (2 ^ 18)] 2]).map (fun w => (w.buddy.regions, liveBlocks w))
        = some ([2 ^ 18], [(2 ^ 18, 14)]) := by decide +kernel
  have hrun' : ((machine fun _ => 7).exec (machine fun _ => 7).init
      [.alloc (2 ^ 14) [some (2 ^ 18)] 2, .alloc (2 ^ 16) [] 2, .alloc (2 ^ 14) [] 2,
        .dealloc (2 ^ 18 + 2 ^ 14 + 16) (2 ^ 14) 5, .dealloc (2 ^ 18 + 2 ^ 16 + 16) (2 ^ 16) 5]).map
          (fun w => (w.buddy.regions, liveBlocks w)) = some ([2 ^ 18], [(2 ^ 18, 14)]) := by
    decide +kernel
  obtain ⟨w, hw, hvals⟩ := Option.map_eq_some_iff.mp hrun
  obtain ⟨w', hw', hvals'⟩ := Option.map_eq_some_iff.mp hrun'
  obtain ⟨hr, hlive⟩ := Prod.mk.inj hvals
  obtain ⟨hr', hlive'⟩ := Prod.mk.inj hvals'
  have hsame : ∀ b, b ∈ liveBlocks w ↔ b ∈ liveBlocks w' := fun b => by rw [hlive, hlive']
  exact ⟨w, w', hw, hw', (buddy_canonical (fun _ => 0) (fun _ => 7) w w' (2 ^ 18) (Nat.dvd_refl _)
    ⟨_, hw⟩ ⟨_, hw'⟩ hr hr' hsame).1⟩

/-! ### One block again -/

/-- The free lists hold exactly one block, the whole region. -/
structure Whole (s : BuddyAllocator) (r : Nat) : Prop where
  top : s.freeLists (MAX_ORDER - MIN_ORDER) = some r
  last : next s.mem r = none
  others : ∀ i < MAX_ORDER - MIN_ORDER, s.freeLists i = none

/-- Once everything is freed the region is one block again, and serves the largest request. -/
def Completes (r : Nat) : Prop :=
  ∀ mem w, (machine mem).Reaches w → w.buddy.regions = [r] → w.live = [] →
    Whole w.buddy r ∧ ∀ fuel answers, ∃ s',
      alloc (fuel + 1) w.buddy (2 ^ MAX_ORDER) answers = some (s', some (r + HEADER_SIZE)) ∧
        s'.regions = [r]

/-- The whole region as a block. -/
theorem placed_region (r : Nat) : Placed MAX_ORDER r (r, MAX_ORDER) :=
  ⟨Nat.le_refl _, Nat.le_refl _, Nat.le_refl _, by simp⟩

/-- A block of the largest order is its region. -/
theorem eq_of_placed_max {a : Nat} (h : Placed MAX_ORDER r (a, MAX_ORDER)) : a = r := by
  obtain ⟨-, hlow, hend, -⟩ := h
  simp only at hlow hend
  omega

/-- With nothing live the region is on the list of the largest order and nothing else is free. -/
theorem Inv.whole (h : Inv F [] [] s) (hr : s.regions = [r]) (hbase : s.base = some r)
    (hbits : BitsClear r) : (r, MAX_ORDER) ∈ freeBlocks F ∧ Whole s r := by
  obtain ⟨b, hb, hin⟩ := h.absorbs hbase hbits (by decide) (placed_region r)
    fun x _ b hb => absurd hb List.not_mem_nil
  have hall : ∀ b ∈ freeBlocks F, Placed MAX_ORDER r b := by
    intro b hb
    obtain ⟨q, hq, hplaced⟩ := h.tiled.placed b hb
    rw [hr] at hq
    rw [List.mem_singleton.mp hq] at hplaced
    exact hplaced
  have hinside : ∀ b ∈ freeBlocks F, b.Inside (r, MAX_ORDER) := fun b hb =>
    ⟨(hall b hb).2.1, (hall b hb).2.2.1⟩
  have hbr : b = (r, MAX_ORDER) := (hinside b hb).antisymm hin
  rw [hbr] at hb
  -- any other free block would lie inside the region's
  have honly : ∀ b ∈ freeBlocks F, b = (r, MAX_ORDER) := by
    intro b' hb'
    by_contra hne
    have hap := h.tiled.apart hb' hb hne
    exact hap.not_covers (Block.covers_self b') ((hinside b' hb').covers (Block.covers_self b'))
  have hnil : ∀ i < MAX_ORDER - MIN_ORDER, F i = [] := by
    intro i hi
    refine List.eq_nil_iff_forall_not_mem.mpr fun c hc => ?_
    have hmem := honly (c, MIN_ORDER + i) (mem_freeBlocks.mpr
      ⟨i, Nat.lt_trans hi (by decide), rfl, hc⟩)
    have horder := (Prod.mk.inj hmem).2
    omega
  have htop : F (MAX_ORDER - MIN_ORDER) = [r] := by
    obtain ⟨j, hj, hij, hmem⟩ := mem_freeBlocks.mp hb
    have hjtop : j = MAX_ORDER - MIN_ORDER := by
      simp only at hij
      omega
    rw [hjtop] at hmem hj
    refine List.perm_singleton.mp ((List.perm_ext_iff_of_nodup (h.nodup hj)
      (List.nodup_singleton r)).mpr fun c => ⟨fun hc => ?_, fun hc => ?_⟩)
    · have hcr := honly (c, MIN_ORDER + (MAX_ORDER - MIN_ORDER))
        (mem_freeBlocks.mpr ⟨_, hj, rfl, hc⟩)
      rw [(Prod.mk.inj hcr).1]
      exact List.mem_singleton.mpr rfl
    · rw [List.mem_singleton.mp hc]
      exact hmem
  have hchain := h.lists.chain (MAX_ORDER - MIN_ORDER) (by decide)
  rw [htop] at hchain
  refine ⟨hb, hchain.1, hchain.2, fun i hi => ?_⟩
  have hchain' := h.lists.chain i (Nat.lt_trans hi (by decide))
  rw [hnil i hi] at hchain'
  exact hchain'

/-- With the bits clear the region comes back whole. -/
theorem completes_of_bitsClear (hbits : BitsClear r) : Completes r := by
  intro mem w h hr hlive
  obtain ⟨hbase, F, hF⟩ := reaches_single h hr hbits
  have hnone : liveBlocks w = [] := by
    unfold liveBlocks
    rw [hlive]
    rfl
  rw [hnone] at hF
  obtain ⟨hmem, hwhole⟩ := hF.whole hr hbase hbits
  refine ⟨hwhole, fun fuel answers => ?_⟩
  obtain ⟨s', p, hs, ⟨block, F', rfl, hF'⟩, hregions⟩ :=
    hF.alloc_unmapped (k := MAX_ORDER) (by decide) hmem (Nat.le_refl _)
  refine ⟨s', ?_, by rw [hregions, hr]⟩
  -- the block served has the size of the region
  obtain ⟨q, hq, hplaced⟩ := hF'.tiled.placed (block, MAX_ORDER) (by simp [allBlocks])
  rw [hregions, hr] at hq
  rw [List.mem_singleton.mp hq] at hplaced
  rw [← eq_of_placed_max hplaced]
  exact hs fuel answers

/-! ### A region with one of the bits set -/

/-- The first allocation of an allocator maps its region and takes the lowest block. -/
theorem alloc_first {j : Nat} (hfresh : FreshRegion (new mem) r) (hlow : MIN_ORDER ≤ j)
    (hhigh : j ≤ MAX_ORDER) :
    ∃ s', alloc 2 (new mem) (2 ^ j) [some r] = some (s', some (r + HEADER_SIZE)) ∧
      s'.regions = [r] ∧ s'.base = some r ∧ s'.regionSize = 2 ^ MAX_ORDER := by
  have horder : trailingZeros (2 ^ j) = MIN_ORDER + (j - MIN_ORDER) := by
    rw [trailingZeros_two_pow (Nat.lt_of_le_of_lt hhigh (by decide)), Nat.add_sub_cancel' hlow]
  have hk : j - MIN_ORDER < NUM_ORDERS := by
    unfold NUM_ORDERS
    omega
  have hresult : AllocResult (new mem) (2 ^ j) [some r] _ _ :=
    .mapped horder hk (fun _ _ _ => rfl) rfl hfresh
  have hsame : SameRegions (withRegion (new mem) r) (takeBlock (withRegion (new mem) r) r
      (MAX_ORDER - MIN_ORDER) (MIN_ORDER + (j - MIN_ORDER))).1 := takeBlock_regions
  exact ⟨_, hresult.alloc_eq 0, hsame.regions, hsame.base, hsame.regionSize⟩

/-- The lowest block of an order whose bit is set in the address finds no buddy in the region. -/
theorem dealloc_alone {j : Nat} (fuel : Nat) (hbase : s.base = some r) (hhigh : j < MAX_ORDER)
    (hbit : r / 2 ^ j % 2 = 1) :
    ∃ s', dealloc fuel s (r + HEADER_SIZE) (2 ^ j) = some s' ∧
      s'.freeLists (j - MIN_ORDER) = some r ∧ s'.regions = s.regions := by
  have horder : trailingZeros (2 ^ j) = j := trailingZeros_two_pow (Nat.lt_trans hhigh (by decide))
  have hpos : 0 < 2 ^ j := Nat.two_pow_pos j
  have hbelow : r ^^^ 2 ^ j < r := by
    have hge : 2 ^ j ≤ r := by
      by_contra hc
      rw [Nat.div_eq_of_lt (Nat.not_le.mp hc)] at hbit
      exact absurd hbit (by decide)
    rw [xor_two_pow, if_neg (by omega)]
    omega
  obtain ⟨n, hn⟩ : ∃ n, MAX_ORDER - j = n + 1 := ⟨MAX_ORDER - j - 1, by omega⟩
  unfold dealloc coalesce
  simp only [horder, Nat.add_sub_cancel, hn, coalesceLoop, hbase]
  rw [if_pos (Or.inl hbelow)]
  refine ⟨_, rfl, ?_, rfl⟩
  unfold pushBlock setList
  simp

/-- With one of the bits set the region does not come back whole. -/
theorem not_completes {j : Nat} (hfresh : FreshRegion (new mem) r) (hlow : MIN_ORDER ≤ j)
    (hhigh : j < MAX_ORDER) (hbit : r / 2 ^ j % 2 = 1) : ¬ Completes r := by
  intro hcomplete
  have hsize : 2 ^ j < 2 ^ 64 :=
    Nat.pow_lt_pow_right (by decide) (Nat.lt_trans hhigh (by decide))
  obtain ⟨s₁, halloc, hregions, hbase, -⟩ := alloc_first hfresh hlow (Nat.le_of_lt hhigh)
  obtain ⟨s₂, hdealloc, hlist, hregions'⟩ := dealloc_alone 1 hbase hhigh hbit
  have hfirst : (machine mem).step (machine mem).init (.alloc (2 ^ j) [some r] 2)
      = some { buddy := s₁, live := [⟨r + HEADER_SIZE, 2 ^ j⟩] } := by
    have hinit : alloc 2 (machine mem).init.buddy (2 ^ j) [some r]
        = some (s₁, some (r + HEADER_SIZE)) := halloc
    show step (machine mem).init (.alloc (2 ^ j) [some r] 2) = _
    rw [step, if_pos hsize, hinit]
    rfl
  have hsecond : (machine mem).step { buddy := s₁, live := [⟨r + HEADER_SIZE, 2 ^ j⟩] }
      (.dealloc (r + HEADER_SIZE) (2 ^ j) 1) = some { buddy := s₂, live := [] } := by
    simp only [machine, step]
    rw [if_pos (List.mem_singleton.mpr rfl), hdealloc]
    simp
  have hreach : (machine mem).Reaches { buddy := s₂, live := [] } :=
    (Machine.reaches_init.step hfirst).step hsecond
  obtain ⟨hwhole, -⟩ := hcomplete mem _ hreach (hregions'.trans hregions) rfl
  have hnone := hwhole.others (j - MIN_ORDER) (by omega)
  exact absurd (hlist.symm.trans hnone) (by simp)

/-- One of the four bits is set, or none is. -/
theorem bitsClear_or_bit (r : Nat) :
    BitsClear r ∨ ∃ j, MIN_ORDER ≤ j ∧ j < MAX_ORDER ∧ r / 2 ^ j % 2 = 1 := by
  unfold BitsClear
  by_contra hc
  rw [not_or] at hc
  obtain ⟨hge, hnone⟩ := hc
  have hbit : ∀ j, MIN_ORDER ≤ j → j < MAX_ORDER → r / 2 ^ j % 2 = 0 := by
    intro j hlow hhigh
    by_contra hne
    exact hnone ⟨j, hlow, hhigh, by omega⟩
  have h14 := hbit 14 (by decide) (by decide)
  have h15 := hbit 15 (by decide) (by decide)
  have h16 := hbit 16 (by decide) (by decide)
  have h17 := hbit 17 (by decide) (by decide)
  omega

/--
**Coalescing is complete exactly in regions placed so.**  Wherever the kernel maps
the region, every run that stays in it and frees everything ends with the region as
one free block if and only if bits 14 to 17 of its address are clear.
-/
theorem completes_iff (r : Nat) (hfresh : FreshRegion (new fun _ => 0) r) :
    Completes r ↔ r % 2 ^ MAX_ORDER < 2 ^ MIN_ORDER := by
  constructor
  · intro hcomplete
    rcases bitsClear_or_bit r with hclear | ⟨j, hlow, hhigh, hbit⟩
    · exact hclear
    · exact absurd hcomplete (not_completes hfresh hlow hhigh hbit)
  · intro hclear
    exact completes_of_bitsClear hclear

/-- A region aligned to its size, where every run ends so. -/
theorem completes_aligned : FreshRegion (new fun _ => 0) (2 ^ 18) ∧ Completes (2 ^ 18) := by
  have hfresh : FreshRegion (new fun _ => 0) (2 ^ 18) := by decide
  exact ⟨hfresh, (completes_iff (2 ^ 18) hfresh).mpr (by decide)⟩

/-- In a region at 2^18 + 2^14 one block of 2^14 bytes is allocated and freed again; it stays alone
on its list, and the four blocks it was split from stay on theirs. -/
theorem coalesce_incomplete : ∃ w, (machine fun _ => 0).exec (machine fun _ => 0).init
    [.alloc (2 ^ 14) [some (2 ^ 18 + 2 ^ 14)] 2, .dealloc (2 ^ 18 + 2 ^ 14 + 16) (2 ^ 14) 5] = some w ∧
      w.buddy.regions = [2 ^ 18 + 2 ^ 14] ∧ w.live = [] ∧ ¬ Whole w.buddy (2 ^ 18 + 2 ^ 14) := by
  have hrun : ((machine fun _ => 0).exec (machine fun _ => 0).init
      [.alloc (2 ^ 14) [some (2 ^ 18 + 2 ^ 14)] 2,
        .dealloc (2 ^ 18 + 2 ^ 14 + 16) (2 ^ 14) 5]).map (fun w =>
          (w.buddy.regions, w.live, w.buddy.freeLists (MAX_ORDER - MIN_ORDER)))
            = some ([2 ^ 18 + 2 ^ 14], [], none) := by decide +kernel
  obtain ⟨w, hw, hvals⟩ := Option.map_eq_some_iff.mp hrun
  obtain ⟨hregions, hlive, hlist⟩ : _ ∧ _ ∧ _ := by simpa using hvals
  refine ⟨w, hw, hregions, hlive, fun hwhole => ?_⟩
  have htop := hwhole.top
  rw [hlist] at htop
  cases htop

end Aethalloc.Buddy
