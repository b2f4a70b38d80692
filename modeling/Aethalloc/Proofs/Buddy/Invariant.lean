/-
What holds between two steps of the buddy allocator.

The blocks — free, live, and those an operation has in hand — tile the mapped
regions, the free lists run through the headers of the free blocks, and a live
block's header says so.  `Inv` states this for given lists, so that each small
move of an operation (take a head, split, merge, put back) is one lemma about how
the lists and the hand change.

The delicate point is the address arithmetic.  Blocks are split relative to the
start of their region, but a buddy is found by flipping a bit of the absolute
address.  `Placeable` is what makes the two agree wherever the result lies in the
current base region: bits 14 to 16 of a region's address are clear, and no later
region lies around the two addresses that flipping bit 17 can reach outside a
region whose address has that bit set.
-/
import Mathlib.Tactic.IntervalCases
import Aethalloc.Lib.Tiling
import Aethalloc.Proofs.Buddy.Headers

namespace Aethalloc.Buddy

open Lib

/-! ### Regions and the buddy address -/

/-- The address lies in the region at `r`. -/
def InRegion (r x : Nat) : Prop := r ≤ x ∧ x < r + 2 ^ MAX_ORDER

instance (r x : Nat) : Decidable (InRegion r x) := inferInstanceAs (Decidable (_ ∧ _))

/-- The region at `p` is not around the addresses that flipping bit 17 reaches outside `q`. -/
def Clear (q p : Nat) : Prop :=
  2 ^ 17 ≤ q % 2 ^ 18 → ¬ InRegion p (q - 2 ^ 17) ∧ ¬ InRegion p (q + 2 ^ 18)

instance (q p : Nat) : Decidable (Clear q p) := inferInstanceAs (Decidable (_ → _ ∧ _))

/-- A region at `p` keeps buddy addresses right: bits 14 to 16 of `p` are clear, and `p` is clear
of the regions mapped before. -/
def Placeable (R : List Nat) (p : Nat) : Prop := p % 2 ^ 17 < 2 ^ 14 ∧ ∀ q ∈ R, Clear q p

instance (R : List Nat) (p : Nat) : Decidable (Placeable R p) :=
  inferInstanceAs (Decidable (_ ∧ _))

/-- Of the bits that tell buddies apart, all but bit 17 are clear in such an address. -/
theorem bit_clear {q o : Nat} (hq : q % 2 ^ 17 < 2 ^ 14) (hlow : 14 ≤ o) (ho : o < 17) :
    q / 2 ^ o % 2 = 0 := by
  obtain ⟨u, hu⟩ : 2 ^ o * 2 ∣ 2 ^ 17 := Nat.pow_dvd_pow 2 ho
  have hlt : q % 2 ^ 17 < 2 ^ o := Nat.lt_of_lt_of_le hq (Nat.pow_le_pow_right (by decide) hlow)
  have hsplit : q = 2 ^ o * (2 * (u * (q / 2 ^ 17))) + q % 2 ^ 17 := by
    calc q = 2 ^ 17 * (q / 2 ^ 17) + q % 2 ^ 17 := (Nat.div_add_mod q _).symm
      _ = 2 ^ o * 2 * u * (q / 2 ^ 17) + q % 2 ^ 17 := by rw [← hu]
      _ = 2 ^ o * (2 * (u * (q / 2 ^ 17))) + q % 2 ^ 17 := by ring
  rw [hsplit, Nat.mul_add_div (Nat.two_pow_pos o), Nat.div_eq_of_lt hlt, Nat.add_zero]
  exact Nat.mul_mod_right 2 _

/-- Flipping a bit of a block's address gives its sibling, or one of two addresses outside. -/
theorem xor_cases {q a o : Nat} (h : Placed MAX_ORDER q (a, o)) (hlow : MIN_ORDER ≤ o)
    (ho : o < MAX_ORDER) (hq : q % 2 ^ 17 < 2 ^ 14) :
    a ^^^ 2 ^ o = sibling q a o ∨
      2 ^ 17 ≤ q % 2 ^ 18 ∧ (a ^^^ 2 ^ o = q - 2 ^ 17 ∨ a ^^^ 2 ^ o = q + 2 ^ 18) := by
  obtain ⟨-, hqa, hend, m, hm⟩ := h
  simp only at hqa hend hm
  have hpos : 0 < 2 ^ o := Nat.two_pow_pos o
  have hoff : (a - q) / 2 ^ o = m := by rw [hm, Nat.mul_div_cancel_left m hpos]
  have hbit : a / 2 ^ o = q / 2 ^ o + m := by
    rw [← Nat.add_mul_div_left q m hpos, ← hm, Nat.add_sub_cancel' hqa]
  rw [xor_two_pow]
  unfold sibling
  rw [hoff, hbit]
  by_cases heven : q / 2 ^ o % 2 = 0
  · left
    rw [show (q / 2 ^ o + m) % 2 = m % 2 by omega]
  · -- bit 17 of the base is set, and the region has two blocks of that order
    right
    obtain rfl : o = 17 := by
      by_contra hne
      unfold MAX_ORDER at ho
      exact heven (bit_clear hq hlow (by omega))
    unfold MAX_ORDER at hend
    obtain rfl | rfl : m = 0 ∨ m = 1 := by omega
    · rw [if_neg (by omega)]
      omega
    · rw [if_pos (by omega)]
      omega

/-- The regions are placed well, and the base region is clear of all of them. -/
structure Regions (s : BuddyAllocator) : Prop where
  word : ∀ r ∈ s.regions, r ≠ 0 ∧ r + 2 ^ MAX_ORDER ≤ 2 ^ 64
  bits : ∀ r ∈ s.regions, r % 2 ^ 17 < 2 ^ 14
  base : ∀ r, s.base = some r →
    r ∈ s.regions ∧ s.regionSize = 2 ^ MAX_ORDER ∧ ∀ q ∈ s.regions, Clear q r

/-- The address lies in the region `coalesce` looks at. -/
def InBase (s : BuddyAllocator) (x : Nat) : Prop := ∃ r, s.base = some r ∧ InRegion r x

/-- A buddy address inside the base region is the sibling in that region. -/
theorem Regions.xor_eq_sibling {s : BuddyAllocator} {B : List Block} {q a o : Nat}
    (h : Regions s) (ht : Tiled MAX_ORDER s.regions B) (hq : q ∈ s.regions)
    (hplaced : Placed MAX_ORDER q (a, o)) (hlow : MIN_ORDER ≤ o) (ho : o < MAX_ORDER)
    (hin : InBase s (a ^^^ 2 ^ o)) : s.base = some q ∧ a ^^^ 2 ^ o = sibling q a o := by
  obtain ⟨r, hbase, hr⟩ := hin
  obtain ⟨hrmem, -, hclear⟩ := h.base r hbase
  rcases xor_cases hplaced hlow ho (h.bits q hq) with hsib | ⟨hbit, hout⟩
  · -- the sibling lies in the block's own region, which is then the base region
    have hself : InRegion q (sibling q a o) := by
      have hpos : 0 < 2 ^ o := Nat.two_pow_pos o
      have hpow : 2 ^ (o + 1) = 2 ^ o * 2 := Nat.pow_succ 2 o
      unfold InRegion
      rcases sibling_cases hplaced ho with ⟨hs, -, hp⟩ | ⟨hs, -, hp⟩ <;>
        simp only at hp <;> omega
    rw [hsib] at hr
    have hqr : q = r := ht.region_unique hq hrmem hself hr
    rw [hqr]
    exact ⟨hbase, by rw [hsib, hqr]⟩
  · obtain ⟨hc₁, hc₂⟩ := hclear q hq hbit
    rcases hout with hx | hx
    · rw [hx] at hr; exact absurd hr hc₁
    · rw [hx] at hr; exact absurd hr hc₂

/-! ### The blocks on the free lists -/

/-- The blocks on the free lists. -/
def freeBlocks (F : Nat → List Nat) : List Block :=
  (List.range NUM_ORDERS).flatMap fun i => (F i).map (·, MIN_ORDER + i)

theorem mem_freeBlocks {F : Nat → List Nat} {b : Block} :
    b ∈ freeBlocks F ↔ ∃ i < NUM_ORDERS, b.2 = MIN_ORDER + i ∧ b.1 ∈ F i := by
  unfold freeBlocks
  rw [List.mem_flatMap]
  constructor
  · intro h
    obtain ⟨i, hi, hb⟩ := h
    obtain ⟨a, ha, rfl⟩ := List.mem_map.mp hb
    exact ⟨i, List.mem_range.mp hi, rfl, ha⟩
  · intro h
    obtain ⟨i, hi, ho, ha⟩ := h
    exact ⟨i, List.mem_range.mpr hi, List.mem_map.mpr ⟨b.1, ha, by rw [← ho]⟩⟩

/-- Taking a block off its list takes it out of the free blocks. -/
theorem freeBlocks_remove {F : Nat → List Nat} {i a : Nat} {l : List Nat} (hi : i < NUM_ORDERS)
    (hp : (F i).Perm (a :: l)) :
    (freeBlocks F).Perm ((a, MIN_ORDER + i) :: freeBlocks (Function.update F i l)) := by
  have hrange := List.perm_cons_erase (List.mem_range.mpr hi)
  have hother : ∀ j ∈ (List.range NUM_ORDERS).erase i, Function.update F i l j = F j := by
    intro j hj
    have hne : j ≠ i := ((List.nodup_range).mem_erase_iff.mp hj).1
    exact Function.update_of_ne hne _ _
  have hrest : ((List.range NUM_ORDERS).erase i).flatMap
        (fun j => (Function.update F i l j).map (·, MIN_ORDER + j))
      = ((List.range NUM_ORDERS).erase i).flatMap (fun j => (F j).map (·, MIN_ORDER + j)) :=
    List.flatMap_congr fun j hj => by rw [hother j hj]
  unfold freeBlocks
  refine (hrange.flatMap_right _).trans (List.Perm.trans ?_ (List.Perm.cons _
    (hrange.flatMap_right _).symm))
  rw [List.flatMap_cons, List.flatMap_cons, hrest, Function.update_self]
  exact ((hp.map (·, MIN_ORDER + i)).append_right _)

/-- Putting a block on its list adds it to the free blocks. -/
theorem freeBlocks_push {F : Nat → List Nat} {i a : Nat} (hi : i < NUM_ORDERS) :
    (freeBlocks (Function.update F i (a :: F i))).Perm ((a, MIN_ORDER + i) :: freeBlocks F) := by
  have h := freeBlocks_remove (F := Function.update F i (a :: F i)) (l := F i) (a := a) hi
    (by rw [Function.update_self])
  rw [Function.update_idem, Function.update_eq_self] at h
  exact h

/-! ### The invariant -/

/-- No free block of the base region has a free buddy of its order there. -/
def Maximal (F : Nat → List Nat) (s : BuddyAllocator) : Prop :=
  ∀ i < NUM_ORDERS, ∀ a ∈ F i, InBase s a → InBase s (a ^^^ 2 ^ (MIN_ORDER + i)) →
    a ^^^ 2 ^ (MIN_ORDER + i) ∉ F i

/-- All blocks: those in hand, the live ones and the free ones. -/
def allBlocks (F : Nat → List Nat) (L H : List Block) : List Block := H ++ (L ++ freeBlocks F)

/-- The state of the allocator with free lists `F`, live blocks `L` and blocks `H` in hand. -/
structure Inv (F : Nat → List Nat) (L H : List Block) (s : BuddyAllocator) : Prop where
  tiled : Tiled MAX_ORDER s.regions (allBlocks F L H)
  minOrder : ∀ b ∈ allBlocks F L H, MIN_ORDER ≤ b.2
  regions : Regions s
  lists : Lists F s.mem s.freeLists
  /-- A block in hand is on its way to or from a list, so its header is that of a free block. -/
  hand : ∀ b ∈ H, order s.mem b.1 = b.2 ∧ isFree s.mem b.1 = true
  live : ∀ b ∈ L, isFree s.mem b.1 = false
  maximal : Maximal F s
  /-- Every merge so far was with a block found on its free list. -/
  merged : ∀ e ∈ s.merges, e.2.2 = true

theorem Maximal.mono {F F' : Nat → List Nat} {s : BuddyAllocator} (h : Maximal F s)
    (hsub : ∀ i, F' i ⊆ F i) : Maximal F' s :=
  fun i hi a ha hin hin' hc => h i hi a (hsub i ha) hin hin' (hsub i hc)

/-- A block whose buddy is not free joins the lists. -/
theorem Maximal.push {F : Nat → List Nat} {s : BuddyAllocator} {i a : Nat} (h : Maximal F s)
    (hbuddy : InBase s a → InBase s (a ^^^ 2 ^ (MIN_ORDER + i)) →
      a ^^^ 2 ^ (MIN_ORDER + i) ∉ F i) : Maximal (Function.update F i (a :: F i)) s := by
  intro j hj c hc hin hin' hmem
  by_cases hij : j = i
  · subst hij
    rw [Function.update_self] at hc hmem
    have hinvol : ∀ x, x ^^^ 2 ^ (MIN_ORDER + j) ^^^ 2 ^ (MIN_ORDER + j) = x := fun x => by
      rw [Nat.xor_assoc, Nat.xor_self, Nat.xor_zero]
    have hself : a ^^^ 2 ^ (MIN_ORDER + j) ≠ a := by
      intro hcon
      have hpos : 0 < 2 ^ (MIN_ORDER + j) := Nat.two_pow_pos _
      rw [xor_two_pow] at hcon
      split at hcon
      · omega
      · rename_i hodd
        have : a / 2 ^ (MIN_ORDER + j) ≠ 0 := fun h0 => hodd (by rw [h0])
        have := (Nat.div_ne_zero_iff.mp this).2
        omega
    rcases List.mem_cons.mp hc with rfl | hc
    · rcases List.mem_cons.mp hmem with hcon | hmem
      · exact hself hcon
      · exact hbuddy hin hin' hmem
    · rcases List.mem_cons.mp hmem with hcon | hmem
      · -- the older block is the new one's buddy
        have hca : a ^^^ 2 ^ (MIN_ORDER + j) = c := by rw [← hcon, hinvol]
        rw [hcon] at hin'
        rw [hca] at hbuddy
        exact hbuddy hin' hin hc
      · exact h j hj c hc hin hin' hmem
  · rw [Function.update_of_ne hij] at hc hmem
    exact h j hj c hc hin hin' hmem

/-- Headers of blocks that are apart do not overlap. -/
theorem far_of_apart {a b : Block} (hap : a.Apart b) (ha : MIN_ORDER ≤ a.2) (hb : MIN_ORDER ≤ b.2) :
    Far a.1 b.1 := by
  have hla : 2 ^ MIN_ORDER ≤ 2 ^ a.2 := Nat.pow_le_pow_right (by decide) ha
  have hlb : 2 ^ MIN_ORDER ≤ 2 ^ b.2 := Nat.pow_le_pow_right (by decide) hb
  unfold Block.Apart at hap
  unfold MIN_ORDER at hla hlb
  unfold Far HEADER_SIZE
  omega

namespace Inv

variable {F : Nat → List Nat} {L L' H H' : List Block} {s : BuddyAllocator} {a b : Block} {i : Nat}

theorem mem_free {c : Nat} (hi : i < NUM_ORDERS) (hc : c ∈ F i) :
    (c, MIN_ORDER + i) ∈ allBlocks F L H :=
  List.mem_append_right _ (List.mem_append_right _ (mem_freeBlocks.mpr ⟨i, hi, rfl, hc⟩))

theorem maxOrder (h : Inv F L H s) (ha : a ∈ allBlocks F L H) : a.2 ≤ MAX_ORDER := by
  obtain ⟨r, -, hle, -⟩ := h.tiled.placed a ha
  exact hle

/-- Headers of different blocks do not overlap. -/
theorem far (h : Inv F L H s) (ha : a ∈ allBlocks F L H) (hb : b ∈ allBlocks F L H)
    (hne : a ≠ b) : Far a.1 b.1 :=
  far_of_apart (h.tiled.apart ha hb hne) (h.minOrder a ha) (h.minOrder b hb)

/-- A block's address is a nonzero word, and so is its end. -/
theorem word (h : Inv F L H s) (ha : a ∈ allBlocks F L H) : a.1 ≠ 0 ∧ a.1 + 2 ^ a.2 ≤ 2 ^ 64 := by
  obtain ⟨r, hr, -, hra, hend, -⟩ := h.tiled.placed a ha
  have hword := h.regions.word r hr
  omega

/-- A pointer to a part of a list can be stored in a link. -/
theorem storable_chain (h : Inv F L H s) (hi : i < NUM_ORDERS) {p : Option Nat} {l : List Nat}
    (hchain : Chain (next s.mem) p l) (hl : l ⊆ F i) : Storable p := by
  intro c hc
  rw [hc] at hchain
  obtain ⟨rest, hF, -⟩ := hchain.exists_cons_of_some
  have hmem : (c, MIN_ORDER + i) ∈ allBlocks F L H := mem_free hi (hl (by rw [hF]; simp))
  have hword := h.word hmem
  have hpos : 0 < 2 ^ (MIN_ORDER + i) := Nat.two_pow_pos _
  simp only at hword
  omega

theorem storable_head (h : Inv F L H s) (hi : i < NUM_ORDERS) : Storable (s.freeLists i) :=
  h.storable_chain hi (h.lists.chain i hi) (List.Subset.refl _)

theorem nodup (h : Inv F L H s) (hi : i < NUM_ORDERS) : (F i).Nodup := by
  have hpw := pairwise_apart h.tiled.cover_le_one
  have hsub : ((F i).map (·, MIN_ORDER + i)).Sublist (allBlocks F L H) := by
    refine List.Sublist.trans ?_ ((List.sublist_append_right _ _).trans
      (List.sublist_append_right _ _))
    unfold freeBlocks
    rw [List.flatMap_def]
    exact List.sublist_flatten_of_mem (List.mem_map.mpr ⟨i, List.mem_range.mpr hi, rfl⟩)
  rw [List.Nodup, ← List.pairwise_map (f := fun c => (c, MIN_ORDER + i))
    (R := fun b b' => b.1 ≠ b'.1)]
  refine (hpw.sublist hsub).imp fun {b b'} hap heq => ?_
  have hpos : 0 < 2 ^ b.2 := Nat.two_pow_pos _
  have hpos' : 0 < 2 ^ b'.2 := Nat.two_pow_pos _
  unfold Block.Apart at hap
  omega

end Inv

end Aethalloc.Buddy
