/-
The small moves the buddy allocator's operations are made of.

Each lemma takes the invariant from before a move to after it, and says how the
lists, the live blocks and the blocks in hand change: a block in hand is given out,
a live one is taken back, a head is popped, a block in hand is pushed, split, or
merged with its buddy.  The walk along a free list is here too: on a list that the
invariant describes it finds the block exactly when the block is on the list, and
unlinks that one and nothing else.
-/
import Aethalloc.Proofs.Buddy.Invariant

namespace Aethalloc.Buddy

open Lib

namespace Inv

variable {F : Nat → List Nat} {L L' H H' : List Block} {s : BuddyAllocator} {a o i : Nat}

/-- The blocks in hand and the memory change, but no header of a live or a free block does. -/
theorem hands (h : Inv F L H s) {m' : Mem} (ht : Tiled MAX_ORDER s.regions (allBlocks F L H'))
    (hmin : ∀ b ∈ H', MIN_ORDER ≤ b.2)
    (hsame : ∀ b ∈ L ++ freeBlocks F, SameHeader s.mem m' b.1)
    (hhand : ∀ b ∈ H', order m' b.1 = b.2 ∧ isFree m' b.1 = true) :
    Inv F L H' { s with mem := m' } where
  tiled := ht
  minOrder b hb := by
    rcases List.mem_append.mp hb with hb | hb
    · exact hmin b hb
    · exact h.minOrder b (List.mem_append_right _ hb)
  regions := ⟨h.regions.word, h.regions.bits, h.regions.base⟩
  lists := h.lists.frame fun i hi c hc =>
    hsame (c, MIN_ORDER + i) (List.mem_append_right _ (mem_freeBlocks.mpr ⟨i, hi, rfl, hc⟩))
  hand := hhand
  live b hb := by
    show isFree m' b.1 = false
    rw [(hsame b (List.mem_append_left _ hb)).isFree]
    exact h.live b hb
  maximal := h.maximal
  merged := h.merged

/-- A block in hand whose link is set goes to the front of its list. -/
theorem push (h : Inv F L ((a, MIN_ORDER + i) :: H) s) (hi : i < NUM_ORDERS)
    (hnext : next s.mem a = s.freeLists i)
    (hbuddy : InBase s a → InBase s (a ^^^ 2 ^ (MIN_ORDER + i)) →
      a ^^^ 2 ^ (MIN_ORDER + i) ∉ F i) :
    Inv (Function.update F i (a :: F i)) L H (setList s i (some a)) := by
  have hperm : (allBlocks F L ((a, MIN_ORDER + i) :: H)).Perm
      (allBlocks (Function.update F i (a :: F i)) L H) := by
    refine List.perm_middle.symm.trans (List.Perm.append_left H ?_)
    exact List.perm_middle.symm.trans (List.Perm.append_left L (freeBlocks_push hi).symm)
  exact {
    tiled := h.tiled.perm hperm
    minOrder := fun b hb => h.minOrder b (hperm.mem_iff.mpr hb)
    regions := ⟨h.regions.word, h.regions.bits, h.regions.base⟩
    lists := h.lists.push hnext (h.hand (a, MIN_ORDER + i) (by simp))
    hand := fun b hb => h.hand b (List.mem_cons_of_mem _ hb)
    live := h.live
    maximal := h.maximal.push hbuddy
    merged := h.merged }

/-- A block leaves its list for the hand. -/
theorem perm_remove {l : List Nat} (hi : i < NUM_ORDERS) (hF : (F i).Perm (a :: l)) :
    (allBlocks F L H).Perm (allBlocks (Function.update F i l) L ((a, MIN_ORDER + i) :: H)) := by
  have hfree := (List.Perm.append_left L (freeBlocks_remove hi hF)).trans List.perm_middle
  exact (List.Perm.append_left H hfree).trans List.perm_middle

theorem subset_remove {l : List Nat} (hl : l ⊆ F i) (j : Nat) : Function.update F i l j ⊆ F j := by
  by_cases hj : j = i
  · subst hj
    rw [Function.update_self]
    exact hl
  · rw [Function.update_of_ne hj]
    exact List.Subset.refl _

/-- The head of a list comes into the hand. -/
theorem pop {rest : List Nat} (h : Inv F L H s) (hi : i < NUM_ORDERS) (hF : F i = a :: rest) :
    Inv (Function.update F i rest) L ((a, MIN_ORDER + i) :: H) (setList s i (next s.mem a)) := by
  have hperm := perm_remove (L := L) (H := H) hi (List.Perm.of_eq hF)
  exact {
    tiled := h.tiled.perm hperm
    minOrder := fun b hb => h.minOrder b (hperm.mem_iff.mpr hb)
    regions := ⟨h.regions.word, h.regions.bits, h.regions.base⟩
    lists := h.lists.pop hi hF
    hand := by
      intro b hb
      rcases List.mem_cons.mp hb with rfl | hb
      · exact h.lists.header i hi a (by rw [hF]; simp)
      · exact h.hand b hb
    live := h.live
    maximal := h.maximal.mono (subset_remove (by rw [hF]; exact List.subset_cons_self a rest))
    merged := h.merged }

/-- The header of a free block overlaps that of no live block and of no block in hand. -/
theorem far_of_free (h : Inv F L H s) (hi : i < NUM_ORDERS) (ha : a ∈ F i) {b : Block}
    (hb : b ∈ H ∨ b ∈ L) : Far b.1 a := by
  have hfree : (a, MIN_ORDER + i) ∈ freeBlocks F := mem_freeBlocks.mpr ⟨i, hi, rfl, ha⟩
  have hpw := pairwise_apart h.tiled.cover_le_one
  obtain ⟨-, hpw', hcross⟩ := List.pairwise_append.mp hpw
  obtain ⟨-, -, hcross'⟩ := List.pairwise_append.mp hpw'
  have hap : b.Apart (a, MIN_ORDER + i) := by
    rcases hb with hb | hb
    · exact hcross b hb _ (List.mem_append_right _ hfree)
    · exact hcross' b hb _ hfree
  have hmem : b ∈ allBlocks F L H := by
    rcases hb with hb | hb
    · exact List.mem_append_left _ hb
    · exact List.mem_append_right _ (List.mem_append_left _ hb)
  exact far_of_apart hap (h.minOrder b hmem) (Nat.le_add_right _ _)

/-- The block after `p` on a list comes into the hand. -/
theorem unlinkAfter {p : Nat} {pre post : List Nat} (h : Inv F L H s) (hi : i < NUM_ORDERS)
    (hF : F i = pre ++ p :: a :: post) :
    Inv (Function.update F i (pre ++ p :: post)) L ((a, MIN_ORDER + i) :: H)
      { s with mem := setNext s.mem p (next s.mem a) } := by
  have hpF : p ∈ F i := by rw [hF]; simp
  have haF : a ∈ F i := by rw [hF]; simp
  have hnd := h.nodup hi
  have hap : a ≠ p := by
    intro hc
    rw [hF, hc] at hnd
    have htail := (List.nodup_append.mp hnd).2.1
    simp at htail
  have hlist : (F i).Perm (a :: (pre ++ p :: post)) := by
    rw [hF, List.append_cons pre p (a :: post), List.append_cons pre p post]
    exact List.perm_middle
  have hsub : ∀ c, c ∈ pre ++ p :: post → c ∈ F i := fun c hc =>
    hlist.mem_iff.mpr (List.mem_cons_of_mem a hc)
  have hperm := perm_remove (L := L) (H := H) hi hlist
  have hfree : ∀ j < NUM_ORDERS, ∀ c ∈ F j, (c ≠ p ∨ j ≠ i) → Far c p := by
    intro j hj c hc hne
    refine h.far (a := (c, MIN_ORDER + j)) (b := (p, MIN_ORDER + i)) (mem_free hj hc)
      (mem_free hi hpF) fun hcon => ?_
    obtain ⟨hcp, hji⟩ := Prod.mk.inj hcon
    rcases hne with hne | hne
    · exact hne hcp
    · exact hne (by omega)
  have hsame : ∀ c, Far c p → SameHeader s.mem (setNext s.mem p (next s.mem a)) c :=
    fun c hc => onlyHeader_setNext.same hc
  have hchain := h.lists.chain i hi
  rw [hF, List.append_cons pre p] at hchain
  exact {
    tiled := h.tiled.perm hperm
    minOrder := fun b hb => h.minOrder b (hperm.mem_iff.mpr hb)
    regions := ⟨h.regions.word, h.regions.bits, h.regions.base⟩
    lists := h.lists.unlink hi hF hnd (h.storable_chain hi hchain.tail_of_append
      fun c hc => hsub c (by simp [hc])) hfree
    hand := by
      intro b hb
      show order (setNext s.mem p (next s.mem a)) b.1 = b.2 ∧ isFree _ b.1 = true
      rcases List.mem_cons.mp hb with rfl | hb
      · have hs := hsame a (hfree i hi a haF (Or.inl hap))
        rw [hs.order, hs.isFree]
        exact h.lists.header i hi a haF
      · have hs := hsame b.1 (h.far_of_free hi hpF (Or.inl hb))
        rw [hs.order, hs.isFree]
        exact h.hand b hb
    live := by
      intro b hb
      show isFree (setNext s.mem p (next s.mem a)) b.1 = false
      rw [(hsame b.1 (h.far_of_free hi hpF (Or.inr hb))).isFree]
      exact h.live b hb
    maximal := h.maximal.mono (subset_remove hsub)
    merged := h.merged }

/-- The header of the first block of a tiling overlaps no other. -/
theorem far_of_first {R : List Nat} {B : List Block} (ht : Tiled MAX_ORDER R ((a, o) :: B))
    (hmin : ∀ b ∈ (a, o) :: B, MIN_ORDER ≤ b.2) {b : Block} (hb : b ∈ B) : Far b.1 a := by
  have hpw := pairwise_apart ht.cover_le_one
  have hap : Block.Apart (a, o) b := (List.pairwise_cons.mp hpw).1 b hb
  exact far_of_apart hap.symm (hmin b (List.mem_cons_of_mem _ hb)) (hmin (a, o) (by simp))

/-- The block in hand is given to the client. -/
theorem give (h : Inv F L [(a, o)] s) :
    Inv F ((a, o) :: L) [] { s with mem := setNext (setIsFree s.mem a false) a none } := by
  have honly : OnlyHeader s.mem (setNext (setIsFree s.mem a false) a none) a :=
    onlyHeader_setIsFree.trans onlyHeader_setNext
  have hsame : ∀ b ∈ L ++ freeBlocks F,
      SameHeader s.mem (setNext (setIsFree s.mem a false) a none) b.1 :=
    fun b hb => honly.same (far_of_first h.tiled h.minOrder hb)
  exact {
    tiled := h.tiled
    minOrder := h.minOrder
    regions := ⟨h.regions.word, h.regions.bits, h.regions.base⟩
    lists := h.lists.frame fun i hi c hc => hsame (c, MIN_ORDER + i)
      (List.mem_append_right _ (mem_freeBlocks.mpr ⟨i, hi, rfl, hc⟩))
    hand := by simp
    live := by
      intro b hb
      show isFree (setNext (setIsFree s.mem a false) a none) b.1 = false
      rcases List.mem_cons.mp hb with rfl | hb
      · rw [isFree_setNext, isFree_setIsFree]
      · rw [(hsame b (List.mem_append_left _ hb)).isFree]
        exact h.live b hb
    maximal := h.maximal
    merged := h.merged }

/-- A live block comes back into the hand. -/
theorem release (h : Inv F L [] s) (hL : L.Perm ((a, o) :: L')) :
    Inv F L' [(a, o)] { s with mem := setOrder (setIsFree s.mem a true) a o } := by
  have hperm : (allBlocks F L []).Perm (allBlocks F L' [(a, o)]) := hL.append_right _
  have htiled := h.tiled.perm hperm
  have hmin : ∀ b ∈ allBlocks F L' [(a, o)], MIN_ORDER ≤ b.2 :=
    fun b hb => h.minOrder b (hperm.mem_iff.mpr hb)
  have hmax : o ≤ MAX_ORDER := h.maxOrder (a := (a, o)) (hperm.mem_iff.mpr (by simp [allBlocks]))
  have honly : OnlyHeader s.mem (setOrder (setIsFree s.mem a true) a o) a :=
    onlyHeader_setIsFree.trans onlyHeader_setOrder
  have hsame : ∀ b ∈ L' ++ freeBlocks F,
      SameHeader s.mem (setOrder (setIsFree s.mem a true) a o) b.1 :=
    fun b hb => honly.same (far_of_first htiled hmin hb)
  exact {
    tiled := htiled
    minOrder := hmin
    regions := ⟨h.regions.word, h.regions.bits, h.regions.base⟩
    lists := h.lists.frame fun i hi c hc => hsame (c, MIN_ORDER + i)
      (List.mem_append_right _ (mem_freeBlocks.mpr ⟨i, hi, rfl, hc⟩))
    hand := by
      intro b hb
      obtain rfl := List.mem_singleton.mp hb
      unfold MAX_ORDER at hmax
      exact ⟨order_setOrder (by omega), by rw [isFree_setOrder, isFree_setIsFree]⟩
    live := by
      intro b hb
      show isFree (setOrder (setIsFree s.mem a true) a o) b.1 = false
      rw [(hsame b (List.mem_append_left _ hb)).isFree]
      exact h.live b (hL.mem_iff.mpr (List.mem_cons_of_mem _ hb))
    maximal := h.maximal
    merged := h.merged }

theorem splitOnce_eq : Buddy.splitOnce s a (MIN_ORDER + i + 1) = setList
    { s with mem := splitMem s.mem a (a + 2 ^ (MIN_ORDER + i)) (MIN_ORDER + i) (s.freeLists i) } i
    (some (a + 2 ^ (MIN_ORDER + i))) := by
  simp only [Buddy.splitOnce, Nat.add_sub_cancel, Nat.add_assoc MIN_ORDER i 1,
    Nat.add_sub_cancel_left]
  rfl

/-- One turn of `split`: the upper half goes to its list, the lower half stays in hand. -/
theorem splitOnce (h : Inv F L [(a, MIN_ORDER + i + 1)] s) (hi : i + 1 < NUM_ORDERS) :
    Inv (Function.update F i ((a + 2 ^ (MIN_ORDER + i)) :: F i)) L [(a, MIN_ORDER + i)]
      (Buddy.splitOnce s a (MIN_ORDER + i + 1)) := by
  have hidx : i < NUM_ORDERS := Nat.lt_of_succ_lt hi
  have hsmall : MIN_ORDER + i < MAX_ORDER := by
    unfold NUM_ORDERS MAX_ORDER MIN_ORDER at *
    omega
  have hbyte : MIN_ORDER + i < 256 := Nat.lt_trans hsmall (by decide)
  obtain ⟨q, hq, hplaced⟩ := h.tiled.placed (a, MIN_ORDER + i + 1) (by simp [allBlocks])
  have hlow : Tiled MAX_ORDER s.regions ((a, MIN_ORDER + i) :: (a + 2 ^ (MIN_ORDER + i),
      MIN_ORDER + i) :: (L ++ freeBlocks F)) := h.tiled.split
  have hhigh := hlow.perm (List.Perm.swap _ _ _)
  have hmin : ∀ b ∈ (a, MIN_ORDER + i) :: (a + 2 ^ (MIN_ORDER + i), MIN_ORDER + i) ::
      (L ++ freeBlocks F), MIN_ORDER ≤ b.2 := by
    intro b hb
    rcases List.mem_cons.mp hb with rfl | hb
    · exact Nat.le_add_right _ _
    · rcases List.mem_cons.mp hb with rfl | hb
      · exact Nat.le_add_right _ _
      · exact h.minOrder b (List.mem_append_right _ hb)
  have hmin' := fun c hc => hmin c ((List.Perm.swap _ _ _).mem_iff.mp hc)
  have hba : Far (a + 2 ^ (MIN_ORDER + i)) a :=
    far_of_first hlow hmin (b := (_, MIN_ORDER + i)) (by simp)
  have hupper := splitMem_upper (m := s.mem) hba hbyte (h.storable_head hidx)
  have hlower := splitMem_lower (m := s.mem) (p := s.freeLists i) hba.symm hbyte
  -- both halves in hand, with their new headers
  have hboth : Inv F L [(a + 2 ^ (MIN_ORDER + i), MIN_ORDER + i), (a, MIN_ORDER + i)]
      { s with
        mem := splitMem s.mem a (a + 2 ^ (MIN_ORDER + i)) (MIN_ORDER + i) (s.freeLists i) } := by
    refine h.hands hhigh (by simp) (fun c hc => ?_) (fun c hc => ?_)
    · exact splitMem_same (far_of_first hlow hmin (List.mem_cons_of_mem _ hc))
        (far_of_first hhigh hmin' (List.mem_cons_of_mem _ hc))
    · rcases List.mem_cons.mp hc with rfl | hc
      · exact ⟨hupper.1, hupper.2.1⟩
      · obtain rfl := List.mem_singleton.mp hc
        exact ⟨hlower.1, hlower.2.trans (h.hand (a, MIN_ORDER + i + 1) (by simp)).2⟩
  rw [splitOnce_eq]
  refine hboth.push hidx hupper.2.2 fun _ hin hmem => ?_
  -- the upper half's buddy is the lower half, which is in hand
  obtain ⟨-, hsib⟩ := hboth.regions.xor_eq_sibling hhigh hq hplaced.upper
    (Nat.le_add_right _ _) hsmall hin
  rw [hsib, sibling_upper hplaced] at hmem
  have hfar := far_of_first hlow hmin (b := (a, MIN_ORDER + i)) (List.mem_cons_of_mem _
    (List.mem_append_right _ (mem_freeBlocks.mpr ⟨i, hidx, rfl, hmem⟩)))
  exact hfar.ne rfl

end Inv

end Aethalloc.Buddy
