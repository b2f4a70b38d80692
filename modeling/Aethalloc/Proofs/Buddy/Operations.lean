/-
The operations of the buddy allocator keep the invariant.

`alloc` pops a head and splits, after mapping a region if every list is empty;
`dealloc` merges upwards as long as the buddy is free and puts the result on its
list.  The two loops are inductions over the orders left to go, one move of
`Proofs/Buddy/Moves.lean` a turn.  Where a walk needs fuel, the lemmas say how much
is enough: more than there are free blocks.
-/
import Aethalloc.Proofs.Buddy.Moves

namespace Aethalloc.Buddy

open Lib

variable {F : Nat → List Nat} {L L' H : List Block} {s : BuddyAllocator} {a b i : Nat}

/-! ### Walking a free list -/

/-- What the walk does when it stands at the block, with `p` before it. -/
def unlinked (s : BuddyAllocator) (i b : Nat) : Option Nat → BuddyAllocator
  | some p => { s with mem := setNext s.mem p (next s.mem b) }
  | none => setList s i (next s.mem b)

/-- On a list that holds the block, the walk unlinks it, fuel permitting. -/
theorem removeLoop_eq {r₁ r₂ : List Nat} : ∀ (fuel : Nat) (prev : Option Nat) {cur : Option Nat},
    Chain (next s.mem) cur (r₁ ++ b :: r₂) → b ∉ r₁ →
    removeLoop s b i fuel prev cur
      = if r₁.length < fuel then some (unlinked s i b (r₁.getLast?.or prev), true) else none := by
  induction r₁ with
  | nil =>
      intro fuel prev cur hchain _
      obtain ⟨rfl, -⟩ := hchain
      cases fuel with
      | zero => rfl
      | succ fuel =>
          rw [List.length_nil, if_pos (Nat.succ_pos fuel)]
          cases prev with
          | none => simp [removeLoop, unlinked]
          | some p => simp [removeLoop, unlinked]
  | cons c r₁ ih =>
      intro fuel prev cur hchain hnot
      obtain ⟨rfl, hrest⟩ := hchain
      have hcb : c ≠ b := fun hc => hnot (by simp [hc])
      cases fuel with
      | zero => rfl
      | succ fuel =>
          have hlast : (c :: r₁).getLast?.or prev = r₁.getLast?.or (some c) := by
            cases h : r₁.getLast? <;> simp [List.getLast?_cons, h]
          rw [removeLoop, if_neg hcb, ih fuel _ hrest (fun hc => hnot (List.mem_cons_of_mem c hc)),
            hlast]
          simp only [List.length_cons, Nat.succ_lt_succ_iff]

/-- A block on its list comes off it into the hand, and only lack of fuel prevents it. -/
theorem Inv.remove (h : Inv F L H s) (hi : i < NUM_ORDERS) (hb : b ∈ F i) (fuel : Nat) :
    (removeFromFreeList fuel s b i = none ∧ fuel ≤ (F i).length) ∨
      ∃ s', removeFromFreeList fuel s b i = some (s', true) ∧ s'.base = s.base ∧
        Inv (Function.update F i ((F i).erase b)) L ((b, MIN_ORDER + i) :: H) s' := by
  obtain ⟨r₁, r₂, hnot, hF, herase⟩ := List.exists_erase_eq hb
  have hchain := h.lists.chain i hi
  rw [hF] at hchain
  have heq := removeLoop_eq (i := i) fuel none hchain hnot
  rw [Option.or_none] at heq
  unfold removeFromFreeList
  rw [heq]
  by_cases hfuel : r₁.length < fuel
  · refine Or.inr ⟨_, if_pos hfuel, ?_⟩
    rw [herase]
    rcases List.eq_nil_or_concat r₁ with rfl | ⟨pre, p, rfl⟩
    · exact ⟨rfl, h.pop hi hF⟩
    · rw [List.concat_eq_append] at hF ⊢
      rw [← List.append_cons] at hF ⊢
      rw [List.getLast?_append]
      exact ⟨rfl, h.unlinkAfter hi hF⟩
  · refine Or.inl ⟨if_neg hfuel, ?_⟩
    rw [hF, List.length_append, List.length_cons]
    omega

/-! ### One turn of the loop of `coalesce` -/

/-- The loop goes on: the buddy's address is in the base region, and a header there says free and
of the order. -/
def Goes (s : BuddyAllocator) (a o : Nat) : Prop :=
  ∃ base ∈ s.base, base ≤ a ^^^ 2 ^ o ∧ a ^^^ 2 ^ o < base + s.regionSize ∧
    isFree s.mem (a ^^^ 2 ^ o) = true ∧ order s.mem (a ^^^ 2 ^ o) = o

instance (s : BuddyAllocator) (a o : Nat) : Decidable (Goes s a o) :=
  inferInstanceAs (Decidable (∃ base ∈ s.base, _))

/-- Where the block is that a block and its buddy become. -/
def parent (a o : Nat) : Nat := if a < a ^^^ 2 ^ o then a else a ^^^ 2 ^ o

/-- The merge, once the buddy was looked for on its list. -/
def merge (s : BuddyAllocator) (a o : Nat) (found : Bool) : BuddyAllocator :=
  { s with
    mem := setOrder s.mem (parent a o) (o + 1)
    merges := (a ^^^ 2 ^ o, o, found) :: s.merges }

theorem coalesceLoop_stop {fuel n o : Nat} (h : ¬ Goes s a o) :
    Buddy.coalesceLoop fuel (n + 1) s a o = some (s, a, o) := by
  unfold Buddy.coalesceLoop
  simp only
  cases hbase : s.base with
  | none => rfl
  | some base =>
      simp only
      split
      · rfl
      · rename_i hinside
        refine if_pos ?_
        by_contra hheader
        rw [not_or, Bool.not_eq_false, not_not] at hheader
        exact h ⟨base, hbase, by omega, by omega, hheader.1, hheader.2⟩

theorem coalesceLoop_go {fuel n o : Nat} (h : Goes s a o) :
    Buddy.coalesceLoop fuel (n + 1) s a o
      = (removeFromFreeList fuel s (a ^^^ 2 ^ o) (o - MIN_ORDER)).bind fun r =>
        Buddy.coalesceLoop fuel n (merge r.1 a o r.2) (parent a o) (o + 1) := by
  obtain ⟨base, hbase, hlow, hhigh, hfree, horder⟩ := h
  rw [Option.mem_def] at hbase
  have hinside : ¬ (a ^^^ 2 ^ o < base ∨ base + s.regionSize ≤ a ^^^ 2 ^ o) := by omega
  have hheader : ¬ (isFree s.mem (a ^^^ 2 ^ o) = false ∨ order s.mem (a ^^^ 2 ^ o) ≠ o) := by
    rw [not_or, Bool.not_eq_false, not_not]
    exact ⟨hfree, horder⟩
  rw [Buddy.coalesceLoop]
  simp only [hbase, if_neg hinside, if_neg hheader]
  cases removeFromFreeList fuel s (a ^^^ 2 ^ o) (o - MIN_ORDER) with
  | none => rfl
  | some r => rfl

/-! ### Merging -/

/-- A header in the base region that looks like a free buddy is one. -/
theorem Inv.buddy_mem (h : Inv F L [(a, MIN_ORDER + i)] s) (hi : i + 1 < NUM_ORDERS)
    (hgoes : Goes s a (MIN_ORDER + i)) :
    InBase s (a ^^^ 2 ^ (MIN_ORDER + i)) ∧ a ^^^ 2 ^ (MIN_ORDER + i) ∈ F i := by
  obtain ⟨base, hbase, hstart, hstop, hfree, horder⟩ := hgoes
  rw [(h.regions.base base hbase).2.1] at hstop
  have hin : InBase s (a ^^^ 2 ^ (MIN_ORDER + i)) := ⟨base, hbase, hstart, hstop⟩
  refine ⟨hin, ?_⟩
  have hsmall : MIN_ORDER + i < MAX_ORDER := by
    unfold NUM_ORDERS MAX_ORDER MIN_ORDER at *
    omega
  have hmem : (a, MIN_ORDER + i) ∈ allBlocks F L [(a, MIN_ORDER + i)] := by simp [allBlocks]
  obtain ⟨q, hq, hplaced⟩ := h.tiled.placed _ hmem
  obtain ⟨-, hsib⟩ := h.regions.xor_eq_sibling h.tiled hq hplaced (Nat.le_add_right _ _) hsmall hin
  obtain ⟨p, -, hp⟩ := h.tiled.sibling_start hmem hq hplaced hsmall
  rw [← hsib] at hp
  rcases List.mem_append.mp hp with hp | hp
  · -- the block itself is not its own sibling
    have hself := (Prod.mk.inj (List.mem_singleton.mp hp)).1
    have hpos : 0 < 2 ^ (MIN_ORDER + i) := Nat.two_pow_pos _
    rw [hsib] at hself
    rcases sibling_cases hplaced hsmall with ⟨hs, -⟩ | ⟨hs, -⟩ <;> omega
  · rcases List.mem_append.mp hp with hp | hp
    · have hlive := h.live _ hp
      rw [hfree] at hlive
      exact absurd hlive (by decide)
    · obtain ⟨j, hj, ho, hF⟩ := mem_freeBlocks.mp hp
      have hheader := (h.lists.header j hj _ hF).1
      rw [horder] at hheader
      obtain rfl : i = j := by omega
      exact hF

theorem Inv.permHand {H' : List Block} (h : Inv F L H s) (hp : H.Perm H') : Inv F L H' s where
  tiled := h.tiled.perm (hp.append_right _)
  minOrder b hb := h.minOrder b ((hp.append_right _).mem_iff.mpr hb)
  regions := h.regions
  lists := h.lists
  hand b hb := h.hand b (hp.mem_iff.mpr hb)
  live := h.live
  maximal := h.maximal
  merged := h.merged

theorem Inv.log {o : Nat} (h : Inv F L H s) :
    Inv F L H { s with merges := (b, o, true) :: s.merges } where
  tiled := h.tiled
  minOrder := h.minOrder
  regions := ⟨h.regions.word, h.regions.bits, h.regions.base⟩
  lists := h.lists
  hand := h.hand
  live := h.live
  maximal := h.maximal
  merged e he := by
    rcases List.mem_cons.mp he with rfl | he
    · rfl
    · exact h.merged e he

/-- The two halves in hand become one block, kept at the lower address. -/
theorem Inv.join {c : Nat} (h : Inv F L [(c + 2 ^ (MIN_ORDER + i), MIN_ORDER + i),
    (c, MIN_ORDER + i)] s) {q : Nat} (hq : q ∈ s.regions)
    (hplaced : Placed MAX_ORDER q (c, MIN_ORDER + i + 1)) :
    Inv F L [(c, MIN_ORDER + i + 1)] { s with
      mem := setOrder s.mem c (MIN_ORDER + i + 1) } := by
  have hmerge : Tiled MAX_ORDER s.regions (allBlocks F L [(c, MIN_ORDER + i + 1)]) :=
    (h.tiled.perm (List.Perm.swap _ _ _)).merge hq hplaced
  have hmin : ∀ b ∈ allBlocks F L [(c, MIN_ORDER + i + 1)], MIN_ORDER ≤ b.2 := by
    intro b hb
    rcases List.mem_cons.mp hb with rfl | hb
    · show MIN_ORDER ≤ MIN_ORDER + i + 1
      omega
    · exact h.minOrder b (List.mem_append_right _ hb)
  refine h.hands hmerge (fun b hb => hmin b (List.mem_append_left _ hb)) (fun b hb => ?_)
    (fun b hb => ?_)
  · exact onlyHeader_setOrder.same (Inv.far_of_first hmerge hmin hb)
  · obtain rfl := List.mem_singleton.mp hb
    have hmax : MIN_ORDER + i + 1 ≤ MAX_ORDER := hplaced.1
    unfold MAX_ORDER at hmax
    refine ⟨order_setOrder (by omega), ?_⟩
    rw [isFree_setOrder]
    exact (h.hand (c, MIN_ORDER + i) (by simp)).2

/-- The block and its buddy, both in hand, become their parent. -/
theorem Inv.mergeOnce (h : Inv F L [(a ^^^ 2 ^ (MIN_ORDER + i), MIN_ORDER + i),
    (a, MIN_ORDER + i)] s) (hi : i + 1 < NUM_ORDERS)
    (hin : InBase s (a ^^^ 2 ^ (MIN_ORDER + i))) :
    Inv F L [(parent a (MIN_ORDER + i), MIN_ORDER + i + 1)]
      (merge s a (MIN_ORDER + i) true) := by
  refine Inv.log (s := { s with
    mem := setOrder s.mem (parent a (MIN_ORDER + i)) (MIN_ORDER + i + 1) }) ?_
  unfold parent
  have hsmall : MIN_ORDER + i < MAX_ORDER := by
    unfold NUM_ORDERS MAX_ORDER MIN_ORDER at *
    omega
  have hpos : 0 < 2 ^ (MIN_ORDER + i) := Nat.two_pow_pos _
  obtain ⟨q, hq, hplaced⟩ := h.tiled.placed (a, MIN_ORDER + i) (by simp [allBlocks])
  obtain ⟨-, hsib⟩ := h.regions.xor_eq_sibling h.tiled hq hplaced (Nat.le_add_right _ _) hsmall hin
  generalize a ^^^ 2 ^ (MIN_ORDER + i) = b at *
  rcases sibling_cases hplaced hsmall with ⟨hs, hp⟩ | ⟨hs, hp⟩
  · rw [← hsib] at hs
    rw [if_pos (by omega)]
    rw [hs] at h
    exact h.join hq hp
  · rw [← hsib] at hs hp
    rw [if_neg (by omega)]
    rw [hs] at h
    exact (h.permHand (List.Perm.swap _ _ _)).join hq hp

/-! ### Freeing -/

/-- The block goes no further up: its buddy is outside the base region or not free. -/
def Stops (F : Nat → List Nat) (s : BuddyAllocator) (a i : Nat) : Prop :=
  InBase s a → InBase s (a ^^^ 2 ^ (MIN_ORDER + i)) → a ^^^ 2 ^ (MIN_ORDER + i) ∉ F i

/-- A block of the largest order has no buddy in its region. -/
theorem stops_top : Stops F s a (MAX_ORDER - MIN_ORDER) := by
  intro hin hin'
  obtain ⟨r, hr, hra⟩ := hin
  obtain ⟨r', hr', hra'⟩ := hin'
  rw [hr] at hr'
  obtain rfl := Option.some.inj hr'
  exfalso
  unfold InRegion at hra hra'
  rw [show MIN_ORDER + (MAX_ORDER - MIN_ORDER) = MAX_ORDER from rfl, xor_two_pow] at hra'
  unfold MAX_ORDER at *
  split at hra' <;> omega

/-- The block in hand goes to the front of its list. -/
theorem Inv.pushBlock (h : Inv F L [(a, MIN_ORDER + i)] s) (hi : i < NUM_ORDERS)
    (hstop : Stops F s a i) :
    Inv (Function.update F i (a :: F i)) L [] (Buddy.pushBlock s a (MIN_ORDER + i)) := by
  have hlinked : Inv F L [(a, MIN_ORDER + i)] { s with
      mem := setNext s.mem a (s.freeLists i) } := by
    refine h.hands h.tiled (fun b hb => h.minOrder b (List.mem_append_left _ hb))
      (fun b hb => onlyHeader_setNext.same (Inv.far_of_first h.tiled h.minOrder hb))
      (fun b hb => ?_)
    obtain rfl := List.mem_singleton.mp hb
    rw [order_setNext, isFree_setNext]
    exact h.hand (a, MIN_ORDER + i) (by simp)
  have hpush := hlinked.push hi (next_setNext (h.storable_head hi)) hstop
  unfold Buddy.pushBlock
  rw [Nat.add_sub_cancel_left]
  exact hpush

theorem length_le_freeBlocks (hi : i < NUM_ORDERS) : (F i).length ≤ (freeBlocks F).length := by
  have hsub : ((F i).map (·, MIN_ORDER + i)).Sublist (freeBlocks F) := by
    unfold freeBlocks
    rw [List.flatMap_def]
    exact List.sublist_flatten_of_mem (List.mem_map.mpr ⟨i, List.mem_range.mpr hi, rfl⟩)
  rw [← List.length_map (·, MIN_ORDER + i)]
  exact hsub.length_le

/-- Where the loop does not go on, the block has gone as far up as it can. -/
theorem Inv.stops (h : Inv F L [(a, MIN_ORDER + i)] s) (hi : i < NUM_ORDERS)
    (hnot : ¬ Goes s a (MIN_ORDER + i)) : Stops F s a i := by
  intro _ hin hmem
  obtain ⟨base, hbase, hstart, hstop⟩ := hin
  obtain ⟨horder, hfree⟩ := h.lists.header i hi _ hmem
  rw [← (h.regions.base base hbase).2.1] at hstop
  exact hnot ⟨base, hbase, hstart, hstop, hfree, horder⟩

/-- Where it goes on, the walk finds the buddy, fuel permitting, and the two become one block. -/
theorem Inv.turn (h : Inv F L [(a, MIN_ORDER + i)] s) (hi : i + 1 < NUM_ORDERS)
    (hgoes : Goes s a (MIN_ORDER + i)) (fuel : Nat) :
    (removeFromFreeList fuel s (a ^^^ 2 ^ (MIN_ORDER + i)) i = none ∧
      fuel ≤ (freeBlocks F).length) ∨
    ∃ s' F', removeFromFreeList fuel s (a ^^^ 2 ^ (MIN_ORDER + i)) i = some (s', true) ∧
      Inv F' L [(parent a (MIN_ORDER + i), MIN_ORDER + i + 1)] (merge s' a (MIN_ORDER + i) true) ∧
      (freeBlocks F').length < (freeBlocks F).length := by
  have hidx : i < NUM_ORDERS := Nat.lt_of_succ_lt hi
  obtain ⟨hin, hmem⟩ := h.buddy_mem hi hgoes
  rcases h.remove hidx hmem fuel with ⟨hnone, hfuel⟩ | ⟨s', hsome, hbase, h'⟩
  · exact Or.inl ⟨hnone, Nat.le_trans hfuel (length_le_freeBlocks hidx)⟩
  · have hin' : InBase s' (a ^^^ 2 ^ (MIN_ORDER + i)) := by
      unfold InBase
      rw [hbase]
      exact hin
    have hlen := (freeBlocks_remove hidx (List.perm_cons_erase hmem)).length_eq
    rw [List.length_cons] at hlen
    exact Or.inr ⟨s', _, hsome, h'.mergeOnce hi hin', by omega⟩

/--
The loop of `coalesce` ends with a block in hand that goes no further up, and fails
only when the fuel does not cover the free blocks.
-/
theorem Inv.coalesceLoop (fuel : Nat) : ∀ {n i a : Nat} {F : Nat → List Nat} {s : BuddyAllocator},
    Inv F L [(a, MIN_ORDER + i)] s → i + n = MAX_ORDER - MIN_ORDER →
    (Buddy.coalesceLoop fuel n s a (MIN_ORDER + i) = none ∧ fuel ≤ (freeBlocks F).length) ∨
      ∃ s' a' j F', Buddy.coalesceLoop fuel n s a (MIN_ORDER + i) = some (s', a', MIN_ORDER + j) ∧
        j < NUM_ORDERS ∧ Inv F' L [(a', MIN_ORDER + j)] s' ∧ Stops F' s' a' j := by
  intro n
  induction n with
  | zero =>
      intro i a F s h hin
      obtain rfl : i = MAX_ORDER - MIN_ORDER := hin
      exact Or.inr ⟨s, a, _, F, rfl, by decide, h, stops_top⟩
  | succ n ih =>
      intro i a F s h hin
      have hi : i + 1 < NUM_ORDERS := by
        unfold NUM_ORDERS
        omega
      by_cases hgoes : Goes s a (MIN_ORDER + i)
      · rw [coalesceLoop_go hgoes, Nat.add_sub_cancel_left]
        rcases h.turn hi hgoes fuel with ⟨hnone, hfuel⟩ | ⟨s', F', hsome, h', hlen⟩
        · rw [hnone]
          exact Or.inl ⟨rfl, hfuel⟩
        · rw [hsome]
          rcases ih (i := i + 1) h' (by omega) with ⟨hnone, hfuel⟩ | hgo
          · exact Or.inl ⟨hnone, by omega⟩
          · exact Or.inr hgo
      · have hidx : i < NUM_ORDERS := Nat.lt_of_succ_lt hi
        exact Or.inr ⟨s, a, i, F, coalesceLoop_stop hgoes, hidx, h, h.stops hidx hgoes⟩

/-- A live block comes into the hand, marked free and of its order. -/
theorem Inv.released {ptr size : Nat} (h : Inv F L [] s)
    (hL : L.Perm ((ptr - HEADER_SIZE, trailingZeros size) :: L')) :
    ∃ i, trailingZeros size = MIN_ORDER + i ∧ MIN_ORDER + i ≤ MAX_ORDER ∧
      Inv F L' [(ptr - HEADER_SIZE, MIN_ORDER + i)] { s with
        mem := setOrder (setIsFree s.mem (ptr - HEADER_SIZE) true) (ptr - HEADER_SIZE)
          (MIN_ORDER + i) } := by
  have hhand := h.release hL
  have hmem : (ptr - HEADER_SIZE, trailingZeros size) ∈ allBlocks F L' [_] :=
    List.mem_append_left _ (List.mem_singleton.mpr rfl)
  have hhigh := hhand.maxOrder hmem
  obtain ⟨i, hi⟩ : ∃ i, trailingZeros size = MIN_ORDER + i :=
    Nat.exists_eq_add_of_le (hhand.minOrder _ hmem)
  simp only at hhigh
  rw [hi] at hhigh hhand
  exact ⟨i, hi, hhigh, hhand⟩

/-- `dealloc` of a live block keeps the invariant, and fails only for lack of fuel. -/
theorem Inv.dealloc {ptr size : Nat} (h : Inv F L [] s) (fuel : Nat)
    (hL : L.Perm ((ptr - HEADER_SIZE, trailingZeros size) :: L')) :
    (Buddy.dealloc fuel s ptr size = none ∧ fuel ≤ (freeBlocks F).length) ∨
      ∃ s' F', Buddy.dealloc fuel s ptr size = some s' ∧ Inv F' L' [] s' := by
  obtain ⟨i, hi, hhigh, hhand⟩ := h.released hL
  unfold Buddy.dealloc coalesce
  simp only [hi]
  rcases Inv.coalesceLoop fuel (n := MAX_ORDER - (MIN_ORDER + i)) hhand (by omega)
    with ⟨hnone, hfuel⟩ | ⟨s', a', j, F', hsome, hj, h', hstop⟩
  · rw [hnone]
    exact Or.inl ⟨rfl, hfuel⟩
  · rw [hsome]
    exact Or.inr ⟨_, _, rfl, h'.pushBlock hj hstop⟩

/-! ### Allocating -/

/-- `findOrder` stops at the first list that is not empty, or past the last one. -/
theorem findOrder_spec (heads : Nat → Option Nat) : ∀ (n idx : Nat), NUM_ORDERS ≤ n + idx →
    idx ≤ findOrder heads n idx ∧ (∀ k, idx ≤ k → k < findOrder heads n idx → heads k = none) ∧
      (findOrder heads n idx < NUM_ORDERS → heads (findOrder heads n idx) ≠ none) := by
  intro n
  induction n with
  | zero =>
      intro idx h
      refine ⟨Nat.le_refl _, fun k h1 h2 => ?_, fun hlt => ?_⟩
      · exact absurd h2 (Nat.not_lt.mpr h1)
      · simp only [findOrder] at hlt
        omega
  | succ n ih =>
      intro idx h
      unfold findOrder
      split
      · rename_i hskip
        obtain ⟨h1, h2, h3⟩ := ih (idx + 1) (by omega)
        refine ⟨by omega, fun k hk hk' => ?_, h3⟩
        rcases Nat.eq_or_lt_of_le hk with rfl | hlt
        · exact hskip.2
        · exact h2 k hlt hk'
      · rename_i hstop
        refine ⟨Nat.le_refl _, fun k h1 h2 => absurd h2 (Nat.not_lt.mpr h1), fun hlt hnone => ?_⟩
        exact hstop ⟨hlt, hnone⟩

/-- `split` leaves the block in hand at the order asked for. -/
theorem Inv.split {k : Nat} : ∀ {n : Nat} {F : Nat → List Nat} {s : BuddyAllocator},
    Inv F L [(a, MIN_ORDER + k + n)] s → k + n < NUM_ORDERS →
    ∃ F', Inv F' L [(a, MIN_ORDER + k)] (Buddy.split s a (MIN_ORDER + k) n) := by
  intro n
  induction n with
  | zero => intro F s h _; exact ⟨F, h⟩
  | succ n ih =>
      intro F s h hn
      have hord : MIN_ORDER + (k + n) = MIN_ORDER + k + n := by omega
      have hstep := Inv.splitOnce (i := k + n) (a := a) (s := s) (by rw [hord]; exact h) hn
      rw [hord] at hstep
      exact ih hstep (Nat.lt_of_succ_lt hn)

/-- The head of a list is split down and given out. -/
theorem Inv.takeBlock {block j k : Nat} (h : Inv F L [] s) (hj : j < NUM_ORDERS) (hkj : k ≤ j)
    (hhead : s.freeLists j = some block) :
    (Buddy.takeBlock s block j (MIN_ORDER + k)).2 = block + HEADER_SIZE ∧
      ∃ F', Inv F' ((block, MIN_ORDER + k) :: L) []
        (Buddy.takeBlock s block j (MIN_ORDER + k)).1 := by
  have hchain := h.lists.chain j hj
  rw [hhead] at hchain
  obtain ⟨rest, hF, -⟩ := hchain.exists_cons_of_some
  have hpop := h.pop hj hF
  rw [show MIN_ORDER + j = MIN_ORDER + k + (j - k) by omega] at hpop
  obtain ⟨F', hsplit⟩ := hpop.split (by omega)
  refine ⟨rfl, F', ?_⟩
  unfold Buddy.takeBlock
  rw [show j + MIN_ORDER - (MIN_ORDER + k) = j - k by omega]
  exact hsplit.give

/-- The base moves to a region that was placed well. -/
theorem Regions.add {s' : BuddyAllocator} {ptr : Nat} (h : Regions s) (hfresh : FreshRegion s ptr)
    (hplace : Placeable s.regions ptr) (hregions : s'.regions = ptr :: s.regions)
    (hbase : s'.base = some ptr) (hsize : s'.regionSize = 2 ^ MAX_ORDER) : Regions s' := by
  obtain ⟨hnz, -, hend, -⟩ := hfresh
  refine ⟨?_, ?_, fun r hr => ?_⟩
  · rw [hregions]
    exact List.forall_mem_cons.mpr ⟨⟨hnz, hend⟩, h.word⟩
  · rw [hregions]
    exact List.forall_mem_cons.mpr ⟨hplace.1, h.bits⟩
  · rw [hbase] at hr
    obtain rfl := Option.some.inj hr
    rw [hregions]
    refine ⟨List.mem_cons_self .., hsize, List.forall_mem_cons.mpr ⟨fun hbit => ?_, hplace.2⟩⟩
    unfold InRegion MAX_ORDER
    omega

/-- The blocks together with a region nobody has. -/
theorem Inv.tiled_add {ptr : Nat} (h : Inv F L [] s) (hfresh : FreshRegion s ptr) :
    Tiled MAX_ORDER (ptr :: s.regions) (allBlocks F L [(ptr, MAX_ORDER)]) :=
  h.tiled.map fun r hr => (hfresh.2.2.2 r hr).symm

/-- Such a region overlaps no block. -/
theorem Inv.apart_region {ptr : Nat} {b : Block} (h : Inv F L [] s) (hfresh : FreshRegion s ptr)
    (hb : b ∈ L ++ freeBlocks F) : Block.Apart (ptr, MAX_ORDER) b :=
  (List.pairwise_cons.mp (pairwise_apart (h.tiled_add hfresh).cover_le_one)).1 b hb

theorem Inv.minOrder_add {ptr : Nat} (h : Inv F L [] s) :
    ∀ b ∈ allBlocks F L [(ptr, MAX_ORDER)], MIN_ORDER ≤ b.2 :=
  List.forall_mem_cons.mpr ⟨(by decide : MIN_ORDER ≤ MAX_ORDER), h.minOrder⟩

/-- What is in the region, and its header, touches no header of a block. -/
theorem Inv.same_add {ptr : Nat} {m : Mem} {b : Block} (h : Inv F L [] s)
    (hfresh : FreshRegion s ptr) (hm : ∀ x, ¬ InRegion ptr x → m x = s.mem x)
    (hb : b ∈ L ++ freeBlocks F) :
    SameHeader s.mem (writeHeader m ptr MAX_ORDER true none) b.1 := by
  have hfill : SameHeader s.mem m b.1 := by
    intro x h1 h2
    refine hm x fun hc => ?_
    have hlen : 2 ^ MIN_ORDER ≤ 2 ^ b.2 := Nat.pow_le_pow_right (by decide) (h.minOrder b hb)
    unfold MIN_ORDER at hlen
    unfold HEADER_SIZE at h2
    exact (h.apart_region hfresh hb).not_covers hc ⟨h1, by omega⟩
  have hfar := Inv.far_of_first (h.tiled_add hfresh) h.minOrder_add hb
  exact hfill.trans (onlyHeader_writeHeader.same hfar)

/-- A region nobody has, with anything in it, joins the free blocks as one block of the largest
order. -/
theorem Inv.addRegion {ptr : Nat} {m : Mem} (h : Inv F L [] s) (hfresh : FreshRegion s ptr)
    (hplace : Placeable s.regions ptr) (hempty : s.freeLists (MAX_ORDER - MIN_ORDER) = none)
    (hm : ∀ x, ¬ InRegion ptr x → m x = s.mem x) :
    ∃ F', Inv F' L [] (init { s with
      mem := m
      regions := ptr :: s.regions } ptr (2 ^ MAX_ORDER)) := by
  have hclamp : max MIN_ORDER (min (trailingZeros (2 ^ MAX_ORDER)) MAX_ORDER) = MAX_ORDER := by
    rw [trailingZeros_two_pow (by decide)]
    rfl
  have hfree : ∀ i < NUM_ORDERS, ∀ c ∈ F i, (c, MIN_ORDER + i) ∈ L ++ freeBlocks F :=
    fun i hi c hc => List.mem_append_right _ (mem_freeBlocks.mpr ⟨i, hi, rfl, hc⟩)
  have hhand : Inv F L [(ptr, MAX_ORDER)] { s with
      base := some ptr
      regionSize := 2 ^ MAX_ORDER
      mem := writeHeader m ptr MAX_ORDER true none
      regions := ptr :: s.regions } := {
    tiled := h.tiled_add hfresh
    minOrder := h.minOrder_add
    regions := h.regions.add hfresh hplace rfl rfl rfl
    lists := h.lists.frame fun i hi c hc => h.same_add hfresh hm (hfree i hi c hc)
    hand := by
      intro b hb
      obtain rfl := List.mem_singleton.mp hb
      have hbyte : MAX_ORDER < 256 := by decide
      simp [writeHeader, hbyte]
    live := by
      intro b hb
      show isFree (writeHeader _ ptr MAX_ORDER true none) b.1 = false
      rw [(h.same_add hfresh hm (List.mem_append_left _ hb)).isFree]
      exact h.live b hb
    maximal := by
      -- no block is in the new base region
      intro i hi c hc hin
      obtain ⟨r, hr, hrc⟩ := hin
      obtain rfl := Option.some.inj hr
      have hap := h.apart_region hfresh (hfree i hi c hc)
      exact absurd (Block.covers_self _) (hap.not_covers hrc)
    merged := h.merged }
  have hnone : Storable none := by intro c hc; cases hc
  unfold init
  rw [hclamp]
  exact ⟨_, Inv.push (i := MAX_ORDER - MIN_ORDER) hhand (by decide)
    ((next_setNext hnone).trans hempty.symm) stops_top⟩

/-- A fresh region is mapped with zeroes in it. -/
theorem Inv.mapRegion {ptr : Nat} (h : Inv F L [] s) (hfresh : FreshRegion s ptr)
    (hplace : Placeable s.regions ptr) (hempty : s.freeLists (MAX_ORDER - MIN_ORDER) = none) :
    ∃ F', Inv F' L [] (init { s with
      mem := s.mem.fill ptr (2 ^ MAX_ORDER) 0
      regions := ptr :: s.regions } ptr (2 ^ MAX_ORDER)) :=
  h.addRegion hfresh hplace hempty fun _ hx => Mem.fill_outside hx

/-! ### What a call of `alloc` can do -/

/-- The allocator after a region of zeroes was mapped and taken in. -/
def withRegion (s : BuddyAllocator) (ptr : Nat) : BuddyAllocator :=
  init { s with
    mem := s.mem.fill ptr (2 ^ MAX_ORDER) 0
    regions := ptr :: s.regions } ptr (2 ^ MAX_ORDER)

/-- No list of the order index or above has a block. -/
def NoBlock (s : BuddyAllocator) (k : Nat) : Prop :=
  ∀ i, k ≤ i → i < NUM_ORDERS → s.freeLists i = none

/-- Refuse the size, take a block of a list, find the kernel without a region, or take the first
block of a new one. -/
inductive AllocResult (s : BuddyAllocator) (size : Nat) (answers : List (Option Nat)) :
    BuddyAllocator → Option Nat → Prop
  | outside (h : trailingZeros size < MIN_ORDER ∨ MAX_ORDER < trailingZeros size) :
      AllocResult s size answers s none
  | found {k j block : Nat} (hk : trailingZeros size = MIN_ORDER + k) (hkj : k ≤ j)
      (hj : j < NUM_ORDERS) (hfirst : ∀ i, k ≤ i → i < j → s.freeLists i = none)
      (hblock : s.freeLists j = some block) :
      AllocResult s size answers (takeBlock s block j (MIN_ORDER + k)).1
        (some (block + HEADER_SIZE))
  | refused {k : Nat} (hk : trailingZeros size = MIN_ORDER + k) (hkn : k < NUM_ORDERS)
      (hempty : NoBlock s k) (hmap : mapRegion s answers.head?.join = none) :
      AllocResult s size answers s none
  | mapped {k ptr : Nat} (hk : trailingZeros size = MIN_ORDER + k) (hkn : k < NUM_ORDERS)
      (hempty : NoBlock s k) (hans : answers.head?.join = some ptr) (hfresh : FreshRegion s ptr) :
      AllocResult s size answers
        (takeBlock (withRegion s ptr) ptr (MAX_ORDER - MIN_ORDER) (MIN_ORDER + k)).1
        (some (ptr + HEADER_SIZE))

theorem withRegion_freeLists {ptr : Nat} : (withRegion s ptr).freeLists
    = Function.update s.freeLists (MAX_ORDER - MIN_ORDER) (some ptr) := by
  have hclamp : max MIN_ORDER (min (trailingZeros (2 ^ MAX_ORDER)) MAX_ORDER) = MAX_ORDER := by
    rw [trailingZeros_two_pow (by decide)]
    rfl
  unfold withRegion init
  rw [hclamp]
  rfl

theorem order_in_range {k : Nat} (hk : k < NUM_ORDERS) :
    ¬ (MIN_ORDER + k < MIN_ORDER ∨ MAX_ORDER < MIN_ORDER + k) := by
  unfold NUM_ORDERS MAX_ORDER MIN_ORDER at *
  omega

/-- The first list that is not empty is the one `alloc` takes from. -/
theorem alloc_takes {size k j block : Nat} (hk : trailingZeros size = MIN_ORDER + k) (hkj : k ≤ j)
    (hj : j < NUM_ORDERS) (hfirst : ∀ i, k ≤ i → i < j → s.freeLists i = none)
    (hblock : s.freeLists j = some block) (fuel : Nat) (answers : List (Option Nat)) :
    alloc (fuel + 1) s size answers = some ((Buddy.takeBlock s block j (MIN_ORDER + k)).1,
      some (block + HEADER_SIZE)) := by
  have hrange := order_in_range (Nat.lt_of_le_of_lt hkj hj)
  obtain ⟨h1, h2, h3⟩ := findOrder_spec s.freeLists NUM_ORDERS k (Nat.le_add_right _ _)
  have hfind : findOrder s.freeLists NUM_ORDERS k = j := by
    rcases Nat.lt_trichotomy (findOrder s.freeLists NUM_ORDERS k) j with hlt | heq | hgt
    · exact absurd (hfirst _ h1 hlt) (h3 (Nat.lt_trans hlt hj))
    · exact heq
    · rw [h2 j hkj hgt] at hblock
      cases hblock
  unfold alloc
  simp only [hk, Nat.add_sub_cancel_left]
  rw [if_neg hrange, hfind, if_neg (Nat.not_le.mpr hj), hblock]
  rfl

/-- With every list empty `alloc` asks for a region. -/
theorem alloc_asks {size k : Nat} (hk : trailingZeros size = MIN_ORDER + k) (hkn : k < NUM_ORDERS)
    (hempty : NoBlock s k) (fuel : Nat) (answers : List (Option Nat)) :
    alloc (fuel + 1) s size answers
      = allocNewRegion (alloc fuel) s (MIN_ORDER + k) answers := by
  have hrange := order_in_range hkn
  obtain ⟨h1, -, h3⟩ := findOrder_spec s.freeLists NUM_ORDERS k (Nat.le_add_right _ _)
  have hpast : NUM_ORDERS ≤ findOrder s.freeLists NUM_ORDERS k := by
    by_contra hc
    exact h3 (Nat.not_le.mp hc) (hempty _ h1 (Nat.not_le.mp hc))
  rw [alloc]
  simp only [hk, Nat.add_sub_cancel_left]
  rw [if_neg hrange, if_pos hpast]

/-- Two calls deep, `alloc` does what its result says. -/
theorem AllocResult.alloc_eq {size : Nat} {answers : List (Option Nat)} {s' : BuddyAllocator}
    {p : Option Nat} (h : AllocResult s size answers s' p) (fuel : Nat) :
    alloc (fuel + 2) s size answers = some (s', p) := by
  cases h with
  | outside hrange =>
      rw [alloc]
      simp only
      rw [if_pos hrange]
  | found hk hkj hj hfirst hblock => exact alloc_takes hk hkj hj hfirst hblock (fuel + 1) answers
  | refused hk hkn hempty hmap =>
      rw [alloc_asks hk hkn hempty]
      unfold allocNewRegion
      rw [hmap]
  | @mapped k ptr hk hkn hempty hans hfresh =>
      have hwide : MIN_ORDER + k < 64 := by
        unfold NUM_ORDERS MAX_ORDER MIN_ORDER at *
        omega
      have hmap : mapRegion s answers.head?.join = some ({ s with
          mem := s.mem.fill ptr (2 ^ MAX_ORDER) 0
          regions := ptr :: s.regions }, ptr) := by
        rw [hans]
        exact if_pos hfresh
      rw [alloc_asks hk hkn hempty]
      unfold allocNewRegion
      rw [hmap]
      -- the second call finds the region in the last list
      have htop : k ≤ MAX_ORDER - MIN_ORDER := Nat.le_of_lt_succ hkn
      refine alloc_takes (s := withRegion s ptr) (trailingZeros_two_pow hwide) htop (by decide)
        (fun i hki hi => ?_) ?_ fuel answers.tail
      · rw [withRegion_freeLists, Function.update_of_ne (Nat.ne_of_lt hi)]
        exact hempty i hki (Nat.lt_trans hi (by decide))
      · rw [withRegion_freeLists]
        exact Function.update_self ..

/-- Every call of `alloc` has one of the results, whatever the state. -/
theorem alloc_total (s : BuddyAllocator) (size : Nat) (answers : List (Option Nat)) :
    ∃ s' p, AllocResult s size answers s' p := by
  by_cases hrange : trailingZeros size < MIN_ORDER ∨ MAX_ORDER < trailingZeros size
  · exact ⟨s, none, .outside hrange⟩
  obtain ⟨k, hk⟩ : ∃ k, trailingZeros size = MIN_ORDER + k := Nat.exists_eq_add_of_le (by omega)
  have hkn : k < NUM_ORDERS := by
    unfold NUM_ORDERS
    omega
  obtain ⟨h1, h2, h3⟩ := findOrder_spec s.freeLists NUM_ORDERS k (Nat.le_add_right _ _)
  rcases Nat.lt_or_ge (findOrder s.freeLists NUM_ORDERS k) NUM_ORDERS with hlt | hge
  · obtain ⟨block, hblock⟩ := Option.ne_none_iff_exists'.mp (h3 hlt)
    exact ⟨_, _, .found hk h1 hlt h2 hblock⟩
  · have hempty : NoBlock s k := fun i hki hi => h2 i hki (Nat.lt_of_lt_of_le hi hge)
    cases hans : answers.head?.join with
    | none => exact ⟨s, none, .refused hk hkn hempty (by rw [hans]; rfl)⟩
    | some ptr =>
        by_cases hfresh : FreshRegion s ptr
        · exact ⟨_, _, .mapped hk hkn hempty hans hfresh⟩
        · exact ⟨s, none, .refused hk hkn hempty (by rw [hans]; exact if_neg hfresh)⟩

/-- More fuel does not change what `alloc` returns. -/
theorem alloc_mono : ∀ {fuel size : Nat} {s : BuddyAllocator} {answers : List (Option Nat)}
    {r : BuddyAllocator × Option Nat}, alloc fuel s size answers = some r →
    alloc (fuel + 1) s size answers = some r := by
  intro fuel
  induction fuel with
  | zero => intro size s answers r h; cases h
  | succ fuel ih =>
      intro size s answers r h
      rw [alloc] at h ⊢
      simp only at h ⊢
      split
      · rename_i hrange
        rw [if_pos hrange] at h
        exact h
      · rename_i hrange
        rw [if_neg hrange] at h
        split
        · rename_i hfull
          rw [if_pos hfull] at h
          unfold allocNewRegion at h ⊢
          cases hmap : mapRegion s answers.head?.join with
          | none => rw [hmap] at h; exact h
          | some x => rw [hmap] at h; exact ih h
        · rename_i hfull
          rw [if_neg hfull] at h
          exact h

/-- Whatever fuel it was given, an `alloc` that returns has one of the results. -/
theorem alloc_result {size fuel : Nat} {answers : List (Option Nat)} {s' : BuddyAllocator}
    {p : Option Nat} (hal : alloc fuel s size answers = some (s', p)) :
    AllocResult s size answers s' p := by
  obtain ⟨s₁, p₁, hresult⟩ := alloc_total s size answers
  have heq := hresult.alloc_eq fuel
  rw [alloc_mono (alloc_mono hal)] at heq
  obtain ⟨rfl, rfl⟩ := Prod.mk.inj (Option.some.inj heq)
  exact hresult

theorem mem_of_head_join {answers : List (Option Nat)} {ptr : Nat}
    (h : answers.head?.join = some ptr) : some ptr ∈ answers := by
  cases answers with
  | nil => cases h
  | cons x rest =>
      have hx : x = some ptr := h
      rw [hx]
      exact List.mem_cons_self ..

/-! ### `alloc` keeps the invariant -/

/-- What `alloc` may have done: nothing but map memory, or give out a block of the order. -/
def Served (L : List Block) (order : Nat) (s' : BuddyAllocator) : Option Nat → Prop
  | none => ∃ F', Inv F' L [] s'
  | some p => ∃ block F', p = block + HEADER_SIZE ∧ Inv F' ((block, order) :: L) [] s'

/-- `alloc` keeps the invariant when the kernel places regions well. -/
theorem Inv.served {size : Nat} {answers : List (Option Nat)} {s' : BuddyAllocator} {p : Option Nat}
    (h : Inv F L [] s) (hplace : ∀ p, some p ∈ answers → Placeable s.regions p)
    (hresult : AllocResult s size answers s' p) : Served L (trailingZeros size) s' p := by
  cases hresult with
  | outside _ => exact ⟨F, h⟩
  | @found k j block hk hkj hj hfirst hblock =>
      rw [hk]
      obtain ⟨-, F', hF'⟩ := h.takeBlock hj hkj hblock
      exact ⟨block, F', rfl, hF'⟩
  | refused _ _ _ _ => exact ⟨F, h⟩
  | @mapped k ptr hk hkn hempty hans hfresh =>
      have htop : k ≤ MAX_ORDER - MIN_ORDER := Nat.le_of_lt_succ hkn
      obtain ⟨F₁, hF₁⟩ := h.mapRegion hfresh (hplace ptr (mem_of_head_join hans))
        (hempty _ htop (by decide))
      have hhead : (withRegion s ptr).freeLists (MAX_ORDER - MIN_ORDER) = some ptr := by
        rw [withRegion_freeLists]
        exact Function.update_self ..
      obtain ⟨-, F', hF'⟩ := Inv.takeBlock (s := withRegion s ptr) hF₁ (by decide) htop hhead
      rw [hk]
      exact ⟨ptr, F', rfl, hF'⟩

end Aethalloc.Buddy
