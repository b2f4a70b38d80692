/-
When an allocation is refused, and why a deallocation ends.

`alloc` and `alloc_new_region` call each other, but the region that is mapped is a
block of the largest order, so the second call of `alloc` finds it: two calls are
enough in every state, and an allocation fails only when the size is not one of the
allocator's or the kernel refused the region there was need for.

A walk of `remove_from_free_list` ends because lists have an end, and finds its
block because a header that says free belongs to a block on the list of its order.
Both are in the invariant, so they hold at every walk a deallocation starts.
-/
import Aethalloc.Proofs.Buddy.Canonical

namespace Aethalloc.Buddy

open Lib

variable {F : Nat → List Nat} {L : List Block} {s s' : BuddyAllocator} {w : World} {a i : Nat}

/-! ### Refusing -/

/-- The size is none of the allocator's, or there is no block for it and no region to be had. -/
def Refuses (s : BuddyAllocator) (size : Nat) (answer : Option Nat) : Prop :=
  ¬ (MIN_ORDER ≤ trailingZeros size ∧ trailingZeros size ≤ MAX_ORDER) ∨
    (∀ i < NUM_ORDERS, ∀ b, OnList s i b → MIN_ORDER + i < trailingZeros size) ∧
      mapRegion s answer = none

/-- What is true of an allocation, whatever the state. -/
structure Decides (s : BuddyAllocator) (size : Nat) (answers : List (Option Nat))
    (s' : BuddyAllocator) (r : Option Nat) : Prop where
  regions : s'.regions = s.regions ∨ ∃ ptr, s'.regions = ptr :: s.regions
  refused : r = none ↔ Refuses s size answers.head?.join
  unchanged : r = none → s' = s

/-- A list that has a head has a block. -/
theorem onList_head {b : Nat} (h : s.freeLists i = some b) : OnList s i b := by
  unfold OnList
  rw [h]
  exact OnChain.here _

theorem not_onList {b : Nat} (h : s.freeLists i = none) : ¬ OnList s i b := by
  unfold OnList
  rw [h]
  exact fun hon => nomatch hon

theorem AllocResult.decides {size : Nat} {answers : List (Option Nat)} {r : Option Nat}
    (h : AllocResult s size answers s' r) : Decides s size answers s' r := by
  cases h with
  | outside hrange =>
      exact ⟨Or.inl rfl, ⟨fun _ => Or.inl (by omega), fun _ => rfl⟩, fun _ => rfl⟩
  | @found k j block hk hkj hj hfirst hblock =>
      refine ⟨Or.inl takeBlock_regions.regions, ⟨nofun, fun hrefuses => ?_⟩, nofun⟩
      have hrange := order_in_range (Nat.lt_of_le_of_lt hkj hj)
      rcases hrefuses with hout | ⟨hnone, -⟩
      · omega
      · have := hnone j hj block (onList_head hblock)
        omega
  | refused hk hkn hempty hmap =>
      refine ⟨Or.inl rfl, ⟨fun _ => Or.inr ⟨fun i hi b hb => ?_, hmap⟩, fun _ => rfl⟩, fun _ => rfl⟩
      by_contra hle
      exact not_onList (hempty i (by omega) hi) hb
  | @mapped k ptr hk hkn hempty hans hfresh =>
      refine ⟨Or.inr ⟨ptr, takeBlock_regions.regions⟩, ⟨nofun, fun hrefuses => ?_⟩, nofun⟩
      have hrange := order_in_range hkn
      rcases hrefuses with hout | ⟨-, hmap⟩
      · omega
      · rw [hans] at hmap
        exact absurd hmap (by simp [mapRegion, hfresh])

/-! ### The walks of a deallocation -/

/-- A call of `remove_from_free_list`: the state, the block, and the index of the list. -/
structure Walk where
  start : BuddyAllocator
  block : Nat
  orderIdx : Nat

/-- The walks that the loop of `coalesce` starts, with `n` orders left up to the largest. -/
def walks (fuel : Nat) : Nat → BuddyAllocator → Nat → Nat → List Walk
  | 0, _, _, _ => []
  | n + 1, s, block, currentOrder =>
      if Goes s block currentOrder then
        let walk : Walk := ⟨s, block ^^^ 2 ^ currentOrder, currentOrder - MIN_ORDER⟩
        match removeFromFreeList fuel walk.start walk.block walk.orderIdx with
        | none => [walk]
        | some (s, found) =>
            walk :: walks fuel n (merge s block currentOrder found) (parent block currentOrder)
              (currentOrder + 1)
      else
        []

/-- The walks that `dealloc(ptr, size)` starts. -/
def deallocWalks (fuel : Nat) (s : BuddyAllocator) (ptr size : Nat) : List Walk :=
  let order := trailingZeros size
  let block := ptr - HEADER_SIZE
  let mem := setOrder (setIsFree s.mem block true) block order
  walks fuel (MAX_ORDER - order) { s with mem := mem } block order

/-- The walk ends having found its block, and takes it and no other off the lists. -/
structure Walk.Unlinks (fuel : Nat) (walk : Walk) : Prop where
  onList : OnList walk.start walk.orderIdx walk.block
  removed : ∃ s', removeFromFreeList fuel walk.start walk.block walk.orderIdx = some (s', true) ∧
    ∀ i < NUM_ORDERS, ∀ b, OnList s' i b ↔
      OnList walk.start i b ∧ ¬ (i = walk.orderIdx ∧ b = walk.block)

/-- The merges of a deallocation are those its walks were for, so no walk is left out. -/
theorem walks_merges {fuel : Nat} : ∀ {n a o : Nat} {s : BuddyAllocator}
    {r : BuddyAllocator × Nat × Nat}, coalesceLoop fuel n s a o = some r →
    r.1.merges.map (fun e => (e.1, e.2.1 - MIN_ORDER)) =
      ((walks fuel n s a o).map fun c => (c.block, c.orderIdx)).reverse ++
        s.merges.map fun e => (e.1, e.2.1 - MIN_ORDER) := by
  intro n
  induction n with
  | zero =>
      intro a o s r h
      obtain rfl := Option.some.inj h
      rfl
  | succ n ih =>
      intro a o s r h
      unfold walks
      by_cases hgoes : Goes s a o
      · rw [coalesceLoop_go hgoes] at h
        obtain ⟨⟨s', found⟩, hrem, hloop⟩ := Option.bind_eq_some_iff.mp h
        rw [if_pos hgoes, ih hloop]
        simp only [hrem]
        obtain ⟨m, heads, rfl⟩ := removeLoop_writes hrem
        simp [merge]
      · rw [coalesceLoop_stop hgoes] at h
        obtain rfl := Option.some.inj h
        rw [if_neg hgoes]
        rfl

/-- One walk of the loop. -/
theorem Inv.unlinks (h : Inv F L [(a, MIN_ORDER + i)] s) (hi : i + 1 < NUM_ORDERS)
    (hgoes : Goes s a (MIN_ORDER + i)) {fuel : Nat} (hfuel : (freeBlocks F).length < fuel) :
    Walk.Unlinks fuel ⟨s, a ^^^ 2 ^ (MIN_ORDER + i), i⟩ := by
  have hidx : i < NUM_ORDERS := Nat.lt_of_succ_lt hi
  obtain ⟨-, hmem⟩ := h.buddy_mem hi hgoes
  refine ⟨(h.lists.chain i hidx).onChain_iff.mpr hmem, ?_⟩
  rcases h.remove hidx hmem fuel with ⟨-, hle⟩ | ⟨s', hsome, -, h'⟩
  · have := length_le_freeBlocks (F := F) hidx
    omega
  · refine ⟨s', hsome, fun j hj b => ?_⟩
    unfold OnList
    rw [(h.lists.chain j hj).onChain_iff, (h'.lists.chain j hj).onChain_iff]
    by_cases hij : j = i
    · subst hij
      rw [Function.update_self, (h.nodup hj).mem_erase_iff]
      tauto
    · rw [Function.update_of_ne hij]
      tauto

/-- With fuel for the free blocks, every walk of the loop finds its block. -/
theorem Inv.walks {fuel : Nat} : ∀ {n i a : Nat} {F : Nat → List Nat} {s : BuddyAllocator},
    Inv F L [(a, MIN_ORDER + i)] s → i + n = MAX_ORDER - MIN_ORDER →
    (freeBlocks F).length < fuel → ∀ walk ∈ Buddy.walks fuel n s a (MIN_ORDER + i),
      walk.Unlinks fuel := by
  intro n
  induction n with
  | zero => intro i a F s _ _ _ walk hwalk; cases hwalk
  | succ n ih =>
      intro i a F s h hin hfuel walk hwalk
      have hi : i + 1 < NUM_ORDERS := by
        unfold NUM_ORDERS
        omega
      unfold Buddy.walks at hwalk
      by_cases hgoes : Goes s a (MIN_ORDER + i)
      · rw [if_pos hgoes, Nat.add_sub_cancel_left] at hwalk
        rcases h.turn hi hgoes fuel with ⟨-, hle⟩ | ⟨s', F', hsome, h', hlen⟩
        · omega
        · simp only [hsome] at hwalk
          rcases List.mem_cons.mp hwalk with rfl | hwalk
          · exact h.unlinks hi hgoes hfuel
          · exact ih (i := i + 1) h' (by omega) (by omega) walk hwalk
      · rw [if_neg hgoes] at hwalk
        exact absurd hwalk List.not_mem_nil

/-- What is true of a deallocation: it returns, and all its walks found what they were for. -/
structure Ends (fuel : Nat) (s : BuddyAllocator) (ptr size : Nat) : Prop where
  returns : ∃ s', dealloc fuel s ptr size = some s' ∧
    s'.merges.map (fun e => (e.1, e.2.1 - MIN_ORDER)) =
      ((deallocWalks fuel s ptr size).map fun c => (c.block, c.orderIdx)).reverse ++
        s.merges.map fun e => (e.1, e.2.1 - MIN_ORDER)
  walks : ∀ walk ∈ deallocWalks fuel s ptr size, walk.Unlinks fuel

theorem Inv.ends {L' : List Block} {ptr size fuel : Nat} (h : Inv F L [] s)
    (hL : L.Perm ((ptr - HEADER_SIZE, trailingZeros size) :: L'))
    (hfuel : (freeBlocks F).length < fuel) : Ends fuel s ptr size := by
  obtain ⟨i, hi, hhigh, hhand⟩ := h.released hL
  refine ⟨?_, ?_⟩
  · unfold Buddy.dealloc coalesce deallocWalks
    simp only [hi]
    rcases Inv.coalesceLoop fuel (n := MAX_ORDER - (MIN_ORDER + i)) hhand (by omega)
      with ⟨-, hle⟩ | ⟨s', a', j, F', hsome, -, -, -⟩
    · omega
    · rw [hsome]
      exact ⟨_, rfl, walks_merges hsome⟩
  · unfold deallocWalks
    simp only [hi]
    exact Inv.walks hhand (by omega) hfuel

/--
**Allocations are refused when they must be, and deallocations end.**  In every
state of every run with size-aligned regions, `alloc` returns for every size within
two calls, maps at most one region, and fails exactly when the size is outside the
orders or no block is large enough and the kernel has no region, leaving everything
as it was.  A `dealloc` of a live allocation returns, and each of its walks finds
and unlinks the buddy it is for.
-/
theorem buddy_decides (mem : Mem) (w : World) (h : (machine mem).ReachesUnder SizeAligned w) :
    (∀ size < 2 ^ 64, ∀ answers, ∃ s' r,
      (∀ fuel, alloc (fuel + 2) w.buddy size answers = some (s', r)) ∧
        Decides w.buddy size answers s' r) ∧
    ∀ a ∈ w.live, ∃ n, ∀ fuel, n < fuel → Ends fuel w.buddy a.ptr a.size := by
  obtain ⟨F, hF⟩ := good_of_reachesUnder (reachesUnder_sizeAligned h).1
  refine ⟨fun size _ answers => ?_, fun a ha => ?_⟩
  · obtain ⟨s', r, hresult⟩ := alloc_total w.buddy size answers
    exact ⟨s', r, hresult.alloc_eq, hresult.decides⟩
  · exact ⟨(freeBlocks F).length, fun fuel hfuel => hF.ends (liveBlocks_erase ha) hfuel⟩

/-- With a block of the smallest order live in an aligned region, a request for the largest is
refused when the kernel has no region, and freeing the block takes four walks. -/
theorem buddy_decides_one : ∃ w, (machine fun _ => 0).ReachesUnder SizeAligned w ∧
    w.live = [⟨2 ^ 18 + 16, 2 ^ 14⟩] ∧
    (∃ s' r, alloc 2 w.buddy (2 ^ 18) [] = some (s', r) ∧ Decides w.buddy (2 ^ 18) [] s' r) ∧
    (deallocWalks 5 w.buddy (2 ^ 18 + 16) (2 ^ 14)).length = 4 ∧
    ∃ n, ∀ fuel, n < fuel → Ends fuel w.buddy (2 ^ 18 + 16) (2 ^ 14) := by
  have hrun : (step (machine fun _ => 0).init (.alloc (2 ^ 14) [some (2 ^ 18)] 2)).map
      (fun w => (w.live, (deallocWalks 5 w.buddy (2 ^ 18 + 16) (2 ^ 14)).length))
        = some ([⟨2 ^ 18 + 16, 2 ^ 14⟩], 4) := by decide +kernel
  obtain ⟨w, hw, hvals⟩ := Option.map_eq_some_iff.mp hrun
  obtain ⟨hlive, hwalks⟩ := Prod.mk.inj hvals
  have haligned : SizeAligned (machine fun _ => 0).init (.alloc (2 ^ 14) [some (2 ^ 18)] 2) := by
    intro p hp
    obtain rfl : p = 2 ^ 18 := by simpa using hp
    decide
  have hreach : (machine fun _ => 0).ReachesUnder SizeAligned w := .step .init haligned hw
  obtain ⟨halloc, hdealloc⟩ := buddy_decides (fun _ => 0) w hreach
  obtain ⟨s', r, hs', hdecides⟩ := halloc (2 ^ 18) (by decide) []
  exact ⟨w, hreach, hlive, ⟨s', r, hs' 0, hdecides⟩, hwalks,
    hdealloc ⟨2 ^ 18 + 16, 2 ^ 14⟩ (by rw [hlive]; simp)⟩

end Aethalloc.Buddy
