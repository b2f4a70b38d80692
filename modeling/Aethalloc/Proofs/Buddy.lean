/-
Runs of the buddy allocator.

A run is any sequence of allocations, matching deallocations and writes of the
client inside its own blocks.  Three things are proved about runs.

* As long as the kernel places regions so that a bit of an absolute address and
  the same bit of an offset agree where `coalesce` looks (`WellPlaced`), every
  merge is with a block on the free list, and free and live blocks never overlap.
  Nothing in the allocator asks the kernel for that: `PageAllocator` promises page
  alignment only, and there a merge can swallow live memory.
* When regions are aligned to their size, the whole representation invariant holds:
  the lists, the headers, the partition of the regions, and no two free buddies.
* The bytes asked for are never all usable, in any run: the header takes sixteen
  bytes of a block that is no larger than the request.
-/
import Aethalloc.Proofs.Buddy.Operations

namespace Aethalloc.Buddy

open Lib

/-! ### What a step does -/

/-- An allocation that fails or serves a block, the return of one, or a write of the client. -/
inductive Stepped (w : World) : Label → World → Prop
  | refused {size : Nat} {answers : List (Option Nat)} {fuel : Nat} {s' : BuddyAllocator}
      (hsize : size < 2 ^ 64) (hal : AllocResult w.buddy size answers s' none) :
      Stepped w (.alloc size answers fuel) { w with buddy := s' }
  | served {size p : Nat} {answers : List (Option Nat)} {fuel : Nat} {s' : BuddyAllocator}
      (hsize : size < 2 ^ 64) (hal : AllocResult w.buddy size answers s' (some p)) :
      Stepped w (.alloc size answers fuel) { buddy := s', live := ⟨p, size⟩ :: w.live }
  | freed {ptr size fuel : Nat} {s' : BuddyAllocator} (ha : ⟨ptr, size⟩ ∈ w.live)
      (hde : dealloc fuel w.buddy ptr size = some s') :
      Stepped w (.dealloc ptr size fuel) { buddy := s', live := w.live.erase ⟨ptr, size⟩ }
  | written {addr : Nat} {byte : UInt8} (hw : Writable w addr) :
      Stepped w (.write addr byte)
        { w with buddy := { w.buddy with mem := Function.update w.buddy.mem addr byte } }

theorem step_cases {w w' : World} {l : Label} (h : step w l = some w') : Stepped w l w' := by
  cases l with
  | alloc size answers fuel =>
      obtain ⟨hsize, h⟩ := Option.ite_none_right_eq_some.mp h
      cases hal : alloc fuel w.buddy size answers with
      | none => rw [hal] at h; cases h
      | some r =>
          obtain ⟨s', p⟩ := r
          rw [hal] at h
          cases p with
          | none =>
              obtain rfl := Option.some.inj h
              exact .refused hsize (alloc_result hal)
          | some p =>
              obtain rfl := Option.some.inj h
              exact .served hsize (alloc_result hal)
  | dealloc ptr size fuel =>
      obtain ⟨ha, h⟩ := Option.ite_none_right_eq_some.mp h
      cases hde : dealloc fuel w.buddy ptr size with
      | none => rw [hde] at h; cases h
      | some s' =>
          rw [hde] at h
          obtain rfl := Option.some.inj h
          exact .freed ha hde
  | write addr byte =>
      obtain ⟨hw, h⟩ := Option.ite_none_right_eq_some.mp h
      obtain rfl := Option.some.inj h
      exact .written hw

/-! ### One step keeps the invariant -/

/-- The blocks the client holds. -/
def liveBlocks (w : World) : List Block := w.live.map fun a => (a.block, a.order)

/-- The kernel's answers place regions where buddy addresses come out right. -/
def WellPlaced (w : World) : Label → Prop
  | .alloc _ answers _ => ∀ p, some p ∈ answers → Placeable w.buddy.regions p
  | .dealloc _ _ _ => True
  | .write _ _ => True

/-- The invariant between two steps: nothing is in hand. -/
def Good (w : World) : Prop := ∃ F, Inv F (liveBlocks w) [] w.buddy

theorem good_init (mem : Mem) : Good (machine mem).init := by
  have hfree : freeBlocks (fun _ => []) = [] := by decide
  have hall : allBlocks (fun _ => []) [] [] = [] := hfree
  refine ⟨fun _ => [], ?_⟩
  show Inv (fun _ => []) [] [] (new mem)
  exact {
    tiled := by rw [hall]; exact Tiled.nil
    minOrder := by rw [hall]; simp
    regions := ⟨by simp [new], by simp [new], by simp [new]⟩
    lists := ⟨fun i _ => rfl, by simp⟩
    hand := by simp
    live := by simp
    maximal := by
      intro i _ a ha
      simp at ha
    merged := by simp [new] }

/-- An allocation's pointer stands a header past its block. -/
theorem Inv.live_ptr {F : Nat → List Nat} {w : World} {a : Allocation}
    (h : Inv F (liveBlocks w) [] w.buddy) (ha : a ∈ w.live) : a.ptr = a.block + HEADER_SIZE := by
  have hmem : (a.block, a.order) ∈ allBlocks F (liveBlocks w) [] :=
    List.mem_append_right [] (List.mem_append_left _ (List.mem_map.mpr ⟨a, ha, rfl⟩))
  have hword := (h.word hmem).1
  unfold Allocation.block at *
  simp only at hword
  omega

/-- A byte the client writes is in no header. -/
theorem Inv.write {F : Nat → List Nat} {w : World} {addr : Nat} {byte : UInt8}
    (h : Inv F (liveBlocks w) [] w.buddy) (hw : Writable w addr) :
    Inv F (liveBlocks w) [] { w.buddy with mem := Function.update w.buddy.mem addr byte } := by
  obtain ⟨a, ha, hlow, hhigh⟩ := hw
  rw [h.live_ptr ha] at hlow
  have hmem : (a.block, a.order) ∈ liveBlocks w ++ freeBlocks F :=
    List.mem_append_left _ (List.mem_map.mpr ⟨a, ha, rfl⟩)
  refine h.hands h.tiled (by simp) (fun b hb x h1 h2 => ?_) (by simp)
  refine Function.update_of_ne (fun hx => ?_) _ _
  subst hx
  by_cases hba : b = (a.block, a.order)
  · subst hba
    simp only at h2
    omega
  · have hap : b.Apart (a.block, a.order) := h.tiled.apart hb hmem hba
    have hlen : 2 ^ MIN_ORDER ≤ 2 ^ b.2 := Nat.pow_le_pow_right (by decide) (h.minOrder b hb)
    unfold MIN_ORDER at hlen
    unfold HEADER_SIZE at h2 hlow
    exact hap.not_covers ⟨h1, by omega⟩ ⟨by simp only; omega, hhigh⟩

theorem liveBlocks_erase {w : World} {a : Allocation} (ha : a ∈ w.live) :
    (liveBlocks w).Perm ((a.block, a.order) :: (w.live.erase a).map fun a => (a.block, a.order)) :=
  (List.perm_cons_erase ha).map _

theorem Good.step {w w' : World} {l : Label} (h : Good w) (hl : WellPlaced w l)
    (hstep : step w l = some w') : Good w' := by
  obtain ⟨F, hF⟩ := h
  cases step_cases hstep with
  | refused _ hal => exact hF.served hl hal
  | @served size p answers fuel s' _ hal =>
      obtain ⟨block, F', rfl, hF'⟩ := hF.served hl hal
      refine ⟨F', ?_⟩
      show Inv F' ((block + HEADER_SIZE - HEADER_SIZE, trailingZeros size) :: liveBlocks w) [] s'
      rw [Nat.add_sub_cancel]
      exact hF'
  | @freed ptr size fuel s' ha hde =>
      rcases hF.dealloc fuel (liveBlocks_erase ha) with ⟨hnone, -⟩ | ⟨s₁, F', hsome, hF'⟩
      · rw [hnone] at hde
        cases hde
      · rw [hsome] at hde
        obtain rfl := Option.some.inj hde
        exact ⟨F', hF'⟩
  | written hw => exact ⟨F, hF.write hw⟩

theorem good_of_reachesUnder {mem : Mem} {w : World}
    (h : (machine mem).ReachesUnder WellPlaced w) : Good w :=
  h.invariant (good_init mem) fun _ _ _ => Good.step

/-! ### Every operation returns -/

/-- `alloc` returns, two calls deep, whatever the state. -/
theorem alloc_returns (w : World) {size : Nat} (fuel : Nat) (answers : List (Option Nat))
    (hsize : size < 2 ^ 64) : ∃ w', step w (.alloc size answers (fuel + 2)) = some w' := by
  obtain ⟨s', r, hresult⟩ := alloc_total w.buddy size answers
  unfold step
  simp only
  rw [if_pos hsize, hresult.alloc_eq fuel]
  cases r with
  | none => exact ⟨_, rfl⟩
  | some p => exact ⟨_, rfl⟩

/-- In every such run a `dealloc` of a live allocation returns, given fuel for the walks. -/
theorem dealloc_returns {mem : Mem} {w : World} {a : Allocation}
    (h : (machine mem).ReachesUnder WellPlaced w) (ha : a ∈ w.live) :
    ∃ n, ∀ fuel, n < fuel → ∃ w', step w (.dealloc a.ptr a.size fuel) = some w' := by
  obtain ⟨F, hF⟩ := good_of_reachesUnder h
  refine ⟨(freeBlocks F).length, fun fuel hfuel => ?_⟩
  unfold step
  simp only
  rw [if_pos ha]
  rcases hF.dealloc fuel (liveBlocks_erase ha) with ⟨-, hle⟩ | ⟨s', F', hsome, -⟩
  · omega
  · rw [hsome]
    exact ⟨_, rfl⟩

/-! ### Merges and live memory -/

/-- The block is on the free list of its order. -/
def OnList (s : BuddyAllocator) (i b : Nat) : Prop := OnChain (next s.mem) (s.freeLists i) b

/-- Every merge so far was with a block on the free list of its order at that moment. -/
def MergesFree (w : World) : Prop := ∀ e ∈ w.buddy.merges, e.2.2 = true

/-- No address is both in a live block and in a block on a free list. -/
def LiveApart (w : World) : Prop :=
  ∀ a ∈ w.live, ∀ i < NUM_ORDERS, ∀ b, OnList w.buddy i b →
    ∀ x, ¬ (Block.Covers (a.block, a.order) x ∧ Block.Covers (b, MIN_ORDER + i) x)

theorem Inv.liveApart {F : Nat → List Nat} {w : World} (h : Inv F (liveBlocks w) [] w.buddy) :
    LiveApart w := by
  intro a ha i hi b hb x hx
  have hbF : b ∈ F i := (h.lists.chain i hi).onChain_iff.mp hb
  have hpw := pairwise_apart h.tiled.cover_le_one
  obtain ⟨-, -, hcross⟩ := List.pairwise_append.mp (show (liveBlocks w ++ freeBlocks F).Pairwise _
    from hpw)
  have hap := hcross (a.block, a.order) (List.mem_map.mpr ⟨a, ha, rfl⟩) (b, MIN_ORDER + i)
    (mem_freeBlocks.mpr ⟨i, hi, rfl, hbF⟩)
  exact hap.not_covers hx.1 hx.2

/--
**Coalescing absorbs no live memory when regions are well placed.**  In every run
whose regions the kernel places so, each merge was with a block on the free list,
and no address is in a live and in a free block.
-/
theorem coalesce_merges_free (mem : Mem) (w : World)
    (h : (machine mem).ReachesUnder WellPlaced w) : MergesFree w ∧ LiveApart w := by
  obtain ⟨F, hF⟩ := good_of_reachesUnder h
  exact ⟨hF.merged, hF.liveApart⟩

/-- A run that is well placed, with four merges in it. -/
theorem coalesce_merges_free_round : ∃ w, (machine fun _ => 0).ReachesUnder WellPlaced w ∧
    w.buddy.merges.length = 4 ∧ MergesFree w ∧ LiveApart w := by
  have hrun : ((step (machine fun _ => 0).init (.alloc (2 ^ 14) [some (2 ^ 18)] 2)).bind fun w =>
      (step w (.dealloc (2 ^ 18 + 16) (2 ^ 14) 5)).map fun w' => w'.buddy.merges.length)
        = some 4 := by decide +kernel
  obtain ⟨w₁, h₁, hrest⟩ := Option.bind_eq_some_iff.mp hrun
  obtain ⟨w₂, h₂, hlen⟩ := Option.map_eq_some_iff.mp hrest
  have hplaced : WellPlaced (machine fun _ => 0).init (.alloc (2 ^ 14) [some (2 ^ 18)] 2) := by
    intro p hp
    obtain rfl : p = 2 ^ 18 := by simpa using hp
    exact ⟨by decide, by simp [machine, new]⟩
  have hfirst : (machine fun _ => 0).ReachesUnder WellPlaced w₁ := .step .init hplaced h₁
  have hreach : (machine fun _ => 0).ReachesUnder WellPlaced w₂ :=
    .step (l := .dealloc (2 ^ 18 + 16) (2 ^ 14) 5) hfirst trivial h₂
  exact ⟨w₂, hreach, hlen, coalesce_merges_free (fun _ => 0) w₂ hreach⟩

/-- Two live blocks, and the bytes of a free header written into the second, in a region whose
address is aligned to 2^14 only. -/
def absorbingRun : List Label :=
  let base := 2 ^ 18 + 2 ^ 14
  [.alloc (2 ^ 15) [some base] 2, .alloc (2 ^ 15) [] 2, .alloc (2 ^ 14) [] 2,
    .write (base + 3 * 2 ^ 14) 14, .write (base + 3 * 2 ^ 14 + 1) 1,
    .dealloc (base + 4 * 2 ^ 14 + 16) (2 ^ 14) 5]

/--
With a page-aligned region the last `dealloc` of `absorbingRun` merges with the
middle of a live block: the block it puts on a free list overlaps that block.
-/
theorem coalesce_absorbs_live : ∃ w,
    (machine fun _ => 0).exec (machine fun _ => 0).init absorbingRun = some w ∧
      ¬ MergesFree w ∧ ¬ LiveApart w := by
  have hrun : ((machine fun _ => 0).exec (machine fun _ => 0).init absorbingRun).map (fun w =>
      (w.buddy.merges, w.buddy.freeLists 1, w.live)) = some ([(327680, 14, false)], some 327680,
        [⟨278528 + 2 ^ 15 + 16, 2 ^ 15⟩, ⟨278528 + 16, 2 ^ 15⟩]) := by decide +kernel
  obtain ⟨w, hw, hvals⟩ := Option.map_eq_some_iff.mp hrun
  obtain ⟨hmerges, hlist, hlive⟩ : _ ∧ _ ∧ _ := by simpa using hvals
  refine ⟨w, hw, fun hc => ?_, fun hc => ?_⟩
  · have := hc (327680, 14, false) (by rw [hmerges]; simp)
    exact absurd this (by decide)
  · have hon : OnList w.buddy 1 327680 := by
      unfold OnList
      rw [hlist]
      exact OnChain.here _
    refine hc ⟨278528 + 2 ^ 15 + 16, 2 ^ 15⟩ (by rw [hlive]; simp) 1 (by decide) 327680 hon 327680
      ?_
    unfold Block.Covers
    decide

/-! ### The representation invariant -/

/-- Every region the kernel answers with is aligned to its size. -/
def SizeAligned (_ : World) : Label → Prop
  | .alloc _ answers _ => ∀ p, some p ∈ answers → p % 2 ^ MAX_ORDER = 0
  | .dealloc _ _ _ => True
  | .write _ _ => True

/-- The free lists `F` and the live blocks describe the allocator's state. -/
structure Represents (F : Nat → List Nat) (w : World) : Prop where
  /-- Each list ends, repeats no block, and its blocks' headers say free and of that order. -/
  list : ∀ i < NUM_ORDERS, Chain (next w.buddy.mem) (w.buddy.freeLists i) (F i) ∧ (F i).Nodup ∧
    ∀ a ∈ F i, isFree w.buddy.mem a = true ∧ order w.buddy.mem a = MIN_ORDER + i
  live : ∀ a ∈ w.live, isFree w.buddy.mem a.block = false
  /-- Inside the regions every address is in exactly one block, outside in none. -/
  partition : ∀ x, cover (liveBlocks w ++ freeBlocks F) x
    = if ∃ r ∈ w.buddy.regions, InRegion r x then 1 else 0
  aligned : ∀ b ∈ liveBlocks w ++ freeBlocks F, 2 ^ b.2 ∣ b.1
  maximal : Maximal F w.buddy

theorem Tiled.cover_eq {R : List Nat} {B : List Block} (h : Tiled MAX_ORDER R B) (x : Nat) :
    cover B x = if ∃ r ∈ R, InRegion r x then 1 else 0 := by
  have hle := h.cover_le_one x
  split
  · rename_i hin
    obtain ⟨r, hr, hx⟩ := hin
    obtain ⟨b, hb, hbx⟩ := h.exists_covers hr hx
    have := one_le_cover hb hbx
    omega
  · rename_i hout
    by_contra hne
    rw [h.tiles x] at hne
    obtain ⟨b, hb, hbx⟩ := exists_of_cover_pos (Nat.pos_of_ne_zero hne)
    obtain ⟨r, hr, rfl⟩ := List.mem_map.mp hb
    exact hout ⟨r, hr, hbx⟩

/-! ### Where regions come from -/

/-- Nothing was mapped. -/
structure SameRegions (s s' : BuddyAllocator) : Prop where
  regions : s'.regions = s.regions
  base : s'.base = s.base
  regionSize : s'.regionSize = s.regionSize

theorem SameRegions.refl (s : BuddyAllocator) : SameRegions s s := ⟨rfl, rfl, rfl⟩

theorem SameRegions.trans {s s' s'' : BuddyAllocator} (h : SameRegions s s')
    (h' : SameRegions s' s'') : SameRegions s s'' :=
  ⟨h'.regions.trans h.regions, h'.base.trans h.base, h'.regionSize.trans h.regionSize⟩

theorem split_regions {a target : Nat} : ∀ {n : Nat} {s : BuddyAllocator},
    SameRegions s (split s a target n) := by
  intro n
  induction n with
  | zero => intro s; exact SameRegions.refl s
  | succ n ih =>
      intro s
      have hone : SameRegions s (splitOnce s a (target + n + 1)) := ⟨rfl, rfl, rfl⟩
      exact hone.trans ih

theorem takeBlock_regions {s : BuddyAllocator} {block idx target : Nat} :
    SameRegions s (takeBlock s block idx target).1 := by
  have hlist : SameRegions s (setList s idx (next s.mem block)) := ⟨rfl, rfl, rfl⟩
  have hsplit : SameRegions s (split (setList s idx (next s.mem block)) block target
      (idx + MIN_ORDER - target)) := hlist.trans split_regions
  exact ⟨hsplit.regions, hsplit.base, hsplit.regionSize⟩

/--
Of the kernel's answers `alloc` uses one or none; what it uses becomes a region, and
the others do not matter.
-/
theorem AllocResult.used {size : Nat} {s s' : BuddyAllocator} {p : Option Nat}
    {answers : List (Option Nat)} (h : AllocResult s size answers s' p) :
    (SameRegions s s' ∧ AllocResult s size [] s' p) ∨
      ∃ r, some r ∈ answers ∧ s'.regions = r :: s.regions ∧ s'.base = some r ∧
        s'.regionSize = 2 ^ MAX_ORDER ∧ AllocResult s size [some r] s' p := by
  cases h with
  | outside hrange => exact .inl ⟨SameRegions.refl s, .outside hrange⟩
  | found hk hkj hj hfirst hblock =>
      exact .inl ⟨takeBlock_regions, .found hk hkj hj hfirst hblock⟩
  | refused hk hkn hempty hmap => exact .inl ⟨SameRegions.refl s, .refused hk hkn hempty rfl⟩
  | @mapped k ptr hk hkn hempty hans hfresh =>
      have hsame : SameRegions (withRegion s ptr)
          (takeBlock (withRegion s ptr) ptr (MAX_ORDER - MIN_ORDER) (MIN_ORDER + k)).1 :=
        takeBlock_regions
      exact .inr ⟨ptr, mem_of_head_join hans, hsame.regions, hsame.base, hsame.regionSize,
        .mapped hk hkn hempty rfl hfresh⟩

/-- The walk writes the list's head or a link, and nothing else. -/
theorem removeLoop_writes {b i : Nat} {s s' : BuddyAllocator} {found : Bool} :
    ∀ {fuel : Nat} {prev cur : Option Nat}, removeLoop s b i fuel prev cur = some (s', found) →
    ∃ m heads, s' = { s with mem := m, freeLists := heads } := by
  intro fuel
  induction fuel with
  | zero => intro prev cur h; cases h
  | succ fuel ih =>
      intro prev cur h
      cases cur with
      | none =>
          obtain ⟨rfl, -⟩ := Prod.mk.inj (Option.some.inj h)
          exact ⟨s.mem, s.freeLists, rfl⟩
      | some c =>
          simp only [removeLoop] at h
          split at h
          · cases prev with
            | none =>
                obtain ⟨rfl, -⟩ := Prod.mk.inj (Option.some.inj h)
                exact ⟨_, _, rfl⟩
            | some p =>
                obtain ⟨rfl, -⟩ := Prod.mk.inj (Option.some.inj h)
                exact ⟨_, _, rfl⟩
          · exact ih h

theorem coalesceLoop_regions {fuel : Nat} : ∀ {n a o : Nat} {s : BuddyAllocator}
    {r : BuddyAllocator × Nat × Nat}, coalesceLoop fuel n s a o = some r →
    SameRegions s r.1 := by
  intro n
  induction n with
  | zero =>
      intro a o s r h
      obtain rfl := Option.some.inj h
      exact SameRegions.refl s
  | succ n ih =>
      intro a o s r h
      by_cases hgoes : Goes s a o
      · rw [coalesceLoop_go hgoes] at h
        obtain ⟨⟨s', found⟩, hrem, hloop⟩ := Option.bind_eq_some_iff.mp h
        obtain ⟨m, heads, rfl⟩ := removeLoop_writes hrem
        have hmerged : SameRegions s
            (merge { s with mem := m, freeLists := heads } a o found) := ⟨rfl, rfl, rfl⟩
        exact hmerged.trans (ih hloop)
      · rw [coalesceLoop_stop hgoes] at h
        obtain rfl := Option.some.inj h
        exact SameRegions.refl s

theorem dealloc_regions {fuel ptr size : Nat} {s s' : BuddyAllocator}
    (h : dealloc fuel s ptr size = some s') : SameRegions s s' := by
  simp only [dealloc, coalesce] at h
  split at h
  · cases h
  · rename_i hloop
    obtain rfl := Option.some.inj h
    have hloop' := coalesceLoop_regions hloop
    exact ⟨hloop'.regions, hloop'.base, hloop'.regionSize⟩

/-- The kernel's answers in the label are among the regions. -/
def Label.Uses (R : List Nat) : Label → Prop
  | .alloc _ answers _ => ∀ p, some p ∈ answers → p ∈ R
  | .dealloc _ _ _ => True
  | .write _ _ => True

/-- What a step does to the regions. -/
structure Grows (w w' : World) (l : Label) : Prop where
  keeps : w.buddy.regions ⊆ w'.buddy.regions
  /-- A region that was not there before is an answer of the kernel. -/
  answered : ∀ q ∈ w'.buddy.regions, q ∈ w.buddy.regions ∨
    ∃ size answers fuel, l = .alloc size answers fuel ∧ some q ∈ answers
  base : (w.buddy.regions ≠ [] → w.buddy.base ≠ none) →
    w'.buddy.regions ≠ [] → w'.buddy.base ≠ none
  /-- The step could be taken with no other answers than the regions there are. -/
  used : ∃ l', step w l' = some w' ∧ l'.Uses w'.buddy.regions

theorem Grows.of_same {w w' : World} {l l' : Label} (h : SameRegions w.buddy w'.buddy)
    (hstep : step w l' = some w') (hl : l'.Uses w'.buddy.regions) : Grows w w' l where
  keeps q hq := by rw [h.regions]; exact hq
  answered q hq := by rw [h.regions] at hq; exact Or.inl hq
  base hb hne := by
    rw [h.regions] at hne
    rw [h.base]
    exact hb hne
  used := ⟨l', hstep, hl⟩

/-- An allocation's part of `step_grows`, for what the step makes of the allocator. -/
theorem grows_of_alloc {w w' : World} {size fuel : Nat} {answers : List (Option Nat)}
    {p : Option Nat} (hal : AllocResult w.buddy size answers w'.buddy p)
    (hstep : ∀ answers', AllocResult w.buddy size answers' w'.buddy p →
      step w (.alloc size answers' 2) = some w') : Grows w w' (.alloc size answers fuel) := by
  rcases hal.used with ⟨hsame, hnone⟩ | ⟨r, hr, hregions, hbase, -, hone⟩
  · exact Grows.of_same hsame (hstep [] hnone) fun p hp => absurd hp List.not_mem_nil
  · have hmem : ∀ q, q ∈ w'.buddy.regions ↔ q = r ∨ q ∈ w.buddy.regions := by
      intro q
      rw [hregions, List.mem_cons]
    refine ⟨fun q hq => (hmem q).mpr (Or.inr hq), fun q hq => ?_, fun _ _ => by simp [hbase],
      ⟨_, hstep [some r] hone, fun q hq => ?_⟩⟩
    · rcases (hmem q).mp hq with rfl | hq
      · exact Or.inr ⟨size, answers, fuel, rfl, hr⟩
      · exact Or.inl hq
    · exact (hmem q).mpr (Or.inl (by simpa using hq))

theorem step_grows {w w' : World} {l : Label} (h : step w l = some w') : Grows w w' l := by
  cases step_cases h with
  | refused hsize hal =>
      refine grows_of_alloc hal fun answers' hal' => ?_
      simp only [step, if_pos hsize, hal'.alloc_eq 0]
  | served hsize hal =>
      refine grows_of_alloc hal fun answers' hal' => ?_
      simp only [step, if_pos hsize, hal'.alloc_eq 0]
  | freed _ hde => exact Grows.of_same (dealloc_regions hde) h trivial
  | written _ => exact Grows.of_same ⟨rfl, rfl, rfl⟩ h trivial

/-- The regions of a run with aligned answers are aligned, so the run is well placed too. -/
theorem reachesUnder_sizeAligned {mem : Mem} {w : World}
    (h : (machine mem).ReachesUnder SizeAligned w) :
    (machine mem).ReachesUnder WellPlaced w ∧ ∀ r ∈ w.buddy.regions, r % 2 ^ MAX_ORDER = 0 := by
  induction h with
  | init => exact ⟨.init, by simp [machine, new]⟩
  | @step w w' l h hg hstep ih =>
      obtain ⟨hreach, halign⟩ := ih
      refine ⟨hreach.step ?_ hstep, fun r hr => ?_⟩
      · cases l with
        | alloc size answers fuel =>
            intro p hp
            have hp0 : p % 2 ^ MAX_ORDER = 0 := hg p hp
            unfold MAX_ORDER at hp0 halign
            refine ⟨by omega, fun q hq hbit => ?_⟩
            have hq0 := halign q hq
            omega
        | dealloc ptr size fuel => trivial
        | write addr byte => trivial
      · rcases (step_grows hstep).answered r hr with hin | ⟨size, answers, fuel, rfl, hin⟩
        · exact halign r hin
        · exact hg r hin

/-! ### The representation invariant, and the size of a block -/

/--
**The representation invariant.**  In every run with size-aligned regions the free
lists and the live blocks describe the state: lists without repetition and headers
that agree, a partition of the mapped regions into aligned blocks, and no two free
buddies in the base region.
-/
theorem buddy_represents (mem : Mem) (w : World) (h : (machine mem).ReachesUnder SizeAligned w) :
    ∃ F, Represents F w := by
  obtain ⟨hwell, halign⟩ := reachesUnder_sizeAligned h
  obtain ⟨F, hF⟩ := good_of_reachesUnder hwell
  refine ⟨F, {
    list := fun i hi => ⟨hF.lists.chain i hi, hF.nodup hi, fun a ha =>
      (hF.lists.header i hi a ha).symm⟩
    live := fun a ha => hF.live _ (List.mem_map.mpr ⟨a, ha, rfl⟩)
    partition := fun x => Tiled.cover_eq hF.tiled x
    aligned := fun b hb => ?_
    maximal := hF.maximal }⟩
  obtain ⟨r, hr, hle, hrb, -, hdvd⟩ := hF.tiled.placed b hb
  have hrdvd : 2 ^ b.2 ∣ r :=
    (Nat.pow_dvd_pow 2 hle).trans (Nat.dvd_of_mod_eq_zero (halign r hr))
  rw [← Nat.sub_add_cancel hrb]
  exact Nat.dvd_add hdvd hrdvd

/-- A run with one block live in an aligned region. -/
theorem buddy_represents_one : ∃ w, (machine fun _ => 0).ReachesUnder SizeAligned w ∧
    w.live = [⟨2 ^ 18 + 16, 2 ^ 14⟩] ∧ ∃ F, Represents F w := by
  have hrun : (step (machine fun _ => 0).init (.alloc (2 ^ 14) [some (2 ^ 18)] 2)).map
      (fun w => w.live) = some [⟨2 ^ 18 + 16, 2 ^ 14⟩] := by decide +kernel
  obtain ⟨w, hw, hlive⟩ := Option.map_eq_some_iff.mp hrun
  have haligned : SizeAligned (machine fun _ => 0).init (.alloc (2 ^ 14) [some (2 ^ 18)] 2) := by
    intro p hp
    obtain rfl : p = 2 ^ 18 := by simpa using hp
    decide
  have hreach : (machine fun _ => 0).ReachesUnder SizeAligned w := .step .init haligned hw
  exact ⟨w, hreach, hlive, buddy_represents (fun _ => 0) w hreach⟩

/-! ### The bytes an allocation may use -/

/-- The ranges `[a, a + n)` and `[b, b + k)` share no address. -/
def Disjoint (a n b k : Nat) : Prop := a + n ≤ b ∨ b + k ≤ a

/-- All the bytes asked for are the client's: they lie in the block taken and in a region, apart
from what the other allocations were promised and from every other header. -/
structure Usable (w : World) (a : Allocation) : Prop where
  block : a.block ≤ a.ptr ∧ a.ptr + a.size ≤ a.block + 2 ^ a.order
  region : ∃ r ∈ w.buddy.regions, r ≤ a.ptr ∧ a.ptr + a.size ≤ r + 2 ^ MAX_ORDER
  others : ∀ a' ∈ w.live.erase a, Disjoint a.ptr a.size a'.ptr a'.size
  headers : ∀ a' ∈ w.live.erase a, Disjoint a.ptr a.size a'.block HEADER_SIZE
  free : ∀ i < NUM_ORDERS, ∀ b, OnList w.buddy i b → Disjoint a.ptr a.size b HEADER_SIZE

/-- What `alloc` returns stands a header past a block, and its order is one of the allocator's. -/
theorem AllocResult.header {size p : Nat} {s s' : BuddyAllocator} {answers : List (Option Nat)}
    (h : AllocResult s size answers s' (some p)) :
    trailingZeros size ≤ MAX_ORDER ∧ HEADER_SIZE ≤ p := by
  cases h with
  | found hk hkj hj _ _ =>
      unfold NUM_ORDERS MAX_ORDER MIN_ORDER at *
      exact ⟨by omega, Nat.le_add_left _ _⟩
  | mapped hk hkn _ _ _ =>
      unfold NUM_ORDERS MAX_ORDER MIN_ORDER at *
      exact ⟨by omega, Nat.le_add_left _ _⟩

/--
**No allocation is usable in full.**  Whatever the run and the size, the bytes
asked for reach past the end of the block that was taken for them: the block is no
larger than the size, and sixteen bytes of it are its header.
-/
theorem alloc_never_usable (mem : Mem) (w w' : World) (size fuel : Nat)
    (answers : List (Option Nat)) (a : Allocation) (_ : (machine mem).Reaches w)
    (hstep : step w (.alloc size answers fuel) = some w') (hlive : w'.live = a :: w.live) :
    ¬ Usable w' a := by
  intro husable
  generalize hl : Label.alloc size answers fuel = l at hstep
  cases step_cases hstep with
  | refused _ _ => exact absurd (congrArg List.length hlive) (by simp)
  | served _ hal =>
      obtain ⟨rfl, -⟩ := List.cons.inj hlive
      obtain ⟨hle, hp⟩ := hal.header
      have hsize := two_pow_trailingZeros_le (Nat.lt_of_le_of_lt hle (by decide))
      obtain ⟨-, hend⟩ := husable.block
      unfold Allocation.block Allocation.order HEADER_SIZE at hend
      unfold HEADER_SIZE at hp
      simp only at hend
      omega
  | freed _ _ => cases hl
  | written _ => cases hl

/-- The first allocation of 2^14 bytes in a fresh, aligned region. -/
theorem alloc_never_usable_first : ∃ w', step (machine fun _ => 0).init
    (.alloc (2 ^ 14) [some (2 ^ 18)] 2) = some w' ∧ w'.live = [⟨2 ^ 18 + 16, 2 ^ 14⟩] ∧
      ¬ Usable w' ⟨2 ^ 18 + 16, 2 ^ 14⟩ := by
  have hrun : (step (machine fun _ => 0).init (.alloc (2 ^ 14) [some (2 ^ 18)] 2)).map
      (fun w => w.live) = some [⟨2 ^ 18 + 16, 2 ^ 14⟩] := by decide +kernel
  obtain ⟨w, hw, hlive⟩ := Option.map_eq_some_iff.mp hrun
  exact ⟨w, hw, hlive, alloc_never_usable (fun _ => 0) _ w _ _ _ _ Machine.reaches_init hw hlive⟩

/-- Its last byte lies sixteen bytes past the end of its block, in the free block above. -/
theorem alloc_overruns_block : ∃ w, (machine fun _ => 0).exec (machine fun _ => 0).init
    [.alloc (2 ^ 14) [some (2 ^ 18)] 2] = some w ∧ ∃ a ∈ w.live, a.size = 2 ^ 14 ∧
      OnList w.buddy 0 (a.block + 2 ^ a.order) ∧ ¬ Usable w a := by
  have hrun : ((machine fun _ => 0).exec (machine fun _ => 0).init
      [.alloc (2 ^ 14) [some (2 ^ 18)] 2]).map (fun w => (w.live, w.buddy.freeLists 0))
        = some ([⟨2 ^ 18 + 16, 2 ^ 14⟩], some (2 ^ 18 + 2 ^ 14)) := by decide +kernel
  obtain ⟨w, hw, hvals⟩ := Option.map_eq_some_iff.mp hrun
  obtain ⟨hlive, hlist⟩ := Prod.mk.inj hvals
  have hend : Allocation.block ⟨2 ^ 18 + 16, 2 ^ 14⟩ + 2 ^ Allocation.order ⟨2 ^ 18 + 16, 2 ^ 14⟩
      = 2 ^ 18 + 2 ^ 14 := by decide +kernel
  refine ⟨w, hw, ⟨2 ^ 18 + 16, 2 ^ 14⟩, by rw [hlive]; simp, rfl, ?_, fun husable => ?_⟩
  · unfold OnList
    rw [hlist, hend]
    exact OnChain.here _
  · have hblock := husable.block.2
    rw [hend] at hblock
    exact absurd hblock (by decide)

end Aethalloc.Buddy
