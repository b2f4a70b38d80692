/-
What a buddy allocator is given and what it gives back.

`init` takes in a region and `drop` returns one.  Both remember less than there may
be to remember.  The allocator has one `base` and one `region_size`, which every
region mapped later overwrites, so `drop` returns the newest region and no other.
And `init` makes one free block of at most the largest order, so of a region larger
than that the rest is never handed out.
-/
import Aethalloc.Proofs.Buddy.Canonical

namespace Aethalloc.Buddy

open Lib

variable {F : Nat → List Nat} {L : List Block} {s s' : BuddyAllocator} {w : World} {mem : Mem}
  {r : Nat}

/-! ### Dropping the allocator -/

/-- Dropping unmaps every region that was mapped, once each and with its number of pages. -/
def ReturnsAll (s : BuddyAllocator) : Prop :=
  (drop s).Perm (s.regions.map (·, 2 ^ MAX_ORDER / PAGE_SIZE))

/-- What the allocator remembers is the region mapped last. -/
structure Newest (s : BuddyAllocator) : Prop where
  base : s.base = s.regions.head?
  size : s.regions ≠ [] → s.regionSize = 2 ^ MAX_ORDER

theorem Newest.same (h : Newest s) (hsame : SameRegions s s') : Newest s' := by
  refine ⟨?_, fun hne => ?_⟩
  · rw [hsame.base, hsame.regions]
    exact h.base
  · rw [hsame.regions] at hne
    rw [hsame.regionSize]
    exact h.size hne

/-- A region that is new is the one `init` notes down. -/
theorem Newest.alloc {size : Nat} {p : Option Nat} {answers : List (Option Nat)} (h : Newest s)
    (hal : AllocResult s size answers s' p) : Newest s' := by
  rcases hal.used with ⟨hsame, -⟩ | ⟨r, -, hregions, hbase, hsize, -⟩
  · exact h.same hsame
  · refine ⟨?_, fun _ => hsize⟩
    rw [hbase, hregions]
    rfl

theorem Newest.step {w w' : World} {l : Label} (h : Newest w.buddy) (hstep : step w l = some w') :
    Newest w'.buddy := by
  cases step_cases hstep with
  | refused _ hal => exact h.alloc hal
  | served _ hal => exact h.alloc hal
  | freed _ hde => exact h.same (dealloc_regions hde)
  | written _ => exact h.same ⟨rfl, rfl, rfl⟩

theorem reaches_newest (h : (machine mem).Reaches w) : Newest w.buddy :=
  h.invariant (P := fun w => Newest w.buddy) ⟨rfl, fun hne => absurd rfl hne⟩
    fun _ _ _ => Newest.step

/-- `drop` makes one call, for the newest region, or none. -/
theorem Newest.drop_eq (h : Newest s) :
    Buddy.drop s = (s.regions.take 1).map (·, 2 ^ MAX_ORDER / PAGE_SIZE) := by
  unfold Buddy.drop
  rw [h.base]
  cases hregions : s.regions with
  | nil => rfl
  | cons r rest =>
      have hsize := h.size (by rw [hregions]; simp)
      simp only [List.head?_cons, hsize]
      rfl

/--
**Dropping the allocator returns everything only if there was one region.**  In
every state of every run, `drop` unmaps what was mapped if and only if no more than
one region was.
-/
theorem drop_returns_iff (mem : Mem) (w : World) (h : (machine mem).Reaches w) :
    ReturnsAll w.buddy ↔ w.buddy.regions.length ≤ 1 := by
  have hdrop := (reaches_newest h).drop_eq
  unfold ReturnsAll
  rw [hdrop]
  constructor
  · intro hperm
    have hlen := hperm.length_eq
    rw [List.length_map, List.length_map, List.length_take] at hlen
    omega
  · intro hle
    rw [List.take_of_length_le hle]

/-- One block of the only region is live when the allocator is dropped. -/
theorem drop_returns_one : ∃ w, (machine fun _ => 0).exec (machine fun _ => 0).init
    [.alloc (2 ^ 14) [some (2 ^ 18)] 2] = some w ∧ w.buddy.regions = [2 ^ 18] ∧
      ReturnsAll w.buddy := by
  have hrun : ((machine fun _ => 0).exec (machine fun _ => 0).init
      [.alloc (2 ^ 14) [some (2 ^ 18)] 2]).map (fun w => w.buddy.regions) = some [2 ^ 18] := by
    decide +kernel
  obtain ⟨w, hw, hregions⟩ := Option.map_eq_some_iff.mp hrun
  exact ⟨w, hw, hregions, (drop_returns_iff (fun _ => 0) w ⟨_, hw⟩).mpr (by rw [hregions]; decide)⟩

/-- Two blocks of the largest order need two regions; only the second is unmapped. -/
theorem drop_leaks : ∃ w, (machine fun _ => 0).exec (machine fun _ => 0).init
    [.alloc (2 ^ 18) [some (2 ^ 18)] 2, .alloc (2 ^ 18) [some (2 ^ 19)] 2] = some w ∧
      w.buddy.regions = [2 ^ 19, 2 ^ 18] ∧ drop w.buddy = [(2 ^ 19, 64)] ∧
      ¬ ReturnsAll w.buddy := by
  have hrun : ((machine fun _ => 0).exec (machine fun _ => 0).init
      [.alloc (2 ^ 18) [some (2 ^ 18)] 2, .alloc (2 ^ 18) [some (2 ^ 19)] 2]).map
        (fun w => (w.buddy.regions, drop w.buddy))
          = some ([2 ^ 19, 2 ^ 18], [(2 ^ 19, 64)]) := by decide +kernel
  obtain ⟨w, hw, hvals⟩ := Option.map_eq_some_iff.mp hrun
  obtain ⟨hregions, hdrop⟩ := Prod.mk.inj hvals
  refine ⟨w, hw, hregions, hdrop, fun hall => ?_⟩
  have hlen := hall.length_eq
  rw [hdrop, hregions] at hlen
  exact absurd hlen (by decide)

/-! ### Using up a region -/

/-- What up to `n` calls of `alloc(2^k)` in a row return, before the first that has to map a
region: the kernel has none. -/
def served (k : Nat) : Nat → BuddyAllocator → List Nat
  | 0, _ => []
  | n + 1, s =>
      match alloc 2 s (2 ^ k) [] with
      | some (s', some p) => p :: served k n s'
      | _ => []

/-- The region serves exactly as many blocks of order `k` as fit in it, all inside and apart. -/
structure UsedUp (ptr size k : Nat) (s : BuddyAllocator) : Prop where
  count : ∀ n, (served k n s).length = min n (size / 2 ^ k)
  inside : ∀ n, ∀ p ∈ served k n s,
    ptr + HEADER_SIZE ≤ p ∧ p - HEADER_SIZE + 2 ^ k ≤ ptr + size
  apart : ∀ n, (served k n s).Pairwise fun p q =>
    p - HEADER_SIZE + 2 ^ k ≤ q - HEADER_SIZE ∨ q - HEADER_SIZE + 2 ^ k ≤ p - HEADER_SIZE

/-- What is left of a region is in blocks of the order or above; what was taken has the order. -/
structure Cut (F : Nat → List Nat) (L : List Block) (k ptr : Nat) (s : BuddyAllocator) : Prop where
  inv : Inv F L [] s
  regions : s.regions = [ptr]
  low : ∀ i < k, s.freeLists i = none
  taken : ∀ b ∈ L, b.2 = MIN_ORDER + k

/-- Splitting down to an order leaves the lists of lower orders alone. -/
theorem split_freeLists {a target i : Nat} (hi : MIN_ORDER + i < target) :
    ∀ {n : Nat} {s : BuddyAllocator}, (split s a target n).freeLists i = s.freeLists i := by
  intro n
  induction n with
  | zero => intro s; rfl
  | succ n ih =>
      intro s
      unfold split
      rw [ih]
      refine Function.update_of_ne ?_ _ _
      omega

theorem Cut.takeBlock {k ptr j block : Nat} (h : Cut F L k ptr s) (hkj : k ≤ j)
    (hj : j < NUM_ORDERS) (hblock : s.freeLists j = some block) :
    ∃ F', Cut F' ((block, MIN_ORDER + k) :: L) k ptr
      (takeBlock s block j (MIN_ORDER + k)).1 := by
  obtain ⟨-, F', hF'⟩ := h.inv.takeBlock hj hkj hblock
  refine ⟨F', hF', takeBlock_regions.regions.trans h.regions, fun i hi => ?_, fun b hb => ?_⟩
  · have hlist : (setList s j (next s.mem block)).freeLists i = s.freeLists i :=
      Function.update_of_ne (by omega) _ _
    exact (split_freeLists (by omega)).trans (hlist.trans (h.low i hi))
  · rcases List.mem_cons.mp hb with rfl | hb
    · rfl
    · exact h.taken b hb

theorem bytes_const {o : Nat} : ∀ {L : List Block}, (∀ b ∈ L, b.2 = o) →
    bytes L = L.length * 2 ^ o := by
  intro L
  induction L with
  | nil => intro _; simp
  | cons b L ih =>
      intro h
      rw [bytes_cons, ih fun c hc => h c (List.mem_cons_of_mem _ hc), h b (List.mem_cons_self ..),
        List.length_cons, Nat.succ_mul, Nat.add_comm]

/-- Taken and free blocks make up the region. -/
theorem Cut.bytes {k ptr : Nat} (h : Cut F L k ptr s) :
    L.length * 2 ^ (MIN_ORDER + k) + Lib.bytes (freeBlocks F) = 2 ^ MAX_ORDER := by
  have hall := h.inv.tiled.bytes_eq
  rw [h.regions] at hall
  unfold allBlocks at hall
  rw [List.nil_append, bytes_append, bytes_const h.taken] at hall
  simpa using hall

/-- With no block of the order or above, there is none at all. -/
theorem Cut.none_free {k ptr : Nat} (h : Cut F L k ptr s) (hempty : NoBlock s k) :
    freeBlocks F = [] := by
  refine List.eq_nil_iff_forall_not_mem.mpr fun b hb => ?_
  obtain ⟨i, hi, -, hmem⟩ := mem_freeBlocks.mp hb
  have hnone : s.freeLists i = none := by
    rcases Nat.lt_or_ge i k with hlt | hge
    · exact h.low i hlt
    · exact hempty i hge hi
  have hchain := h.inv.lists.chain i hi
  rw [hnone] at hchain
  rw [hchain.eq_nil_of_none] at hmem
  exact absurd hmem List.not_mem_nil

/-- The next call takes a block, or finds that everything was taken. -/
theorem Cut.next {k ptr : Nat} (h : Cut F L k ptr s) (hk : k < NUM_ORDERS) :
    (∃ block s' F', alloc 2 s (2 ^ (MIN_ORDER + k)) [] = some (s', some (block + HEADER_SIZE)) ∧
      Cut F' ((block, MIN_ORDER + k) :: L) k ptr s') ∨
    alloc 2 s (2 ^ (MIN_ORDER + k)) [] = some (s, none) ∧ freeBlocks F = [] := by
  have horder : trailingZeros (2 ^ (MIN_ORDER + k)) = MIN_ORDER + k := by
    refine trailingZeros_two_pow ?_
    unfold NUM_ORDERS MAX_ORDER MIN_ORDER at *
    omega
  obtain ⟨s', p, hresult⟩ := alloc_total s (2 ^ (MIN_ORDER + k)) []
  have halloc := hresult.alloc_eq 0
  cases hresult with
  | outside hrange =>
      rw [horder] at hrange
      exact absurd hrange (order_in_range hk)
  | @found i j block hi hij hj _ hblock =>
      obtain rfl : i = k := Nat.add_left_cancel (hi.symm.trans horder)
      obtain ⟨F', hF'⟩ := h.takeBlock hij hj hblock
      exact Or.inl ⟨block, _, F', halloc, hF'⟩
  | @refused i hi _ hempty _ =>
      obtain rfl : i = k := Nat.add_left_cancel (hi.symm.trans horder)
      exact Or.inr ⟨halloc, h.none_free hempty⟩
  | mapped _ _ _ hans _ => cases hans

/-- The blocks of the pointers served, last first. -/
def blocksOf (k : Nat) (served : List Nat) : List Block :=
  (served.map fun p => (p - HEADER_SIZE, k)).reverse

/-- A run of calls serves what is left, block by block. -/
theorem Cut.served {k ptr : Nat} (hk : k < NUM_ORDERS) : ∀ (n : Nat) {F : Nat → List Nat}
    {L : List Block} {s : BuddyAllocator}, Cut F L k ptr s →
    (served (MIN_ORDER + k) n s).length = min n (2 ^ (MAX_ORDER - (MIN_ORDER + k)) - L.length) ∧
    (∀ p ∈ served (MIN_ORDER + k) n s, HEADER_SIZE ≤ p) ∧
    ∃ F' s', Cut F' (blocksOf (MIN_ORDER + k) (served (MIN_ORDER + k) n s) ++ L) k ptr s' := by
  have hpow : 2 ^ (MAX_ORDER - (MIN_ORDER + k)) * 2 ^ (MIN_ORDER + k) = 2 ^ MAX_ORDER := by
    rw [← Nat.pow_add]
    congr 1
    unfold NUM_ORDERS MAX_ORDER MIN_ORDER at *
    omega
  have hpos : 0 < 2 ^ (MIN_ORDER + k) := Nat.two_pow_pos _
  intro n
  induction n with
  | zero =>
      intro F L s h
      exact ⟨by simp [Buddy.served], by simp [Buddy.served], F, s, h⟩
  | succ n ih =>
      intro F L s h
      rcases h.next hk with ⟨block, s', F', halloc, h'⟩ | ⟨halloc, hnone⟩
      · obtain ⟨hlen, hge, hend⟩ := ih h'
        have hcons : Buddy.served (MIN_ORDER + k) (n + 1) s
            = (block + HEADER_SIZE) :: Buddy.served (MIN_ORDER + k) n s' := by
          rw [Buddy.served, halloc]
        -- one more block was there to take
        have hroom : L.length + 1 ≤ 2 ^ (MAX_ORDER - (MIN_ORDER + k)) := by
          have hbytes := h'.bytes
          rw [← hpow, List.length_cons] at hbytes
          exact Nat.le_of_mul_le_mul_right (by omega) hpos
        rw [hcons]
        refine ⟨?_, fun p hp => ?_, ?_⟩
        · rw [List.length_cons, hlen, List.length_cons]
          omega
        · rcases List.mem_cons.mp hp with rfl | hp
          · exact Nat.le_add_left _ _
          · exact hge p hp
        · unfold blocksOf at hend ⊢
          rw [List.map_cons, List.reverse_cons, List.append_assoc, Nat.add_sub_cancel]
          exact hend
      · have hnil : Buddy.served (MIN_ORDER + k) (n + 1) s = [] := by
          rw [Buddy.served, halloc]
        have hfull : L.length = 2 ^ (MAX_ORDER - (MIN_ORDER + k)) := by
          have hbytes := h.bytes
          rw [hnone, bytes_nil, Nat.add_zero, ← hpow] at hbytes
          exact Nat.eq_of_mul_eq_mul_right hpos hbytes
        rw [hnil, hfull]
        exact ⟨by simp, by simp, F, s, h⟩

/-! ### The region `init` is given -/

/-- The allocator as if it had mapped a region of the largest order at `ptr` itself. -/
def adopt (s : BuddyAllocator) (ptr : Nat) : BuddyAllocator :=
  { s with base := some ptr, regionSize := 2 ^ MAX_ORDER, regions := [ptr] }

theorem split_adopt {ptr a target : Nat} : ∀ {n : Nat} {s : BuddyAllocator},
    split (adopt s ptr) a target n = adopt (split s a target n) ptr := by
  intro n
  induction n with
  | zero => intro s; rfl
  | succ n ih =>
      intro s
      exact ih (s := splitOnce s a (target + n + 1))

theorem takeBlock_adopt {ptr block idx target : Nat} :
    (takeBlock (adopt s ptr) block idx target).1 = adopt (takeBlock s block idx target).1 ptr := by
  have hsplit : split (adopt (setList s idx (next s.mem block)) ptr) block target
      (idx + MIN_ORDER - target) = adopt (split (setList s idx (next s.mem block)) block target
        (idx + MIN_ORDER - target)) ptr := split_adopt
  unfold takeBlock
  exact congrArg (fun s' : BuddyAllocator =>
    { s' with mem := setNext (setIsFree s'.mem block false) block none }) hsplit

/-- Where an allocator's region came from matters to no call that maps nothing. -/
theorem AllocResult.adopt {size : Nat} {p : Option Nat} (h : AllocResult s size [] s' p)
    (ptr : Nat) : AllocResult (Buddy.adopt s ptr) size [] (Buddy.adopt s' ptr) p := by
  cases h with
  | outside hrange => exact .outside hrange
  | found hk hkj hj hfirst hblock =>
      rw [← takeBlock_adopt]
      exact .found hk hkj hj hfirst hblock
  | refused hk hkn hempty _ => exact .refused hk hkn hempty rfl
  | mapped _ _ _ hans _ => cases hans

theorem served_adopt {k : Nat} (ptr : Nat) : ∀ (n : Nat) {s : BuddyAllocator},
    served k n (adopt s ptr) = served k n s := by
  intro n
  induction n with
  | zero => intro s; rfl
  | succ n ih =>
      intro s
      obtain ⟨s', p, hresult⟩ := alloc_total s (2 ^ k) []
      rw [served, served, hresult.alloc_eq 0, (hresult.adopt ptr).alloc_eq 0]
      cases p with
      | none => rfl
      | some p => exact congrArg (p :: ·) ih

/-- Of a region of the largest order or more, `init` makes one block of the largest order. -/
theorem adopt_init {ptr e : Nat} (hmax : MAX_ORDER ≤ e) (he : e < 64) :
    adopt (init (new mem) ptr (2 ^ e)) ptr
      = init { new mem with regions := [ptr] } ptr (2 ^ MAX_ORDER) := by
  have hclamp : max MIN_ORDER (min (trailingZeros (2 ^ e)) MAX_ORDER) = MAX_ORDER := by
    rw [trailingZeros_two_pow he, Nat.min_eq_right hmax]
    rfl
  have hclamp' : max MIN_ORDER (min (trailingZeros (2 ^ MAX_ORDER)) MAX_ORDER) = MAX_ORDER := by
    rw [trailingZeros_two_pow (by decide)]
    rfl
  unfold init
  rw [hclamp, hclamp']
  rfl

theorem cut_init (mem : Mem) {ptr e k : Nat} (hptr : ptr ≠ 0) (halign : ptr % 2 ^ MAX_ORDER = 0)
    (hend : ptr + 2 ^ e ≤ 2 ^ 64) (hmax : MAX_ORDER ≤ e) (he : e < 64) (hk : k < NUM_ORDERS) :
    ∃ F, Cut F [] k ptr (adopt (init (new mem) ptr (2 ^ e)) ptr) := by
  obtain ⟨F, hF⟩ := good_init mem
  have hlen : 2 ^ MAX_ORDER ≤ 2 ^ e := Nat.pow_le_pow_right (by decide) hmax
  have hmod : ptr % 2 ^ 18 = 0 := halign
  have hfresh : FreshRegion (new mem) ptr := by
    refine ⟨hptr, ?_, by omega, fun r hr => absurd hr List.not_mem_nil⟩
    unfold PAGE_SIZE
    omega
  have hplace : Placeable (new mem).regions ptr := by
    refine ⟨by omega, fun q hq => absurd hq List.not_mem_nil⟩
  obtain ⟨F', hF'⟩ := hF.addRegion (m := mem) hfresh hplace rfl fun _ _ => rfl
  rw [adopt_init hmax he]
  refine ⟨F', hF', rfl, fun i hi => ?_, fun b hb => absurd hb List.not_mem_nil⟩
  have hlists : (withRegion (new mem) ptr).freeLists i = none := by
    rw [withRegion_freeLists]
    refine Function.update_of_ne ?_ _ _
    unfold NUM_ORDERS at hk
    omega
  exact hlists

/--
**Only a region of the largest order is all allocatable.**  Whatever the memory
holds and for every order, the region given to `init` serves as many blocks as fit
in it, inside it and apart, if and only if its size is that of the largest order: of a
larger region everything past the first 2^18 bytes is never served.
-/
theorem init_used_up_iff (mem : Mem) (ptr size k : Nat) (hpow : size.isPowerOfTwo)
    (hmin : 2 ^ MAX_ORDER ≤ size) (hptr : ptr ≠ 0) (halign : ptr % 2 ^ MAX_ORDER = 0)
    (hend : ptr + size ≤ 2 ^ 64) (hlow : MIN_ORDER ≤ k) (hhigh : k ≤ MAX_ORDER) :
    UsedUp ptr size k (init (new mem) ptr size) ↔ size = 2 ^ MAX_ORDER := by
  obtain ⟨e, rfl⟩ := hpow
  have hmax : MAX_ORDER ≤ e := (Nat.pow_le_pow_iff_right (by decide : 1 < 2)).mp hmin
  have he : e < 64 := (Nat.pow_lt_pow_iff_right (by decide : 1 < 2)).mp (by omega)
  obtain ⟨i, rfl⟩ : ∃ i, k = MIN_ORDER + i := Nat.exists_eq_add_of_le hlow
  have hi : i < NUM_ORDERS := by
    unfold NUM_ORDERS
    omega
  obtain ⟨F, hcut⟩ := cut_init mem hptr halign hend hmax he hi
  have hrun := fun n => hcut.served hi n
  simp only [served_adopt, List.length_nil, Nat.sub_zero, List.append_nil] at hrun
  constructor
  · intro hused
    have hcount := hused.count (2 ^ e / 2 ^ (MIN_ORDER + i))
    rw [(hrun _).1, Nat.min_self, Nat.pow_div (Nat.le_trans hhigh hmax) (by decide)] at hcount
    have hle : 2 ^ (e - (MIN_ORDER + i)) ≤ 2 ^ (MAX_ORDER - (MIN_ORDER + i)) := by omega
    have hexp := (Nat.pow_le_pow_iff_right (by decide : 1 < 2)).mp hle
    rw [show e = MAX_ORDER by omega]
  · intro hsize
    rw [hsize] at hrun ⊢
    refine ⟨fun n => ?_, fun n p hp => ?_, fun n => ?_⟩
    · rw [(hrun n).1, Nat.pow_div hhigh (by decide)]
    · obtain ⟨-, hge, F', s', hcut'⟩ := hrun n
      have hmem : (p - HEADER_SIZE, MIN_ORDER + i) ∈ allBlocks F' (blocksOf (MIN_ORDER + i)
          (served (MIN_ORDER + i) n (init (new mem) ptr (2 ^ MAX_ORDER)))) [] :=
        List.mem_append_right [] (List.mem_append_left _
          (List.mem_reverse.mpr (List.mem_map.mpr ⟨p, hp, rfl⟩)))
      obtain ⟨r, hr, -, hstart, hstop, -⟩ := hcut'.inv.tiled.placed _ hmem
      rw [hcut'.regions, List.mem_singleton] at hr
      have hp16 := hge p hp
      subst hr
      simp only at hstart hstop
      exact ⟨by omega, hstop⟩
    · obtain ⟨-, -, F', s', hcut'⟩ := hrun n
      have hpw := pairwise_apart hcut'.inv.tiled.cover_le_one
      have hblocks := (List.pairwise_append.mp (show (blocksOf _ _ ++ freeBlocks F').Pairwise _
        from hpw)).1
      unfold blocksOf at hblocks
      rw [List.pairwise_reverse, List.pairwise_map] at hblocks
      exact hblocks.imp fun hap => hap.symm

/-- A region of 2^18 bytes serves sixteen blocks of the smallest order. -/
theorem init_used_up_largest :
    UsedUp (2 ^ 18) (2 ^ 18) 14 (init (new fun _ => 0) (2 ^ 18) (2 ^ 18)) :=
  (init_used_up_iff (fun _ => 0) (2 ^ 18) (2 ^ 18) 14 ⟨18, rfl⟩ (by decide) (by decide) (by decide)
    (by decide) (by decide) (by decide)).mpr rfl

/-- A region of 2^19 bytes holds two blocks of the largest order and serves one. -/
theorem init_strands_upper_half :
    served 18 2 (init (new fun _ => 0) (2 ^ 19) (2 ^ 19)) = [2 ^ 19 + 16] ∧
      ¬ UsedUp (2 ^ 19) (2 ^ 19) 18 (init (new fun _ => 0) (2 ^ 19) (2 ^ 19)) := by
  have hrun : served 18 2 (init (new fun _ => 0) (2 ^ 19) (2 ^ 19)) = [2 ^ 19 + 16] := by
    decide +kernel
  refine ⟨hrun, fun hused => ?_⟩
  have hcount := hused.count 2
  rw [hrun] at hcount
  exact absurd hcount (by decide)

end Aethalloc.Buddy
