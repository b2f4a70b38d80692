/-
Simple caching maps pages only when it has to.

A miss happens when the thread's list and the global list of the class are empty.
Every block ever carved for the class is then live or on the list of another
thread, and those lists are kept short by the flush.  So the blocks of a class are
at most those live at a time, 4095 for every other thread, and one page more.
-/
import Aethalloc.Proofs.Abi.Growth
import Aethalloc.Proofs.Abi.Simple.Frame

namespace Aethalloc.Abi.Simple

open Lib

variable {F : Shelf → List Nat} {h h' h'' : Heap} {L : List Allocation} {a : Allocation}
  {t c size align : Nat}

/-- How many blocks a miss makes, at most. -/
def perMiss (c : Nat) : Nat := max (PAGE_SIZE / blockSize c) 1

/-- The blocks carved for the class so far. -/
def madeOf (c : Nat) (h : Heap) : Finset Nat := (h.carved c).toFinset

/-- The thread has no block of the class. -/
def IdleIn (c : Nat) (h : Heap) (t : Nat) : Prop := (h.threads t).heads c = none

/-- What a call of thread `t` that carves no block does. -/
structure Local (t : Nat) (h h' : Heap) : Prop where
  threads : ∀ t', t' ≠ t → (h'.threads t').heads = (h.threads t').heads
  carved : h'.carved = h.carved

namespace Local

theorem refl : Local t h h := ⟨fun _ _ => rfl, rfl⟩

theorem trans (h₁ : Local t h h') (h₂ : Local t h' h'') : Local t h h'' where
  threads t' ht' := (h₂.threads t' ht').trans (h₁.threads t' ht')
  carved := h₂.carved.trans h₁.carved

theorem updateCache {f : ThreadCache → ThreadCache} : Local t h (h.updateCache t f) where
  threads t' ht' := by
    unfold Heap.updateCache
    simp only [Function.update_of_ne ht']
  carved := rfl

theorem updateMetrics {f : ThreadMetrics → ThreadMetrics} : Local t h (h.updateMetrics t f) :=
  updateCache

theorem maybeFlush : Local t h (h.maybeFlush t) := by
  have hlocal : Local t h (h.updateMetrics t fun _ =>
      ((h.threads t).metrics.maybeFlush h.globalMetrics).1) := updateMetrics
  exact ⟨hlocal.threads, rfl⟩

theorem countFree : Local t h (h.countFree t) := updateCache.trans maybeFlush

theorem setMem {mem : Mem} : Local t h (h.setMem mem) := ⟨fun _ _ => rfl, rfl⟩

theorem setList {p : Option Nat} {n : Nat} : Local t h (h.setList t c p n) := updateCache

theorem pushLocal {b : Nat} : Local t h (h.pushLocal t c b) := setMem.trans setList

theorem setGlobal {list : GlobalFreeList} : Local t h
    { h with globalFreeLists := Function.update h.globalFreeLists c list } :=
  ⟨fun _ _ => rfl, rfl⟩

theorem flush : Local t h (h.flush t c) := by
  unfold Heap.flush
  simp only
  split
  · exact refl
  · refine Local.trans ?_ setGlobal
    exact (setMem.trans setList).trans setMem

theorem popBatch : ∀ (n : Nat) {h : Heap}, Local t h (Heap.popBatch t c n h).1 := by
  intro n
  induction n with
  | zero =>
      intro h
      exact refl
  | succ n ih =>
      intro h
      unfold Heap.popBatch
      rcases (h.globalFreeLists c).pop h.sys.mem with ⟨_ | b, list⟩
      · exact refl
      · exact (setGlobal.trans pushLocal).trans ih

theorem serve {b : Nat} : Local t h (h.serve t size c b).1 :=
  ((setList.trans updateCache).trans maybeFlush).trans setMem

theorem unmapHeader {base : Nat} : Local t h (h.unmapHeader base) := by
  unfold Heap.unmapHeader
  split
  · exact ⟨fun _ _ => rfl, rfl⟩
  · exact refl

theorem mapPages (pages : Nat) (purpose : Purpose) :
    Local t h (h.mapPages pages purpose).1 := by
  unfold Heap.mapPages
  rcases PageAllocator.alloc h.sys pages with ⟨sys, _ | base⟩
  · exact ⟨fun _ _ => rfl, rfl⟩
  · exact ⟨fun _ _ => rfl, rfl⟩

theorem allocLarge : Local t h (h.allocLarge t size align).1 := by
  unfold Heap.allocLarge
  simp only
  have hmap : Local t h (((h.updateMetrics t ThreadMetrics.countDirect).maybeFlush t).mapPages
        (max ((PAGE_HEADER_SIZE + LARGE_HEADER_SIZE + size + align + PAGE_SIZE - 1) / PAGE_SIZE) 1)
        .large).1 := (updateCache.trans maybeFlush).trans (mapPages ..)
  split
  · rename_i heq
    rw [heq] at hmap
    exact hmap
  · rename_i heq
    rw [heq] at hmap
    exact ((((hmap.trans setMem).trans setMem).trans setMem).trans setMem).trans setMem

end Local

/-! ### Carving -/

/-- What a miss of thread `t` does: it adds at most so many blocks of its class. -/
structure Adds (t c n : Nat) (h h' : Heap) : Prop where
  threads : ∀ t', t' ≠ t → (h'.threads t').heads = (h.threads t').heads
  carved : ∃ new : List Nat, new.length ≤ n ∧
    h'.carved = Function.update h.carved c (new ++ h.carved c)

theorem Local.adds (hl : Local t h h') (n : Nat) : Adds t c n h h' where
  threads := hl.threads
  carved := ⟨[], Nat.zero_le n, by rw [hl.carved]; simp⟩

theorem Adds.trans {m n : Nat} (h₁ : Adds t c m h h') (h₂ : Adds t c n h' h'') :
    Adds t c (m + n) h h'' where
  threads t' ht' := (h₂.threads t' ht').trans (h₁.threads t' ht')
  carved := by
    obtain ⟨new₁, hlen₁, heq₁⟩ := h₁.carved
    obtain ⟨new₂, hlen₂, heq₂⟩ := h₂.carved
    refine ⟨new₂ ++ new₁, ?_, ?_⟩
    · rw [List.length_append]
      omega
    · rw [heq₂, heq₁, Function.update_idem, Function.update_self, List.append_assoc]

theorem Adds.weaken {m n : Nat} (ha : Adds t c m h h') (hle : m ≤ n) : Adds t c n h h' where
  threads := ha.threads
  carved := by
    obtain ⟨new, hlen, heq⟩ := ha.carved
    exact ⟨new, Nat.le_trans hlen hle, heq⟩

theorem Adds.carve {b : Nat} : Adds t c 1 h (h.carve c b) :=
  ⟨fun _ _ => rfl, [b], Nat.le_refl 1, rfl⟩

theorem Adds.carveRest {base bs n : Nat} : Adds t c (n - 1) h (h.carveRest t c base bs n) := by
  unfold Heap.carveRest
  have hfold : ∀ (is : List Nat) {h : Heap}, Adds t c is.length h (is.foldl (fun h i =>
      let blockPtr := base + i * bs
      (h.carve c blockPtr).pushLocal t c blockPtr) h) := by
    intro is
    induction is with
    | nil =>
        intro h
        exact Local.refl.adds 0
    | cons i is ih =>
        intro h
        rw [List.foldl_cons, List.length_cons, Nat.add_comm]
        have hone : Adds t c 1 h ((h.carve c (base + i * bs)).pushLocal t c (base + i * bs)) :=
          Adds.carve.trans (Local.pushLocal.adds 0)
        exact hone.trans ih
  have hall := hfold (List.range' 1 (n - 1)) (h := h)
  rw [List.length_range'] at hall
  exact hall

theorem Adds.allocSingle {bs : Nat} : Adds t c 1 h (h.allocSingle t size bs c).1 := by
  unfold Heap.allocSingle
  simp only
  have hmap : Local t h (h.mapPages (max ((bs + PAGE_SIZE - 1) / PAGE_SIZE) 1) (.small c)).1 :=
    Local.mapPages ..
  split
  · rename_i heq
    rw [heq] at hmap
    exact hmap.adds 1
  · rename_i heq
    rw [heq] at hmap
    exact ((hmap.adds 0).trans Adds.carve).trans ((Local.setMem.trans Local.maybeFlush).adds 0)

theorem Adds.allocMiss : Adds t c (perMiss c) h (h.allocMiss t size (classSize c) c).1 := by
  have hbs : classSize c + CACHE_HEADER_SIZE = blockSize c := rfl
  have hmiss : Local t h (h.updateMetrics t ThreadMetrics.countMiss) := Local.updateCache
  have hsingle : ∀ h₁, Local t h h₁ →
      Adds t c (perMiss c) h (h₁.allocSingle t size (blockSize c) c).1 := by
    intro h₁ hl
    refine ((hl.adds 0).trans Adds.allocSingle).weaken ?_
    unfold perMiss
    omega
  unfold Heap.allocMiss
  simp only [hbs]
  split
  · rename_i hmany
    have hmap := hmiss.trans (Local.mapPages 1 (.small c))
    split
    · rename_i heq
      rw [heq] at hmap
      exact hsingle _ hmap
    · rename_i heq
      rw [heq] at hmap
      refine ((((hmap.adds 0).trans Adds.carveRest).trans Adds.carve).trans
        ((Local.setMem.trans Local.maybeFlush).adds 0)).weaken ?_
      unfold perMiss
      omega
  · exact hsingle _ hmiss

/-! ### When it happens -/

/-- With the thread's list and the global one empty, the rest of the class is elsewhere. -/
theorem Inv.usedUp (hinv : Inv F h.core L) (hlim : Limited F)
    (hcache : (h.threads t).heads c = none) (hshared : (h.globalFreeLists c).head = none) :
    UsedUp c (MAX_FREE_LIST_LENGTH - 1) (madeOf c) (IdleIn c) t h L := by
  have hempty : ∀ s, h.core.heads s = none → F s = [] := by
    intro s hs
    have hchain := hinv.chains s
    rw [hs] at hchain
    exact hchain.eq_nil_of_none
  refine ⟨fun t' => F (.cache t' c), fun t' => Nat.le_sub_one_of_lt (hlim t' c),
    fun t' hidle => hempty (.cache t' c) hidle, fun b hb => ?_⟩
  obtain ⟨p, hp, hmem⟩ := (hinv.placed.complete b c).mp (List.mem_toFinset.mp hb)
  cases p with
  | live c' =>
      obtain rfl : c' = c := hp
      exact Or.inl hmem
  | listed s =>
      cases s with
      | cache t' c' =>
          obtain rfl : c' = c := hp
          refine Or.inr ⟨t', fun heq => ?_, hmem⟩
          subst heq
          rw [show contents F L (.listed (.cache t' c')) = F (.cache t' c') from rfl,
            hempty (.cache t' c') hcache] at hmem
          exact absurd hmem List.not_mem_nil
      | shared c' =>
          obtain rfl : c' = c := hp
          rw [show contents F L (.listed (.shared c')) = F (.shared c') from rfl,
            hempty (.shared c') hshared] at hmem
          exact absurd hmem List.not_mem_nil

/-- What is asked of a call of the simple mode. -/
abbrev GrowsIn (c t : Nat) (L : List Allocation) (h h' : Heap) : Prop :=
  Grows c (MAX_FREE_LIST_LENGTH - 1) (perMiss c) (fun _ => True) (madeOf c) (IdleIn c) t L h h'

theorem Local.grows (hl : Local t h h') : GrowsIn c t L h h' where
  others t' ht' hidle := by
    unfold IdleIn at hidle ⊢
    rw [hl.threads t' ht']
    exact hidle
  made := by
    unfold madeOf
    rw [hl.carved]
    exact Or.inl rfl

/-- A miss adds blocks to its own class, when that is used up. -/
theorem Adds.grows {c' : Nat} (ha : Adds t c' (perMiss c') h h')
    (hused : UsedUp c' (MAX_FREE_LIST_LENGTH - 1) (madeOf c') (IdleIn c') t h L) :
    GrowsIn c t L h h' where
  others t' ht' hidle := by
    unfold IdleIn at hidle ⊢
    rw [ha.threads t' ht']
    exact hidle
  made := by
    obtain ⟨new, hlen, heq⟩ := ha.carved
    unfold madeOf
    rw [heq]
    by_cases hc : c = c'
    · subst hc
      rw [Function.update_self, List.toFinset_append]
      refine Or.inr ⟨?_, fun _ => hused⟩
      have hunion := Finset.card_union_le new.toFinset (h.carved c).toFinset
      have hnew := List.toFinset_card_le new
      omega
    · rw [Function.update_of_ne hc]
      exact Or.inl rfl

theorem allocSmall_grows {c' : Nat} (hinv : Inv F h.core L) (hlim : Limited F) :
    GrowsIn c t L h (h.allocSmall t size (classSize c') c').1 := by
  unfold Heap.allocSmall
  cases hhead : (h.threads t).heads c' with
  | some b => exact Local.serve.grows
  | none =>
      simp only
      unfold Heap.allocGlobal
      cases hshared : (h.globalFreeLists c').head with
      | none => exact Adds.allocMiss.grows (hinv.usedUp hlim hhead hshared)
      | some b =>
          simp only
          have hchain := hinv.chains (.shared c')
          have hsome : h.core.heads (.shared c') = some b := hshared
          rw [hsome] at hchain
          obtain ⟨g, hF, -⟩ := hchain.exists_cons_of_some
          obtain ⟨-, hcount⟩ := Heap.popBatch_spec (t := t) (c := c') GLOBAL_FREE_BATCH hinv
          -- the global list is not empty, so at least one block goes over
          have htaken : 0 < (Heap.popBatch t c' GLOBAL_FREE_BATCH h).2 := by
            rw [hcount, hF, List.length_cons]
            exact Nat.lt_min.mpr ⟨by decide, Nat.succ_pos _⟩
          rw [if_pos htaken]
          exact ((Local.popBatch _).trans Local.serve).grows

theorem alloc_grows (hinv : h.Good L) (layout : Layout) :
    GrowsIn c t L h (h.alloc t layout).1 := by
  obtain ⟨F, hinv, hlim⟩ := hinv
  unfold Heap.alloc
  simp only
  split
  · exact Local.refl.grows
  · rename_i hsize
    split
    · rename_i hsmall
      obtain ⟨c', -, hclass, hround, -⟩ := classOf_spec (Nat.pos_of_ne_zero hsize) hsmall.1
      have hcls : sizeToClass (max (roundUpPow2 layout.size) 16) = some c' := hclass
      rw [hcls, hround]
      exact allocSmall_grows hinv hlim
    · exact Local.allocLarge.grows

theorem dealloc_local {ptr : Option Nat} : Local t h (h.dealloc t ptr) := by
  unfold Heap.dealloc
  split
  · exact .refl
  · split
    · exact Local.unmapHeader.trans Local.countFree
    · split
      · unfold Heap.deallocSmall
        simp only
        split
        · exact (Local.pushLocal.trans Local.countFree).trans Local.flush
        · exact Local.pushLocal.trans Local.countFree
      · exact Local.unmapHeader.trans Local.countFree

theorem simpleMode_frugal (c : Nat) : Frugal simpleMode Heap.Good c (MAX_FREE_LIST_LENGTH - 1)
    (perMiss c) (fun _ => True) (madeOf c) (IdleIn c) where
  alloc := by
    intro h L t layout hinv
    exact alloc_grows hinv layout
  dealloc := by
    intro h L a t _ _
    rw [simpleMode_dealloc]
    have hl : Local t h (h.dealloc t (some a.ptr)) := dealloc_local
    refine ⟨?_, hl.grows (c := c) (L := L) |>.others⟩
    unfold madeOf
    rw [hl.carved]
  setSys _ _ := ⟨rfl, rfl, fun _ => trivial⟩
  ensureInit _ := ⟨rfl, rfl, fun _ => trivial⟩

/--
**Simple caching does not hoard.**  In every run of the C interface in this mode by
the threads `0` to `n`, whatever they call, whatever the kernel answers and whatever
the client writes: if never more than `B` blocks of a class are live, at most
`B + 4095 * n` blocks were ever carved for it, and one page of them more.
-/
theorem simple_bounded {mem : Mem} {foreign : Nat → Bool} {w : Interface.World Heap}
    {c n B : Nat}
    (hw : (interface mem foreign).ReachesUnder (Interface.Moderate c n B fun _ => True) w) :
    (w.heap.carved c).toFinset.card ≤ B + 4095 * n + max (PAGE_SIZE / blockSize c) 1 :=
  (Interface.made_bounded simpleMode_sound (simpleMode_frugal c) (Settled.start mem foreign) rfl
    (fun _ => rfl) hw).2

/-- A block goes from one thread to the other, and the other one's next block needs no page. -/
theorem simple_bounded_handover : ∃ w,
    (interface (fun _ => 0) fun _ => false).ReachesUnder
      (Interface.Moderate 3 1 1 fun _ => True) w ∧
    (w.heap.carved 3).length = 28 ∧ (w.heap.carved 3).toFinset.card ≤ 1 + 4095 * 1 + 28 := by
  have hrun : ((interface (fun _ => 0) fun _ => false).exec
      (interface (fun _ => 0) fun _ => false).init
      [.malloc 0 100 [some 4096], .free 1 (some 4112) [], .malloc 1 100 []]).map
        (fun w => (w.heap.carved 3).length) = some 28 := by decide +kernel
  have hsteps : ((interface (fun _ => 0) fun _ => false).trace
      (Interface.moderate 3 1 1 fun _ => true) (interface (fun _ => 0) fun _ => false).init
      [.malloc 0 100 [some 4096], .free 1 (some 4112) [], .malloc 1 100 []]).all id = true := by
    decide +kernel
  obtain ⟨w, hw, hcarved⟩ := Option.map_eq_some_iff.mp hrun
  have hreach := Machine.exec_reachesUnder (G := Interface.Moderate 3 1 1 fun _ => True)
    (fun w l htest => Interface.Moderate.of_test (fun _ _ => trivial) htest) _ _ _ .init hw hsteps
  exact ⟨w, hreach, hcarved, simple_bounded hreach⟩

end Aethalloc.Abi.Simple
