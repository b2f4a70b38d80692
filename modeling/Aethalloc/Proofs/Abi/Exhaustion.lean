/-
Freeing when no memory for nodes can be had.

A block that is freed goes into the thread's free magazine.  When that is full it
has to be published first, for which a node is needed, and if there is none the
push is tried again on the magazine that is still full and its failure is not
looked at.  So a block is lost exactly when the magazine is full, the metadata page
has no room for a node and the kernel refuses another page.
-/
import Aethalloc.Proofs.Abi.ClosedLoop

namespace Aethalloc.Abi

open Lib
open Metadata (NODE_SIZE NODE_ALIGN)

variable {mem : Mem} {foreign : Nat → Bool} {full empty : Nat → List Nat} {h : Heap}
  {L : List Allocation} {a : Allocation} {w w' : World} {t c : Nat} {answers : List (Option Nat)}

/-! ### What a free gives back -/

/-- A magazine of the thread and class, or of the class's full stack. -/
def Place.Reachable (t c : Nat) : Place → Prop
  | .live _ => False
  | .allocMag t' c' => t' = t ∧ c' = c
  | .freeMag t' c' => t' = t ∧ c' = c
  | .node c' _ => c' = c

/-- Freeing the allocation put its block into one magazine slot and left every cached block in
some magazine. -/
structure Recovered (w w' : World) (t c : Nat) (a : Allocation) : Prop where
  slot : ∃ p, p.Reachable t c ∧ At w'.heap.core w'.live a.block p ∧
    (stock w'.heap.core w'.live p).count a.block = 1 ∧
    ∀ q, At w'.heap.core w'.live a.block q → q = p
  cached : ∀ p b, p.Cached → At w.heap.core w.live b p →
    ∃ q, q.Cached ∧ q.cls = p.cls ∧ At w'.heap.core w'.live b q

/-- There is room in the thread's free magazine, or for a node in the metadata page, or the kernel
has a page. -/
def NodeOrRoom (w : World) (t c : Nat) (answers : List (Option Nat)) : Prop :=
  ((w.heap.threads t).freeMags c).count ≠ MAGAZINE_CAPACITY ∨
    alignUp w.heap.metadata.offset NODE_ALIGN + NODE_SIZE ≤ PAGE_SIZE ∨
    ∃ base rest, answers = some base :: rest ∧ w.heap.sys.Free base PAGE_SIZE

/-! ### When there is no node -/

namespace Heap

theorem mapPages_none_iff (pages : Nat) (purpose : Purpose) (hpos : pages ≠ 0)
    (hlt : pages * PAGE_SIZE < 2 ^ 64) : (h.mapPages pages purpose).2 = none ↔
      ¬ ∃ base rest, h.sys.answers = some base :: rest ∧ h.sys.Free base (pages * PAGE_SIZE) := by
  have hne : pages * PAGE_SIZE ≠ 0 := by
    unfold PAGE_SIZE
    omega
  unfold mapPages PageAllocator.alloc System.mmap
  rw [if_neg hpos, Nat.mod_eq_of_lt hlt]
  cases hans : h.sys.answers with
  | nil => simp
  | cons x rest =>
      cases x with
      | none => simp
      | some base =>
          by_cases hfree : h.sys.Free base (pages * PAGE_SIZE)
          · simp [hne, hfree]
          · simp [hfree]

/-- A node cannot be had exactly when the page is used up and there is no other. -/
theorem allocNode_none_iff : h.allocNode.2 = none ↔
    ¬ alignUp h.metadata.offset NODE_ALIGN + NODE_SIZE ≤ PAGE_SIZE ∧
      ¬ ∃ base rest, h.sys.answers = some base :: rest ∧ h.sys.Free base PAGE_SIZE := by
  have hmap : (h.mapPages 1 .metadata).2 = none ↔
      ¬ ∃ base rest, h.sys.answers = some base :: rest ∧ h.sys.Free base PAGE_SIZE := by
    have hiff := mapPages_none_iff (h := h) 1 .metadata (by decide) (by decide)
    rw [Nat.one_mul] at hiff
    exact hiff
  rw [← hmap]
  unfold allocNode
  simp only
  split
  · rename_i hfits
    simp [hfits]
  · rename_i hfull
    rcases h.mapPages 1 .metadata with ⟨h', _ | base⟩
    · simp [hfull]
    · simp

end Heap

/-! ### One free -/

/-- What is live after a free was live before. -/
theorem at_live_of_drop {ptr : Option Nat} {k k' : Core} {b : Nat}
    (hat : At k' (drop L ptr) b (.live c)) : At k L b (.live c) := by
  refine ⟨trivial, ?_⟩
  obtain ⟨a', ha', hs', hclass', hb⟩ := mem_liveBlocks.mp hat.2
  exact mem_liveBlocks.mpr ⟨a', List.mem_of_mem_filter ha', hs', hclass', hb⟩

/-- The block of a free that finds room or a node is recovered. -/
theorem recovered_of_at (hinv : Inv full empty w.heap.core w.live)
    (hlive : w'.live = drop w.live (some a.ptr))
    (hkeeps : Keeps (fun _ => False) w.heap.core w.live w'.heap.core w'.live)
    (hfailures : w'.heap.core.nodeFailures = w.heap.core.nodeFailures)
    (hat : At w'.heap.core w'.live a.block (.freeMag t c)) : Recovered w w' t c a := by
  obtain ⟨full', empty', hinv'⟩ := hkeeps.inv
  have hmem := hinv'.at_iff.mp hat
  refine ⟨⟨.freeMag t c, ⟨rfl, rfl⟩, hat, ?_, fun q hq => ?_⟩, fun p b hp hb => ?_⟩
  · rw [hinv'.stock_eq hat.1]
    exact List.count_eq_one_of_mem (hinv'.blocks.exclusive.nodup _) hmem
  · exact hinv'.blocks.exclusive.unique q _ _ (hinv'.at_iff.mp hq) hmem
  · obtain ⟨q, hcls, hq⟩ := hkeeps.stored hfailures b p.cls ⟨p, rfl, hb⟩
    refine ⟨q, ?_, hcls, hq⟩
    cases q with
    | live c' =>
        rw [hlive] at hq
        have hpl := hinv.blocks.exclusive.unique p (.live c') b (hinv.at_iff.mp hb)
          (hinv.at_iff.mp (at_live_of_drop hq))
        rw [hpl] at hp
        exact hp
    | allocMag t' c' => trivial
    | freeMag t' c' => trivial
    | node c' n => trivial

theorem recovered_iff (hinv : Inv full empty w.heap.core w.live) (ha : a ∈ w.live) (hs : a.Small)
    (hclass : classOf a.size = some c)
    (hstep : step w (.dealloc t (some a.ptr) answers) = some w') :
    Recovered w w' t c a ↔ NodeOrRoom w t c answers := by
  have hkeeps := step_keeps hinv hstep
  have hnode := Heap.allocNode_none_iff (h := w.enter answers)
  have hcases := Heap.dealloc_recovers (h := w.enter answers) (t := t) hinv ha hs hclass
  obtain ⟨-, hsome⟩ := Option.ite_none_right_eq_some.mp hstep
  have hlose : w.lose ((w.enter answers).dealloc t (some a.ptr)) (some a.ptr) = w' :=
    Option.some.inj hsome
  generalize (w.enter answers).dealloc t (some a.ptr) = heap at hlose hcases
  subst hlose
  rcases hcases with ⟨hfull, hnone, -, hlost⟩ | ⟨hor, hfailures, hat⟩
  · refine iff_of_false (fun hrec => ?_) fun hor => ?_
    · obtain ⟨p, -, hat, -⟩ := hrec.slot
      exact hlost p hat
    · rcases hor with hcount | hfits | hpage
      · exact hcount hfull
      · exact (hnode.mp hnone).1 hfits
      · exact (hnode.mp hnone).2 hpage
  · refine iff_of_true ?_ ?_
    · exact recovered_of_at hinv rfl ⟨hkeeps.inv, fun _ hx => absurd hx id, hkeeps.stored,
        hkeeps.failures⟩ hfailures hat
    · rcases hor with hcount | hsome
      · exact Or.inl hcount
      · have hor' := mt hnode.mpr hsome
        rw [not_and_or, not_not, not_not] at hor'
        exact Or.inr hor'

/-- In every reachable state, freeing a small block loses nothing if and only if there is room for
it or a node can be had. -/
theorem dealloc_recovered_iff (hw : (machine mem foreign).Reaches w) (ha : a ∈ w.live)
    (hs : a.Small) (hclass : classOf a.size = some c) (t : Nat) (answers : List (Option Nat)) :
    ∃ w', step w (.dealloc t (some a.ptr) answers) = some w' ∧
      (Recovered w w' t c a ↔ NodeOrRoom w t c answers) := by
  obtain ⟨full, empty, hinv⟩ := reaches_good hw
  have hholds : w.Holds (some a.ptr) := ⟨a, ha, rfl⟩
  have hstep : step w (.dealloc t (some a.ptr) answers)
      = some (w.lose ((w.enter answers).dealloc t (some a.ptr)) (some a.ptr)) := if_pos hholds
  exact ⟨_, hstep, recovered_iff hinv ha hs hclass hstep⟩

/-- One thread frees 64 blocks of another and is about to free one more. -/
def fullMagazine : List Label := handPage 8192 63 ++ [.alloc 0 word []]

/-- With a page for the node the full magazine is published, and the block starts the next one. -/
theorem dealloc_recovered_published : ∃ w w', bare.exec bare.init fullMagazine = some w ∧
    ((w.heap.threads 1).freeMags 0).count = MAGAZINE_CAPACITY ∧
    step w (.dealloc 1 (some 8240) [some 4096]) = some w' ∧
    (w'.heap.globalMagazines 0).fullHead = some 4096 ∧
    ((w'.heap.threads 1).freeMags 0).count = 1 ∧ Recovered w w' 1 0 ⟨8240, 8, 8⟩ := by
  have hrun : (bare.exec bare.init fullMagazine).map (fun w =>
      (w.live, ((w.heap.threads 1).freeMags 0).count, decide (w.heap.sys.Free 4096 PAGE_SIZE)))
        = some ([⟨8240, 8, 8⟩], MAGAZINE_CAPACITY, true) := by decide +kernel
  have hnext : (bare.exec bare.init (fullMagazine ++ [.dealloc 1 (some 8240) [some 4096]])).map
      (fun w => ((w.heap.globalMagazines 0).fullHead, ((w.heap.threads 1).freeMags 0).count))
        = some (some 4096, 1) := by decide +kernel
  obtain ⟨w, hw, hstate⟩ := Option.map_eq_some_iff.mp hrun
  obtain ⟨hlive, hrest⟩ := Prod.mk.inj hstate
  obtain ⟨hcount, hpage⟩ := Prod.mk.inj hrest
  obtain ⟨w', hw', hafter⟩ := Option.map_eq_some_iff.mp hnext
  obtain ⟨hhead, hcount'⟩ := Prod.mk.inj hafter
  have hreach : (machine (fun _ => 0) fun _ => false).Reaches w := ⟨_, hw⟩
  have ha : (⟨8240, 8, 8⟩ : Allocation) ∈ w.live := by simp [hlive]
  have hclass : classOf (Allocation.mk 8240 8 8).size = some 0 := by decide
  obtain ⟨w₁, hstep, hiff⟩ := dealloc_recovered_iff hreach ha (by decide) hclass 1 [some 4096]
  -- the step is the last one of the longer run
  rw [Machine.exec_append, hw, Option.bind_some, Machine.exec_step _ hstep] at hw'
  obtain rfl : w₁ = w' := Option.some.inj hw'
  refine ⟨w, w₁, hw, hcount, hstep, hhead, hcount', hiff.mpr (Or.inr (Or.inr ?_))⟩
  exact ⟨4096, [], rfl, of_decide_eq_true hpage⟩

/-- The block is lost when the kernel has no page for a node. -/
theorem dealloc_loses : ∃ w w', bare.exec bare.init fullMagazine = some w ∧
    (⟨8240, 8, 8⟩ : Allocation) ∈ w.live ∧ step w (.dealloc 1 (some 8240) [none]) = some w' ∧
    ¬ Recovered w w' 1 0 ⟨8240, 8, 8⟩ := by
  have hrun : (bare.exec bare.init fullMagazine).map (fun w =>
      (w.live, ((w.heap.threads 1).freeMags 0).count, w.heap.metadata.offset))
        = some ([⟨8240, 8, 8⟩], MAGAZINE_CAPACITY, PAGE_SIZE) := by decide +kernel
  obtain ⟨w, hw, hstate⟩ := Option.map_eq_some_iff.mp hrun
  obtain ⟨hlive, hrest⟩ := Prod.mk.inj hstate
  obtain ⟨hcount, hoffset⟩ := Prod.mk.inj hrest
  have ha : (⟨8240, 8, 8⟩ : Allocation) ∈ w.live := by simp [hlive]
  have hholds : w.Holds (some 8240) := ⟨_, ha, rfl⟩
  obtain ⟨w', hstep⟩ : ∃ w', step w (.dealloc 1 (some 8240) [none]) = some w' :=
    ⟨_, if_pos hholds⟩
  refine ⟨w, w', hw, ha, hstep, fun hrec => ?_⟩
  have hreach : (machine (fun _ => 0) fun _ => false).Reaches w := ⟨_, hw⟩
  obtain ⟨full, empty, hinv⟩ := reaches_good hreach
  rcases (recovered_iff hinv ha (by decide) (by decide) hstep).mp hrec with
    hroom | hfits | ⟨base, rest, hans, -⟩
  · exact hroom hcount
  · rw [hoffset] at hfits
    exact absurd hfits (by decide)
  · exact absurd hans (by simp)

end Aethalloc.Abi
