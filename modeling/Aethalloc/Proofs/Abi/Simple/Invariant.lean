/-
What holds between two calls in simple-cache mode.

The lists of all threads and the global ones are one family, and a block is in one
place: live, or on one of these lists.  The links run through the word that is the
header of a block while it is live, so what keeps the lists and the headers from
each other's way is that no block is in two places and that different blocks share
no byte.

`Heap.core` leaves out the counters and the kernel's remaining answers.
-/
import Aethalloc.Lib.Bins
import Aethalloc.Abi.SimpleCache
import Aethalloc.Proofs.Abi.Holdings

namespace Aethalloc.Abi.Simple

open Lib

/-- A list of free blocks: of a thread and a class, or the global one of a class. -/
inductive Shelf
  | cache (t cls : Nat)
  | shared (cls : Nat)
  deriving DecidableEq

def Shelf.cls : Shelf → Nat
  | cache _ cls => cls
  | shared cls => cls

/-! ### The heap without its counters -/

/-- The parts of the heap that blocks and pointers depend on. -/
structure Core where
  arena : Arena
  heads : Shelf → Option Nat
  counts : Nat × Nat → Nat
  carved : Nat → List Nat

def Core.setMem (k : Core) (mem : Mem) : Core := { k with arena := { k.arena with mem := mem } }

/-- A block is put in front of a thread's list. -/
def Core.push (k : Core) (t c b : Nat) : Core :=
  { k.setMem (Link.pointer.write k.arena.mem b (k.heads (.cache t c))) with
    heads := Function.update k.heads (.cache t c) (some b)
    counts := Function.update k.counts (t, c) (k.counts (t, c) + 1) }

/-- The front part of a thread's list, up to the block `b`, goes to the global list of the class,
and `n` blocks stay. -/
def Core.flush (k : Core) (t c b n : Nat) : Core :=
  { k.setMem (Link.pointer.write (Link.pointer.write k.arena.mem b none) b
      (k.heads (.shared c))) with
    heads := Function.update (Function.update k.heads (.cache t c)
      (Link.pointer.read k.arena.mem b)) (.shared c) (k.heads (.cache t c))
    counts := Function.update k.counts (t, c) n }

/-- Where every list starts. -/
def heads (threads : Nat → ThreadCache) (globals : Nat → GlobalFreeList) : Shelf → Option Nat
  | .cache t c => (threads t).heads c
  | .shared c => (globals c).head

namespace Heap

def core (h : Heap) : Core where
  arena := {
    mem := h.sys.mem
    mapped := h.sys.mapped
    foreign := h.sys.foreign
    regions := h.regions }
  heads := heads h.threads h.globalFreeLists
  counts := fun i => (h.threads i.1).counts i.2
  carved := h.carved

variable {h : Heap} {t c b : Nat}

/-- A thread's lists and counts are all that is in the core of its cache. -/
theorem core_updateCache {f : ThreadCache → ThreadCache}
    (hheads : (f (h.threads t)).heads = (h.threads t).heads)
    (hcounts : (f (h.threads t)).counts = (h.threads t).counts) :
    (h.updateCache t f).core = h.core := by
  have hthread : ∀ t', ((h.updateCache t f).threads t').heads = (h.threads t').heads ∧
      ((h.updateCache t f).threads t').counts = (h.threads t').counts := by
    intro t'
    unfold updateCache
    by_cases ht : t' = t
    · subst ht
      simp only [Function.update_self]
      exact ⟨hheads, hcounts⟩
    · simp only [Function.update_of_ne ht, and_self]
  have hhead : heads (h.updateCache t f).threads (h.updateCache t f).globalFreeLists
      = heads h.threads h.globalFreeLists := by
    funext s
    cases s with
    | cache t' c' => simp only [heads, hthread]
    | shared c' => rfl
  unfold core
  rw [hhead]
  simp only [hthread]
  rfl

@[simp] theorem core_updateMetrics {f : ThreadMetrics → ThreadMetrics} :
    (h.updateMetrics t f).core = h.core := core_updateCache rfl rfl

@[simp] theorem core_maybeFlush : (h.maybeFlush t).core = h.core :=
  core_updateMetrics (h := h) (t := t)
    (f := fun _ => ((h.threads t).metrics.maybeFlush h.globalMetrics).1)

@[simp] theorem core_countFree : (h.countFree t).core = h.core := by
  unfold countFree
  rw [core_maybeFlush, core_updateMetrics]

theorem core_setList {p : Option Nat} {n : Nat} : (h.setList t c p n).core = { h.core with
    heads := Function.update h.core.heads (.cache t c) p
    counts := Function.update h.core.counts (t, c) n } := by
  have hhead : heads (h.setList t c p n).threads (h.setList t c p n).globalFreeLists
      = Function.update (heads h.threads h.globalFreeLists) (.cache t c) p := by
    funext s
    unfold setList updateCache
    cases s with
    | shared c' =>
        rw [Function.update_of_ne (by simp)]
        rfl
    | cache t' c' =>
        unfold heads
        by_cases ht : t' = t
        · subst ht
          by_cases hc : c' = c
          · subst hc
            simp
          · rw [Function.update_of_ne (by simpa using hc)]
            simp [Function.update_of_ne hc]
        · rw [Function.update_of_ne (by simp [ht])]
          simp [Function.update_of_ne ht]
  have hcount : (fun i : Nat × Nat => ((h.setList t c p n).threads i.1).counts i.2)
      = Function.update h.core.counts (t, c) n := by
    funext i
    obtain ⟨t', c'⟩ := i
    unfold setList updateCache
    by_cases ht : t' = t
    · subst ht
      by_cases hc : c' = c
      · subst hc
        simp
      · rw [Function.update_of_ne (by simpa using hc)]
        simp [Function.update_of_ne hc, core]
    · rw [Function.update_of_ne (by simp [ht])]
      simp [Function.update_of_ne ht, core]
  unfold core
  rw [hhead, hcount]
  rfl

theorem core_setMem {mem : Mem} : (h.setMem mem).core = h.core.setMem mem := rfl

theorem core_write {a n v : Nat} :
    (h.write a n v).core = h.core.setMem (h.core.arena.mem.write a n v) := rfl

theorem core_carve : (h.carve c b).core
    = { h.core with carved := Function.update h.core.carved c (b :: h.core.carved c) } := rfl

theorem core_pushLocal : (h.pushLocal t c b).core = h.core.push t c b := by
  unfold pushLocal
  simp only
  rw [core_setList]
  unfold writeLink
  rw [core_setMem]
  rfl

/-- The head of a global list moves. -/
theorem core_setGlobal {p : Option Nat} : Heap.core { h with
      globalFreeLists := Function.update h.globalFreeLists c { head := p } }
    = { h.core with heads := Function.update h.core.heads (.shared c) p } := by
  have hhead : heads h.threads (Function.update h.globalFreeLists c { head := p })
      = Function.update (heads h.threads h.globalFreeLists) (.shared c) p := by
    funext s
    cases s with
    | cache t' c' =>
        rw [Function.update_of_ne (by simp)]
        rfl
    | shared c' =>
        unfold heads
        by_cases hc : c' = c
        · subst hc
          simp
        · rw [Function.update_of_ne (by simpa using hc)]
          simp [Function.update_of_ne hc]
  unfold core
  rw [hhead]

/-- A mapping fails and changes nothing, or yields pages nobody had. -/
theorem mapPages_cases (h : Heap) (pages : Nat) (purpose : Purpose) (hpos : pages ≠ 0)
    (hlt : pages * PAGE_SIZE < 2 ^ 64) :
    (∃ h', h.mapPages pages purpose = (h', none) ∧ h'.core = h.core) ∨
      ∃ h' base, h.mapPages pages purpose = (h', some base) ∧ h.core.arena.Free base pages ∧
        h'.core = { h.core with arena := h.core.arena.map base pages purpose } := by
  unfold mapPages
  rcases PageAllocator.alloc_cases h.sys pages hpos hlt with ⟨rest, heq⟩ | ⟨base, rest, hfree, heq⟩
  · rw [heq]
    exact Or.inl ⟨_, rfl, rfl⟩
  · rw [heq]
    exact Or.inr ⟨_, base, rfl, hfree, rfl⟩

theorem unmapPages_core {base pages : Nat} (hpos : pages ≠ 0) (hal : base % PAGE_SIZE = 0)
    (hlt : pages * PAGE_SIZE < 2 ^ 64) :
    (h.unmapPages base pages).core = { h.core with arena := h.core.arena.unmap base pages } := by
  unfold unmapPages
  rw [PageAllocator.dealloc_eq hpos hal hlt]
  rfl

end Heap

/-! ### Places -/

/-- Where a block can be. -/
inductive Place
  | live (cls : Nat)
  | listed (s : Shelf)
  deriving DecidableEq

def Place.cls : Place → Nat
  | live cls => cls
  | listed s => s.cls

/-- What is at each place, with `F` the lists. -/
def contents (F : Shelf → List Nat) (L : List Allocation) : Place → List Nat
  | .live c => liveBlocks L c
  | .listed s => F s

/-- Every block that was carved for a class is at one place of the class, and nothing else is. -/
structure Placed (R : List Region) (carved : Nat → List Nat) (C : Place → List Nat) : Prop where
  exclusive : Exclusive C
  grid : ∀ p, ∀ b ∈ C p, Carved R b p.cls
  complete : ∀ b c, b ∈ carved c ↔ Held Place.cls C b c

/-- Everything that holds between two calls, but for the limit of the counts. -/
structure Inv (F : Shelf → List Nat) (k : Core) (L : List Allocation) : Prop where
  ground : Ground k.arena L
  chains : ∀ s, Chain (Link.pointer.read k.arena.mem) (k.heads s) (F s)
  counts : ∀ t c, k.counts (t, c) = (F (.cache t c)).length
  placed : Placed k.arena.regions k.carved (contents F L)

/-- No list is as long as a flush lets it become. -/
def Limited (F : Shelf → List Nat) : Prop := ∀ t c, (F (.cache t c)).length < MAX_FREE_LIST_LENGTH

end Aethalloc.Abi.Simple
