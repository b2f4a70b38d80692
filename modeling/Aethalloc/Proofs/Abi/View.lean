/-
The heap without its counters.

Most of what a call does to the heap has nothing to do with metrics, with the
kernel's remaining answers or with the initialised flag.  `Heap.core` leaves these
out, and the lemmas say what each small operation does to the core; an operation
that only counts does nothing to it.  Mapping pages is described here once, by the
two ways it can end.
-/
import Aethalloc.Abi.Lib
import Aethalloc.Proofs.Page
import Aethalloc.Proofs.SizeClass

namespace Aethalloc.Abi

open Lib

/-- The parts of the heap that blocks and pointers depend on. -/
structure Core where
  mem : Mem
  mapped : Nat → Bool
  foreign : Nat → Bool
  allocMags : Nat → Nat → Magazine
  freeMags : Nat → Nat → Magazine
  pools : Nat → GlobalMagazinePool
  nodes : NodeHeap
  metadata : MetadataAllocator
  regions : List Region
  carved : Nat → Nat
  cleared : List Magazine
  nodeFailures : Nat

def Heap.core (h : Heap) : Core where
  mem := h.sys.mem
  mapped := h.sys.mapped
  foreign := h.sys.foreign
  allocMags := fun t => (h.threads t).allocMags
  freeMags := fun t => (h.threads t).freeMags
  pools := h.globalMagazines
  nodes := h.nodes
  metadata := h.metadata
  regions := h.regions
  carved := h.carved
  cleared := h.cleared
  nodeFailures := h.nodeFailures

/-- One magazine of one thread replaced. -/
def setMag (mags : Nat → Nat → Magazine) (t cls : Nat) (m : Magazine) : Nat → Nat → Magazine :=
  Function.update mags t (Function.update (mags t) cls m)

theorem setMag_self {mags : Nat → Nat → Magazine} {t cls : Nat} {m : Magazine} :
    setMag mags t cls m t cls = m := by simp [setMag]

theorem setMag_of_ne {mags : Nat → Nat → Magazine} {t cls t' cls' : Nat} {m : Magazine}
    (h : ¬ (t' = t ∧ cls' = cls)) : setMag mags t cls m t' cls' = mags t' cls' := by
  unfold setMag
  by_cases ht : t' = t
  · subst ht
    have hc : cls' ≠ cls := fun hc => h ⟨rfl, hc⟩
    rw [Function.update_self, Function.update_of_ne hc]
  · rw [Function.update_of_ne ht]

@[simp] theorem setMag_same {mags : Nat → Nat → Magazine} {t cls : Nat} :
    setMag mags t cls (mags t cls) = mags := by simp [setMag]

namespace Heap

variable {h : Heap} {t cls : Nat}

theorem allocMags_eq : (h.threads t).allocMags cls = h.core.allocMags t cls := rfl

theorem freeMags_eq : (h.threads t).freeMags cls = h.core.freeMags t cls := rfl

/-- A thread's counters are not in the core. -/
@[simp] theorem core_updateMetrics {f : ThreadMetrics → ThreadMetrics} :
    (h.updateMetrics t f).core = h.core := by
  have hmags : ∀ t', ((h.updateMetrics t f).threads t').allocMags = (h.threads t').allocMags ∧
      ((h.updateMetrics t f).threads t').freeMags = (h.threads t').freeMags := by
    intro t'
    unfold updateMetrics updateCache
    by_cases ht : t' = t
    · subst ht; simp
    · simp [Function.update_of_ne ht]
  unfold core
  simp only [hmags]
  rfl

@[simp] theorem core_maybeFlush : (h.maybeFlush t).core = h.core :=
  core_updateMetrics (h := h) (t := t)
    (f := fun _ => ((h.threads t).metrics.maybeFlush h.globalMetrics).1)

@[simp] theorem core_countFree : (h.countFree t).core = h.core := by
  unfold countFree
  rw [core_maybeFlush, core_updateMetrics]

theorem core_setAllocMag {m : Magazine} :
    (h.setAllocMag t cls m).core
      = { h.core with allocMags := setMag h.core.allocMags t cls m } := by
  have hmags : (fun t' => ((h.setAllocMag t cls m).threads t').allocMags)
      = setMag h.core.allocMags t cls m := by
    funext t'
    unfold setAllocMag updateCache setMag
    by_cases ht : t' = t
    · subst ht; simp [core]
    · simp [Function.update_of_ne ht, core]
  have hfree : (fun t' => ((h.setAllocMag t cls m).threads t').freeMags)
      = fun t' => (h.threads t').freeMags := by
    funext t'
    unfold setAllocMag updateCache
    by_cases ht : t' = t
    · subst ht; simp
    · simp [Function.update_of_ne ht]
  rw [core, hmags, hfree]
  rfl

theorem core_setFreeMag {m : Magazine} :
    (h.setFreeMag t cls m).core = { h.core with freeMags := setMag h.core.freeMags t cls m } := by
  have hmags : (fun t' => ((h.setFreeMag t cls m).threads t').freeMags)
      = setMag h.core.freeMags t cls m := by
    funext t'
    unfold setFreeMag updateCache setMag
    by_cases ht : t' = t
    · subst ht; simp [core]
    · simp [Function.update_of_ne ht, core]
  have halloc : (fun t' => ((h.setFreeMag t cls m).threads t').allocMags)
      = fun t' => (h.threads t').allocMags := by
    funext t'
    unfold setFreeMag updateCache
    by_cases ht : t' = t
    · subst ht; simp
    · simp [Function.update_of_ne ht]
  rw [core, hmags, halloc]
  rfl

theorem core_write {a n v : Nat} :
    (h.write a n v).core = { h.core with mem := h.core.mem.write a n v } := rfl

/-- Serving a block writes its header. -/
theorem serve_eq (h : Heap) (t size block : Nat) :
    ∃ h', h.serve t size block = (h', some (block + 16)) ∧
      h'.core = { h.core with mem := h.core.mem.write block 8 size } := by
  refine ⟨_, rfl, ?_⟩
  rw [core_write, core_maybeFlush, core_updateMetrics]

end Heap

/-! ### Mapping pages -/

/-- Nobody has mapped the pages. -/
def Core.Free (k : Core) (base pages : Nat) : Prop :=
  base ≠ 0 ∧ base % PAGE_SIZE = 0 ∧ base + pages * PAGE_SIZE ≤ 2 ^ 64 ∧
    ∀ i < pages, k.mapped (base / PAGE_SIZE + i) = false ∧ k.foreign (base / PAGE_SIZE + i) = false

/-- The core after zeroed pages were mapped. -/
def Core.map (k : Core) (base pages : Nat) (purpose : Purpose) : Core :=
  { k with
    mem := k.mem.fill base (pages * PAGE_SIZE) 0
    mapped := fun page =>
      if base / PAGE_SIZE ≤ page ∧ page < base / PAGE_SIZE + pages then true else k.mapped page
    regions := { base := base, pages := pages, purpose := purpose } :: k.regions }

theorem Heap.mapPages_snd {h : Heap} {pages : Nat} {purpose : Purpose} :
    (h.mapPages pages purpose).2 = (PageAllocator.alloc h.sys pages).2 := by
  unfold Heap.mapPages
  cases hal : PageAllocator.alloc h.sys pages with
  | mk sys base =>
      cases base with
      | none => rfl
      | some base => rfl

/-- A mapping fails and changes nothing, or yields pages nobody had. -/
theorem Heap.mapPages_cases (h : Heap) (pages : Nat) (purpose : Purpose) (hpos : pages ≠ 0)
    (hlt : pages * PAGE_SIZE < 2 ^ 64) :
    (∃ h', h.mapPages pages purpose = (h', none) ∧ h'.core = h.core) ∨
      ∃ h' base, h.mapPages pages purpose = (h', some base) ∧ h.core.Free base pages ∧
        h'.core = h.core.map base pages purpose := by
  unfold Heap.mapPages
  rcases PageAllocator.alloc_cases h.sys pages hpos hlt with ⟨rest, heq⟩ | ⟨base, rest, hfree, heq⟩
  · rw [heq]
    exact Or.inl ⟨_, rfl, rfl⟩
  · rw [heq]
    exact Or.inr ⟨_, base, rfl, hfree, rfl⟩

/-- The core after pages were unmapped. -/
def Core.unmap (k : Core) (base pages : Nat) : Core :=
  { k with
    mapped := fun page =>
      if base / PAGE_SIZE ≤ page ∧ page < base / PAGE_SIZE + pages then false else k.mapped page
    regions := k.regions.filter (·.base ≠ base) }

theorem Heap.unmapPages_core {h : Heap} {base pages : Nat} (hpos : pages ≠ 0)
    (hal : base % PAGE_SIZE = 0) (hlt : pages * PAGE_SIZE < 2 ^ 64) :
    (h.unmapPages base pages).core = h.core.unmap base pages := by
  unfold Heap.unmapPages
  rw [PageAllocator.dealloc_eq hpos hal hlt]
  rfl

end Aethalloc.Abi
