/-
No event is lost or counted twice.

Every path of a call bumps its counters once, wherever it leaves the heap otherwise,
so a call adds its events to the thread's own counters.  A flush moves the counters
one by one: between its `fetch_add`s some of them are in the global counters already
and still in the thread's, and count only once.  The invariant sums what is still
due.  It holds at every step of every thread, and when no flush is in progress all
of the threads' counters are due.

Counters are 64 bits wide, so the sums are compared modulo 2^64.
-/
import Mathlib.Algebra.BigOperators.Intervals
import Mathlib.Data.Nat.ModEq
import Aethalloc.Abi.Metrics
import Aethalloc.Proofs.Abi.Carving

namespace Aethalloc.Abi

open Lib

variable {h h' : Heap} {t t' c size align cls : Nat}

/-! ### What leaves the counters alone -/

/-- All counters, the threads' and the global ones. -/
def Heap.meters (h : Heap) : (Nat → ThreadMetrics) × GlobalMetrics :=
  (h.localMetrics, h.globalMetrics)

namespace Heap

theorem localMetrics_updateCache {f : ThreadCache → ThreadCache} :
    (h.updateCache t f).localMetrics t'
      = if t' = t then (f (h.threads t)).metrics else h.localMetrics t' := by
  unfold localMetrics updateCache
  by_cases ht : t' = t
  · subst ht
    simp
  · simp [ht]

/-- Magazines are not counters. -/
theorem meters_updateCache {f : ThreadCache → ThreadCache}
    (hf : (f (h.threads t)).metrics = (h.threads t).metrics) :
    (h.updateCache t f).meters = h.meters := by
  have hlocal : (h.updateCache t f).localMetrics = h.localMetrics := by
    funext t'
    rw [localMetrics_updateCache]
    split
    · rename_i ht
      rw [ht]
      exact hf
    · rfl
  unfold meters
  rw [hlocal]
  rfl

@[simp] theorem meters_setAllocMag {m : Magazine} : (h.setAllocMag t cls m).meters = h.meters :=
  meters_updateCache rfl

@[simp] theorem meters_setFreeMag {m : Magazine} : (h.setFreeMag t cls m).meters = h.meters :=
  meters_updateCache rfl

@[simp] theorem meters_write {a n v : Nat} : (h.write a n v).meters = h.meters := rfl

@[simp] theorem meters_setPool {pool : GlobalMagazinePool} {nodes : NodeHeap} :
    (h.setPool cls pool nodes).meters = h.meters := rfl

@[simp] theorem meters_mapPages {pages : Nat} {purpose : Purpose} :
    (h.mapPages pages purpose).1.meters = h.meters := by
  unfold mapPages
  rcases PageAllocator.alloc h.sys pages with ⟨sys, _ | base⟩ <;> rfl

@[simp] theorem meters_unmapHeader {base : Nat} : (h.unmapHeader base).meters = h.meters := by
  unfold unmapHeader
  split <;> rfl

@[simp] theorem meters_swapNode {node : Nat} : (h.swapNode t cls node).meters = h.meters :=
  meters_setAllocMag

@[simp] theorem meters_allocNode : h.allocNode.1.meters = h.meters := by
  have hmap : (h.mapPages 1 .metadata).1.meters = h.meters := meters_mapPages
  unfold allocNode
  simp only
  split
  · rfl
  · rcases hm : h.mapPages 1 .metadata with ⟨h', _ | newPage⟩
    · rw [hm] at hmap
      exact hmap
    · rw [hm] at hmap
      exact hmap

@[simp] theorem meters_publish : (h.publish t cls).meters = h.meters := by
  have hnode := meters_allocNode (h := h)
  unfold publish
  rcases hn : h.allocNode with ⟨h', _ | node⟩
  · rw [hn] at hnode
    exact hnode
  · rw [hn] at hnode
    exact meters_setFreeMag.trans hnode

@[simp] theorem meters_findGlobal : (h.findGlobal t cls).1.meters = h.meters := by
  unfold findGlobal
  split
  · rfl
  · simp only
    split <;> simp

@[simp] theorem meters_findSwapped : (h.findSwapped t cls).1.meters = h.meters := by
  unfold findSwapped
  split
  · exact meters_findGlobal
  · simp only
    split <;> simp

@[simp] theorem meters_findCached : (h.findCached t cls).1.meters = h.meters := by
  unfold findCached
  split <;> simp

theorem meters_finish (rest : Rest) : (h.finish rest).1.meters = h.meters := by
  cases rest with
  | serve size block => rfl
  | page ptr => rfl
  | large size align =>
      unfold finish
      simp only
      generalize max ((PAGE_HEADER_SIZE + LARGE_HEADER_SIZE + size + align + PAGE_SIZE - 1)
        / PAGE_SIZE) 1 = pages
      have hmap : (h.mapPages pages .large).1.meters = h.meters := meters_mapPages
      rcases hm : h.mapPages pages .large with ⟨h', _ | base⟩
      · rw [hm] at hmap
        exact hmap
      · rw [hm] at hmap
        exact hmap
  | nothing => rfl

end Heap

/-! ### What a call counts -/

/-- A counter after `k` more events: without any it is not written. -/
def counted (v k : Nat) : Nat := if k = 0 then v else (v + k) % 2 ^ 64

theorem counted_zero (v : Nat) : counted v 0 = v := rfl

theorem counted_modEq (v k : Nat) : counted v k ≡ v + k [MOD 2 ^ 64] := by
  unfold counted
  split
  · rename_i hk
    rw [hk]
    rfl
  · exact Nat.mod_modEq _ _

theorem counted_le (v k : Nat) : counted v k ≤ v + k := by
  unfold counted
  split
  · exact Nat.le_add_right v k
  · exact Nat.mod_le _ _

/-- The thread has counted these events, and nothing else was counted. -/
structure Counts (t : Nat) (cs : List Counter) (h h' : Heap) : Prop where
  global : h'.globalMetrics = h.globalMetrics
  locals : ∀ t' c, (h'.localMetrics t').get c
    = counted ((h.localMetrics t').get c) (if t' = t then cs.count c else 0)

namespace Counts

variable {cs : List Counter} {h₀ : Heap}

theorem nothing (hm : h'.meters = h.meters) : Counts t [] h h' := by
  obtain ⟨hlocal, hglobal⟩ := Prod.mk.inj hm
  refine ⟨hglobal, fun t' c => ?_⟩
  rw [hlocal, List.count_nil, ite_self, counted_zero]

/-- Whatever a call does after it has counted. -/
theorem before (hc : Counts t cs h h₀) (hm : h'.meters = h₀.meters) : Counts t cs h h' := by
  obtain ⟨hlocal, hglobal⟩ := Prod.mk.inj hm
  refine ⟨hglobal.trans hc.global, fun t' c => ?_⟩
  rw [hlocal]
  exact hc.locals t' c

/-- Whatever it did before. -/
theorem after (hm : h₀.meters = h.meters) (hc : Counts t cs h₀ h') : Counts t cs h h' := by
  obtain ⟨hlocal, hglobal⟩ := Prod.mk.inj hm
  refine ⟨hc.global.trans hglobal, fun t' c => ?_⟩
  rw [hc.locals t' c, hlocal]

theorem bump {f : ThreadMetrics → ThreadMetrics}
    (hf : ∀ m c, (f m).get c = counted (m.get c) (cs.count c)) :
    Counts t cs h (h.updateMetrics t f) := by
  refine ⟨rfl, fun t' c => ?_⟩
  unfold Heap.updateMetrics
  rw [Heap.localMetrics_updateCache]
  by_cases ht : t' = t
  · subst ht
    rw [if_pos rfl, if_pos rfl]
    exact hf _ c
  · rw [if_neg ht, if_neg ht]
    rfl

end Counts

namespace Heap

theorem meters_singleStart {blockSize : Nat} :
    (h.singleStart size blockSize cls).1.meters = h.meters := by
  unfold singleStart
  simp only
  generalize max ((blockSize + PAGE_SIZE - 1) / PAGE_SIZE) 1 = pages
  have hmap : (h.mapPages pages (.small cls)).1.meters = h.meters := meters_mapPages
  rcases hm : h.mapPages pages (.small cls) with ⟨h', _ | base⟩
  · rw [hm] at hmap
    exact hmap
  · rw [hm] at hmap
    exact hmap

/-- A miss counts as one, also where it runs out of memory. -/
theorem missStart_counts {cacheSize : Nat} :
    Counts t [.allocs, .cacheMisses] h (h.missStart t size cacheSize cls).1 := by
  unfold missStart
  generalize hh₀ : (h.updateMetrics t ThreadMetrics.countMiss) = h₀
  have hbump : Counts t [.allocs, .cacheMisses] h h₀ := by
    rw [← hh₀]
    refine Counts.bump fun m c => ?_
    cases c <;> rfl
  refine hbump.before ?_
  simp only
  split
  · have hmap : (h₀.mapPages 1 (.small cls)).1.meters = h₀.meters := meters_mapPages
    rcases hm : h₀.mapPages 1 (.small cls) with ⟨h', _ | base⟩
    · rw [hm] at hmap
      exact meters_singleStart.trans hmap
    · rw [hm] at hmap
      simp only [meters_write]
      split
      · exact meters_setAllocMag.trans hmap
      · exact hmap
  · exact meters_singleStart

theorem smallStart_counts {cacheSize : Nat} : Counts t
    [.allocs, if (h.findCached t cls).2.isSome then .cacheHits else .cacheMisses] h
      (h.smallStart t size cacheSize cls).1 := by
  have hfound : (h.findCached t cls).1.meters = h.meters := meters_findCached
  unfold smallStart
  rcases hf : h.findCached t cls with ⟨h₀, _ | block⟩
  · rw [hf] at hfound
    exact Counts.after hfound missStart_counts
  · rw [hf] at hfound
    have hbump : Counts t [.allocs, .cacheHits] h₀ (h₀.updateMetrics t ThreadMetrics.countHit) := by
      refine Counts.bump fun m c => ?_
      cases c <;> rfl
    exact Counts.after hfound hbump

theorem largeStart_counts :
    Counts t [.allocs, .directAllocs] h (h.largeStart t size align).1 := by
  have hbump : Counts t [.allocs, .directAllocs] h (h.updateMetrics t ThreadMetrics.countDirect) := by
    refine Counts.bump fun m c => ?_
    cases c <;> rfl
  exact hbump

/-- An allocation counts itself and how it was served. -/
theorem allocStart_counts (layout : Layout) (answers : List (Option Nat)) :
    Counts t (Metrics.happened h (.alloc t layout answers)) h
      ((Metrics.enter h answers).allocStart t layout).1 := by
  have henter : (Metrics.enter h answers).meters = h.meters := rfl
  refine Counts.after henter ?_
  unfold allocStart Metrics.happened Metrics.kind
  simp only
  split
  · exact Counts.nothing rfl
  · split
    · cases sizeToClass (max (roundUpPow2 layout.size) 16) with
      | none => exact largeStart_counts
      | some cls => exact smallStart_counts
    · exact largeStart_counts

theorem bumpFree_counts : Counts t [.frees] h (h.bumpFree t) := by
  refine Counts.bump fun m c => ?_
  cases c <;> rfl

/-- A deallocation counts itself, whatever the pointer turns out to be. -/
theorem deallocStart_counts (ptr : Nat) (answers : List (Option Nat)) :
    Counts t [.frees] h ((Metrics.enter h answers).deallocStart t ptr) := by
  have henter : (Metrics.enter h answers).meters = h.meters := rfl
  refine Counts.after henter ?_
  generalize Metrics.enter h answers = h
  unfold deallocStart
  split
  · exact Counts.after meters_unmapHeader bumpFree_counts
  · cases h.headerClass ptr with
    | none => exact Counts.after meters_unmapHeader bumpFree_counts
    | some cls =>
        simp only
        unfold deallocSmallStart
        split
        · exact Counts.after meters_setFreeMag bumpFree_counts
        · exact Counts.after (meters_setFreeMag.trans meters_publish) bumpFree_counts

end Heap

/-! ### The parts of a call make up the call -/

namespace Heap

/-- A flush that is asked for is the one that can be called. -/
theorem maybeFlush_full (hfull : (h.localMetrics t).Full) :
    h.maybeFlush t = h.flushThreadMetrics t := by
  have hflush : (h.threads t).metrics.maybeFlush h.globalMetrics
      = (ThreadMetrics.new, h.globalMetrics.add (h.threads t).metrics) := if_pos hfull
  unfold maybeFlush
  rw [hflush]
  rfl

theorem maybeFlush_not_full (hfull : ¬ (h.localMetrics t).Full) : h.maybeFlush t = h := by
  have hkeep : (h.threads t).metrics.maybeFlush h.globalMetrics
      = ((h.threads t).metrics, h.globalMetrics) := if_neg hfull
  unfold maybeFlush updateMetrics updateCache
  rw [hkeep]
  simp only [Function.update_eq_self]

theorem serve_finish {block : Nat} : h.serve t size block
    = ((h.updateMetrics t ThreadMetrics.countHit).maybeFlush t).finish
        (.serve size block) := rfl

theorem allocSingle_finish {blockSize : Nat} : h.allocSingle t size blockSize cls =
    match h.singleStart size blockSize cls with
    | (h, none) => (h, none)
    | (h, some rest) => (h.maybeFlush t).finish rest := by
  unfold allocSingle singleStart
  simp only
  rcases h.mapPages _ (.small cls) with ⟨h', _ | base⟩
  · rfl
  · rfl

theorem allocMiss_finish {cacheSize : Nat} : h.allocMiss t size cacheSize cls =
    match h.missStart t size cacheSize cls with
    | (h, none) => (h, none)
    | (h, some rest) => (h.maybeFlush t).finish rest := by
  -- kept closed, or the kernel goes on to compute how many pages it takes
  obtain ⟨single, hsingle⟩ : ∃ single : Heap → Heap × Option Rest,
      ∀ h, h.singleStart size (cacheSize + CACHE_HEADER_SIZE) cls = single h := ⟨_, fun _ => rfl⟩
  unfold allocMiss missStart
  generalize (h.updateMetrics t ThreadMetrics.countMiss) = h₀
  simp only [allocSingle_finish, hsingle]
  split
  · rcases h₀.mapPages 1 (.small cls) with ⟨h', _ | base⟩
    · rfl
    · rfl
  · rfl

/-- `alloc` is its start, its flush and the rest of it. -/
theorem alloc_finish (layout : Layout) : h.alloc t layout =
    match h.allocStart t layout with
    | (h, none) => (h, none)
    | (h, some rest) => (h.maybeFlush t).finish rest := by
  unfold alloc allocStart
  simp only
  split
  · rfl
  · split
    · cases sizeToClass (max (roundUpPow2 layout.size) 16) with
      | none => rfl
      | some cls =>
          simp only
          rw [allocSmall_eq]
          unfold smallStart
          rcases h.findCached t cls with ⟨h₀, _ | block⟩
          · exact allocMiss_finish
          · exact serve_finish
    · rfl

/-- So is `dealloc`, which has nothing left to do then. -/
theorem dealloc_finish (ptr : Nat) :
    h.dealloc t (some ptr) = (h.deallocStart t ptr).maybeFlush t := by
  unfold dealloc deallocStart
  simp only
  split
  · rfl
  · cases h.headerClass ptr with
    | none => rfl
    | some cls =>
        simp only
        unfold deallocSmall deallocSmallStart
        rcases ((h.threads t).freeMags cls).push (ptr - CACHE_HEADER_SIZE) with ⟨_ | _, m⟩
        · rfl
        · rfl

end Heap

/-! ### The invariant -/

namespace Metrics

variable {n : Nat} {w w' : World} {l : Label} {f : Flush} {mem : Mem} {foreign : Nat → Bool}

/-- What of a thread's counter is not in the global one yet: all of it, unless a flush has just
added it. -/
def due (w : World) (t : Nat) (c : Counter) : Nat :=
  match w.flushing t with
  | none => (w.heap.localMetrics t).get c
  | some f => if c ∈ f.left then (w.heap.localMetrics t).get c else 0

/-- A global counter with what the threads have still to add to it. -/
def accounted (n : Nat) (w : World) (c : Counter) : Nat :=
  w.heap.globalMetrics.get c + ∑ t ∈ Finset.range n, due w t c

structure Inv (n : Nat) (w : World) : Prop where
  balanced : ∀ c, accounted n w c ≡ w.events c [MOD 2 ^ 64]
  /-- No flush adds a counter twice. -/
  once : ∀ t f, w.flushing t = some f → f.left.Nodup
  kinds : w.events .allocs = w.events .cacheHits + w.events .cacheMisses + w.events .directAllocs

/-- A step of one thread changes one summand. -/
theorem sum_due (ht : t < n) (c : Counter) (hothers : ∀ t' ≠ t, due w' t' c = due w t' c) :
    (∑ t ∈ Finset.range n, due w' t c) + due w t c
      = (∑ t ∈ Finset.range n, due w t c) + due w' t c := by
  have hmem : t ∈ Finset.range n := Finset.mem_range.mpr ht
  have hrest : ∑ t' ∈ (Finset.range n).erase t, due w' t' c
      = ∑ t' ∈ (Finset.range n).erase t, due w t' c :=
    Finset.sum_congr rfl fun t' ht' => hothers t' (Finset.ne_of_mem_erase ht')
  rw [← Finset.add_sum_erase _ _ hmem, ← Finset.add_sum_erase _ (fun t => due w t c) hmem, hrest]
  omega

theorem mem_all (c : Counter) : c ∈ Counter.all := by cases c <;> decide

/-- What a step does: a whole call or its part before the flush, one `fetch_add`, or the end of the
flush and of its call. -/
inductive Acted (w : World) (l : Label) (w' : World) : Prop
  | call (hidle : w.flushing l.thread = none)
      (hcounts : Counts l.thread (happened w.heap l) w.heap w'.heap)
      (hflushing : w'.flushing = w.flushing ∨ ∃ rest, w'.flushing
        = Function.update w.flushing l.thread (some ⟨Counter.all, rest⟩))
  | added {c : Counter} {left : List Counter} {rest : Rest}
      (hflush : w.flushing l.thread = some ⟨c :: left, rest⟩) (hnone : happened w.heap l = [])
      (hlocal : w'.heap.localMetrics = w.heap.localMetrics)
      (hglobal : w'.heap.globalMetrics = w.heap.globalMetrics.fetchAdd
        ((w.heap.localMetrics l.thread).get c) c)
      (hflushing : w'.flushing = Function.update w.flushing l.thread (some ⟨left, rest⟩))
  | ended {rest : Rest} (hflush : w.flushing l.thread = some ⟨[], rest⟩)
      (hnone : happened w.heap l = [])
      (hlocal : w'.heap.localMetrics
        = Function.update w.heap.localMetrics l.thread ThreadMetrics.new)
      (hglobal : w'.heap.globalMetrics = w.heap.globalMetrics)
      (hflushing : w'.flushing = Function.update w.flushing l.thread none)

/-- The end of a call's first part. -/
theorem acted_maybeFlush {h : Heap} {rest : Rest} (hidle : w.flushing l.thread = none)
    (hcounts : Counts l.thread (happened w.heap l) w.heap h) :
    Acted w l (w.maybeFlush l.thread h rest) := by
  unfold World.maybeFlush
  split
  · exact .call hidle hcounts (Or.inr ⟨rest, rfl⟩)
  · exact .call hidle (hcounts.before (Heap.meters_finish rest)) (Or.inl rfl)

theorem act_cases (h : act w l (w.flushing l.thread) = some w') : Acted w l w' := by
  cases hflush : w.flushing l.thread with
  | none =>
      rw [hflush] at h
      cases l with
      | alloc t layout answers =>
          have hcounts := Heap.allocStart_counts (h := w.heap) (t := t) layout answers
          simp only [act] at h
          rcases hs : (enter w.heap answers).allocStart t layout with ⟨h₁, _ | rest⟩
          · rw [hs] at h hcounts
            obtain rfl := Option.some.inj h
            exact .call hflush hcounts (Or.inl rfl)
          · rw [hs] at h hcounts
            obtain rfl := Option.some.inj h
            exact acted_maybeFlush (l := .alloc t layout answers) hflush hcounts
      | dealloc t ptr answers =>
          cases ptr with
          | none =>
              obtain rfl := Option.some.inj h
              exact .call hflush (Counts.nothing rfl) (Or.inl rfl)
          | some ptr =>
              obtain rfl := Option.some.inj h
              exact acted_maybeFlush (l := .dealloc t (some ptr) answers) hflush
                (Heap.deallocStart_counts ptr answers)
      | flushThreadMetrics t =>
          obtain rfl := Option.some.inj h
          exact .call hflush (Counts.nothing rfl) (Or.inr ⟨.nothing, rfl⟩)
      | fetchAdd t => cases h
      | reset t answers => cases h
      | write t addr byte =>
          obtain rfl := Option.some.inj h
          exact .call hflush (Counts.nothing rfl) (Or.inl rfl)
      | foreign t page mapped =>
          obtain rfl := Option.some.inj h
          exact .call hflush (Counts.nothing rfl) (Or.inl rfl)
  | some f =>
      obtain ⟨left, rest⟩ := f
      rw [hflush] at h
      cases l with
      | alloc t layout answers => cases h
      | dealloc t ptr answers => cases h
      | flushThreadMetrics t => cases h
      | write t addr byte => cases h
      | foreign t page mapped => cases h
      | fetchAdd t =>
          cases left with
          | nil => cases h
          | cons c left =>
              obtain rfl := Option.some.inj h
              exact .added hflush rfl rfl rfl rfl
      | reset t answers =>
          cases left with
          | cons c left => cases h
          | nil =>
              obtain rfl := Option.some.inj h
              have hmeters := Heap.meters_finish (h := enter (w.heap.updateMetrics t fun _ =>
                ThreadMetrics.new) answers) rest
              obtain ⟨hlocal, hglobal⟩ := Prod.mk.inj hmeters
              refine .ended hflush rfl (hlocal.trans ?_) hglobal rfl
              funext t'
              change (w.heap.updateMetrics t fun _ => ThreadMetrics.new).localMetrics t' = _
              unfold Heap.updateMetrics
              rw [Heap.localMetrics_updateCache, Function.update_apply]
              rfl

/-! ### Every step keeps it -/

theorem fetchAdd_get_self {g : GlobalMetrics} {v : Nat} {c : Counter} :
    (g.fetchAdd v c).get c = (g.get c + v) % 2 ^ 64 := by
  cases c <;> rfl

theorem fetchAdd_get_of_ne {g : GlobalMetrics} {v : Nat} {c c' : Counter} (hne : c' ≠ c) :
    (g.fetchAdd v c).get c' = g.get c' := by
  cases c <;> cases c' <;> first | rfl | exact absurd rfl hne

theorem new_get (c : Counter) : ThreadMetrics.new.get c = 0 := by cases c <;> rfl

theorem due_of_idle {c : Counter} (hidle : w.flushing t = none) :
    due w t c = (w.heap.localMetrics t).get c := by
  unfold due
  rw [hidle]

theorem due_of_flush {c : Counter} (hflush : w.flushing t = some f) :
    due w t c = if c ∈ f.left then (w.heap.localMetrics t).get c else 0 := by
  unfold due
  rw [hflush]

theorem due_congr {c : Counter} (hflushing : w'.flushing t = w.flushing t)
    (hlocal : (w'.heap.localMetrics t).get c = (w.heap.localMetrics t).get c) :
    due w' t c = due w t c := by
  unfold due
  rw [hflushing, hlocal]

/-- What a step adds to one thread's part and the global counter, it adds to the account. -/
theorem accounted_step {δ : Nat} (ht : t < n) (c : Counter)
    (hothers : ∀ t' ≠ t, due w' t' c = due w t' c)
    (hone : w'.heap.globalMetrics.get c + due w' t c
      ≡ w.heap.globalMetrics.get c + due w t c + δ [MOD 2 ^ 64]) :
    accounted n w' c ≡ accounted n w c + δ [MOD 2 ^ 64] := by
  have hsum := sum_due ht c hothers
  refine Nat.ModEq.add_right_cancel' (due w t c) ?_
  have hleft : accounted n w' c + due w t c = w'.heap.globalMetrics.get c + due w' t c
      + ∑ t ∈ Finset.range n, due w t c := by
    unfold accounted
    omega
  have hright : accounted n w c + δ + due w t c = w.heap.globalMetrics.get c + due w t c + δ
      + ∑ t ∈ Finset.range n, due w t c := by
    unfold accounted
    omega
  rw [hleft, hright]
  exact hone.add_right _

/-- Before and after every kind of step, what is accounted for differs by what happened. -/
theorem Acted.accounted (h : Inv n w) (ht : l.thread < n) (hact : Acted w l w') (c : Counter) :
    Metrics.accounted n w' c
      ≡ Metrics.accounted n w c + (happened w.heap l).count c [MOD 2 ^ 64] := by
  cases hact with
  | call hidle hcounts hflushing =>
      have hother : ∀ t' ≠ l.thread, w'.flushing t' = w.flushing t' := by
        intro t' hne
        rcases hflushing with heq | ⟨rest, heq⟩
        · rw [heq]
        · rw [heq, Function.update_of_ne hne]
      -- at the start of a flush every counter is due
      have hdue : due w' l.thread c = (w'.heap.localMetrics l.thread).get c := by
        rcases hflushing with heq | ⟨rest, heq⟩
        · exact due_of_idle (by rw [heq]; exact hidle)
        · rw [due_of_flush (f := ⟨Counter.all, rest⟩) (by rw [heq, Function.update_self])]
          exact if_pos (mem_all c)
      refine accounted_step ht c (fun t' hne => due_congr (hother t' hne) ?_) ?_
      · rw [hcounts.locals t' c, if_neg hne, counted_zero]
      · rw [hdue, due_of_idle hidle, hcounts.global, hcounts.locals l.thread c, if_pos rfl,
          Nat.add_assoc]
        exact (counted_modEq _ _).add_left _
  | @added c₀ left rest hflush hnone hlocal hglobal hflushing =>
      have hnd := h.once _ _ hflush
      have hnot : c₀ ∉ left := (List.nodup_cons.mp hnd).1
      have hnew : w'.flushing l.thread = some ⟨left, rest⟩ := by
        rw [hflushing, Function.update_self]
      rw [hnone, List.count_nil]
      refine accounted_step ht c (fun t' hne => due_congr ?_ (by rw [hlocal])) ?_
      · rw [hflushing, Function.update_of_ne hne]
      · rw [due_of_flush hnew, due_of_flush hflush, hlocal, hglobal]
        by_cases hc : c = c₀
        · subst hc
          rw [fetchAdd_get_self, if_neg hnot, if_pos (List.mem_cons_self ..)]
          exact Nat.mod_modEq _ _
        · rw [fetchAdd_get_of_ne hc]
          simp only [List.mem_cons, hc, false_or]
          rfl
  | @ended rest hflush hnone hlocal hglobal hflushing =>
      rw [hnone, List.count_nil]
      refine accounted_step ht c (fun t' hne => due_congr ?_ ?_) ?_
      · rw [hflushing, Function.update_of_ne hne]
      · rw [hlocal, Function.update_of_ne hne]
      · have hidle : w'.flushing l.thread = none := by rw [hflushing, Function.update_self]
        rw [due_of_idle hidle, due_of_flush hflush, hlocal, hglobal, Function.update_self, new_get]
        rfl

theorem kind_cases (h : Heap) (t : Nat) (layout : Layout) : kind h t layout = .cacheHits ∨
    kind h t layout = .cacheMisses ∨ kind h t layout = .directAllocs := by
  unfold kind
  split
  · cases sizeToClass (max (roundUpPow2 layout.size) 16) with
    | none => simp
    | some cls =>
        simp only
        split <;> simp
  · simp

/-- An allocation is of one of three kinds. -/
theorem happened_kinds (h : Heap) (l : Label) : (happened h l).count .allocs
    = (happened h l).count .cacheHits + (happened h l).count .cacheMisses
      + (happened h l).count .directAllocs := by
  cases l with
  | alloc t layout answers =>
      unfold happened
      simp only
      split
      · rfl
      · rcases kind_cases (enter h answers) t layout with hk | hk | hk <;> rw [hk] <;> rfl
  | dealloc t ptr answers => cases ptr <;> rfl
  | flushThreadMetrics t => rfl
  | fetchAdd t => rfl
  | reset t answers => rfl
  | write t addr byte => rfl
  | foreign t page mapped => rfl

/-- What a flush has left to add shrinks from all counters, each named once. -/
theorem Acted.once (h : Inv n w) (hact : Acted w l w') :
    ∀ t f, w'.flushing t = some f → f.left.Nodup := by
  intro t f hf
  by_cases ht : t = l.thread
  · subst ht
    cases hact with
    | call hidle _ hflushing =>
        rcases hflushing with heq | ⟨rest, heq⟩
        · rw [heq, hidle] at hf
          cases hf
        · rw [heq, Function.update_self] at hf
          obtain rfl := Option.some.inj hf
          exact (by decide : Counter.all.Nodup)
    | added hflush _ _ _ hflushing =>
        rw [hflushing, Function.update_self] at hf
        obtain rfl := Option.some.inj hf
        exact (List.nodup_cons.mp (h.once _ _ hflush)).2
    | ended _ _ _ _ hflushing =>
        rw [hflushing, Function.update_self] at hf
        cases hf
  · refine h.once t f ?_
    rw [← hf]
    cases hact with
    | call _ _ hflushing =>
        rcases hflushing with heq | ⟨rest, heq⟩
        · rw [heq]
        · rw [heq, Function.update_of_ne ht]
    | added _ _ _ _ hflushing => rw [hflushing, Function.update_of_ne ht]
    | ended _ _ _ _ hflushing => rw [hflushing, Function.update_of_ne ht]

theorem Inv.step (h : Inv n w) (hstep : step n w l = some w') : Inv n w' := by
  obtain ⟨ht, hsome⟩ := Option.ite_none_right_eq_some.mp hstep
  obtain ⟨w₁, hact, rfl⟩ := Option.map_eq_some_iff.mp hsome
  have hacted := act_cases hact
  refine ⟨fun c => ?_, fun t f hf => hacted.once h t f hf, ?_⟩
  · exact (hacted.accounted h ht c).trans ((h.balanced c).add_right _)
  · have hkinds := h.kinds
    have hnew := happened_kinds w.heap l
    simp only
    omega

theorem Inv.init : Inv n (machine n mem foreign).init where
  balanced c := by
    have hzero : accounted n (machine n mem foreign).init c = 0 := by
      unfold accounted
      have hglobal : (machine n mem foreign).init.heap.globalMetrics.get c = 0 := by
        cases c <;> rfl
      rw [hglobal, Nat.zero_add]
      refine Finset.sum_eq_zero fun t _ => ?_
      exact new_get c
    rw [hzero]
    rfl
  once t f hf := by cases hf
  kinds := rfl

/-! ### Calls that nobody interrupts -/

theorem step_eq {w₁ : World} (ht : l.thread < n) (hact : act w l (w.flushing l.thread) = some w₁) :
    step n w l
      = some { w₁ with events := fun c => w.events c + (happened w.heap l).count c } := by
  unfold step
  rw [if_pos ht, hact]
  rfl

/-- The `fetch_add`s that are left and the reset, one after the other. -/
theorem exec_flush (ht : t < n) (answers : List (Option Nat)) {rest : Rest} :
    ∀ {left : List Counter} {w : World}, w.flushing t = some ⟨left, rest⟩ →
    ∃ w', (machine n mem foreign).exec w
        (List.replicate left.length (.fetchAdd t) ++ [.reset t answers]) = some w' ∧
      w'.heap = ((enter ({ w.heap with
          globalMetrics := left.foldl (fun g c => g.fetchAdd ((w.heap.localMetrics t).get c) c)
            w.heap.globalMetrics }.updateMetrics t fun _ => ThreadMetrics.new)
        answers).finish rest).1 ∧
      w'.flushing = Function.update w.flushing t none := by
  intro left
  induction left with
  | nil =>
      intro w hflush
      have hact : act w (.reset t answers) (w.flushing t) = some { w with
          heap := ((enter (w.heap.updateMetrics t fun _ => ThreadMetrics.new)
            answers).finish rest).1
          flushing := Function.update w.flushing t none } := by
        rw [hflush]
        rfl
      exact ⟨_, (machine n mem foreign).exec_step (step_eq (l := .reset t answers) ht hact) [],
        rfl, rfl⟩
  | cons c left ih =>
      intro w hflush
      have hact : act w (.fetchAdd t) (w.flushing t) = some { w with
          heap := { w.heap with
            globalMetrics := w.heap.globalMetrics.fetchAdd ((w.heap.localMetrics t).get c) c }
          flushing := Function.update w.flushing t (some ⟨left, rest⟩) } := by
        rw [hflush]
        rfl
      generalize hw₁ : ({ w with
        heap := { w.heap with
          globalMetrics := w.heap.globalMetrics.fetchAdd ((w.heap.localMetrics t).get c) c }
        flushing := Function.update w.flushing t (some ⟨left, rest⟩)
        events := fun c' => w.events c' + (happened w.heap (.fetchAdd t)).count c' } : World) = w₁
      have hstep : (machine n mem foreign).step w (.fetchAdd t) = some w₁ := by
        rw [← hw₁]
        exact step_eq (l := .fetchAdd t) ht hact
      have hflush₁ : w₁.flushing t = some ⟨left, rest⟩ := by
        rw [← hw₁]
        exact Function.update_self ..
      obtain ⟨w', hrun, hheap, hflushing⟩ := ih hflush₁
      refine ⟨w', ?_, ?_, ?_⟩
      · rw [List.length_cons, List.replicate_succ, List.cons_append]
        exact ((machine n mem foreign).exec_step hstep _).trans hrun
      · rw [hheap, ← hw₁]
        rfl
      · rw [hflushing, ← hw₁]
        exact Function.update_idem ..

/-- From `maybe_flush` on, the steps of one thread do what the whole call does. -/
theorem exec_maybeFlush (ht : t < n) (hidle : w.flushing t = none) (h : Heap) (rest : Rest)
    (events : Counter → Nat) :
    ∃ ls w', (machine n mem foreign).exec { w.maybeFlush t h rest with events := events } ls
        = some w' ∧
      w'.heap = ((h.maybeFlush t).finish rest).1 ∧ w'.flushing = w.flushing := by
  unfold World.maybeFlush
  by_cases hfull : (h.localMetrics t).Full
  · rw [if_pos hfull, Heap.maybeFlush_full hfull]
    generalize hw₁ : ({ w with
      heap := h
      flushing := Function.update w.flushing t (some ⟨Counter.all, rest⟩)
      events := events } : World) = w₁
    have hflush : w₁.flushing t = some ⟨Counter.all, rest⟩ := by
      rw [← hw₁]
      exact Function.update_self ..
    obtain ⟨w', hrun, hheap, hflushing⟩ := exec_flush ht h.sys.answers hflush
    subst hw₁
    refine ⟨_, w', hrun, hheap, ?_⟩
    rw [hflushing]
    simp only [Function.update_idem]
    rw [← hidle, Function.update_eq_self]
  · rw [if_neg hfull, Heap.maybeFlush_not_full hfull]
    exact ⟨[], _, rfl, rfl, rfl⟩

/-- A call of `alloc` whose steps nobody interrupts is the whole call. -/
theorem exec_alloc (ht : t < n) (hidle : w.flushing t = none) (layout : Layout)
    (answers : List (Option Nat)) : ∃ ls w', (machine n mem foreign).exec w
        (.alloc t layout answers :: ls) = some w' ∧
      w'.heap = ((enter w.heap answers).alloc t layout).1 ∧ w'.flushing = w.flushing := by
  rw [Heap.alloc_finish]
  rcases hs : (enter w.heap answers).allocStart t layout with ⟨h, _ | rest⟩
  · have hact : act w (.alloc t layout answers) (w.flushing t) = some { w with heap := h } := by
      rw [hidle]
      simp only [act, hs]
    have hstep := step_eq (l := .alloc t layout answers) ht hact
    exact ⟨[], _, (machine n mem foreign).exec_step hstep [], rfl, rfl⟩
  · have hact : act w (.alloc t layout answers) (w.flushing t) = some (w.maybeFlush t h rest) := by
      rw [hidle]
      simp only [act, hs]
    have hstep := step_eq (l := .alloc t layout answers) ht hact
    obtain ⟨ls, w', hrun, hheap, hflushing⟩ := exec_maybeFlush ht hidle h rest fun c =>
      w.events c + (happened w.heap (.alloc t layout answers)).count c
    exact ⟨ls, w', ((machine n mem foreign).exec_step hstep ls).trans hrun, hheap, hflushing⟩

/-- And so is one of `dealloc`. -/
theorem exec_dealloc (ht : t < n) (hidle : w.flushing t = none) (ptr : Nat)
    (answers : List (Option Nat)) : ∃ ls w', (machine n mem foreign).exec w
        (.dealloc t (some ptr) answers :: ls) = some w' ∧
      w'.heap = (enter w.heap answers).dealloc t (some ptr) ∧ w'.flushing = w.flushing := by
  rw [Heap.dealloc_finish]
  generalize hs : (enter w.heap answers).deallocStart t ptr = h
  have hact : act w (.dealloc t (some ptr) answers) (w.flushing t)
      = some (w.maybeFlush t h .nothing) := by
    rw [hidle, ← hs]
    rfl
  have hstep := step_eq (l := .dealloc t (some ptr) answers) ht hact
  obtain ⟨ls, w', hrun, hheap, hflushing⟩ := exec_maybeFlush ht hidle h .nothing fun c =>
    w.events c + (happened w.heap (.dealloc t (some ptr) answers)).count c
  exact ⟨ls, w', ((machine n mem foreign).exec_step hstep ls).trans hrun, hheap, hflushing⟩

/-- And one of `flush_thread_metrics`. -/
theorem exec_flushThreadMetrics (ht : t < n) (hidle : w.flushing t = none) :
    ∃ ls w', (machine n mem foreign).exec w (.flushThreadMetrics t :: ls) = some w' ∧
      w'.heap = w.heap.flushThreadMetrics t ∧ w'.flushing = w.flushing := by
  generalize hw₁ : ({ w with
    flushing := Function.update w.flushing t (some ⟨Counter.all, .nothing⟩)
    events := fun c => w.events c + (happened w.heap (.flushThreadMetrics t)).count c } : World)
      = w₁
  have hact : act w (.flushThreadMetrics t) (w.flushing t) = some { w with
      flushing := Function.update w.flushing t (some ⟨Counter.all, .nothing⟩) } := by
    rw [hidle]
    rfl
  have hstep : (machine n mem foreign).step w (.flushThreadMetrics t) = some w₁ := by
    rw [← hw₁]
    exact step_eq (l := .flushThreadMetrics t) ht hact
  have hflush : w₁.flushing t = some ⟨Counter.all, .nothing⟩ := by
    rw [← hw₁]
    exact Function.update_self ..
  obtain ⟨w', hrun, hheap, hflushing⟩ := exec_flush ht w.heap.sys.answers hflush
  subst hw₁
  refine ⟨_, w', ((machine n mem foreign).exec_step hstep _).trans hrun, hheap, ?_⟩
  rw [hflushing]
  simp only [Function.update_idem]
  rw [← hidle, Function.update_eq_self]

/-! ### Conservation -/

/-- A global counter and the threads' own. -/
def total (n : Nat) (w : World) (c : Counter) : Nat :=
  w.heap.globalMetrics.get c + ∑ t ∈ Finset.range n, (w.heap.localMetrics t).get c

/--
**Metrics are conserved.**  For any number of threads and any interleaving of their
calls and of the `fetch_add`s of their flushes, whenever no flush is in progress
each counter, global and local values together, has counted every event once, modulo
2^64; so the allocations are the hits, the misses and the direct ones.
-/
theorem metrics_conserved (n : Nat) (mem : Mem) (foreign : Nat → Bool) (w : World)
    (h : (machine n mem foreign).Reaches w) (hquiet : ∀ t < n, w.flushing t = none) :
    (∀ c, total n w c ≡ w.events c [MOD 2 ^ 64]) ∧
    total n w .allocs ≡ total n w .cacheHits + total n w .cacheMisses + total n w .directAllocs
      [MOD 2 ^ 64] := by
  have hinv : Inv n w := h.invariant Inv.init fun _ _ _ => Inv.step
  have hevents : ∀ c, total n w c ≡ w.events c [MOD 2 ^ 64] := by
    intro c
    have hdue : accounted n w c = total n w c := by
      unfold accounted total
      congr 1
      exact Finset.sum_congr rfl fun t ht => due_of_idle (hquiet t (Finset.mem_range.mp ht))
    rw [← hdue]
    exact hinv.balanced c
  refine ⟨hevents, (hevents .allocs).trans ?_⟩
  rw [hinv.kinds]
  exact (((hevents .cacheHits).add (hevents .cacheMisses)).add (hevents .directAllocs)).symm

/-- A miss, a hit and a free of two threads, and their flushes at the same time. -/
def interleaved : List Label :=
  [.alloc 0 line [some 4096], .alloc 0 line [], .flushThreadMetrics 0, .fetchAdd 0,
    .dealloc 1 (some 4112) [], .flushThreadMetrics 1, .fetchAdd 1, .fetchAdd 1, .fetchAdd 0,
    .fetchAdd 0, .fetchAdd 1, .fetchAdd 0, .fetchAdd 1, .fetchAdd 1, .reset 1 [], .fetchAdd 0,
    .reset 0 [], .alloc 1 line []]

theorem metrics_conserved_interleaved : ∃ w,
    (machine 2 (fun _ => 0) (fun _ => false)).exec (machine 2 (fun _ => 0) (fun _ => false)).init
      interleaved = some w ∧
    (∀ t < 2, w.flushing t = none) ∧
    (w.events .allocs, w.events .cacheHits, w.events .cacheMisses, w.events .frees)
      = (3, 2, 1, 1) ∧
    ∀ c, total 2 w c ≡ w.events c [MOD 2 ^ 64] := by
  have hrun : ((machine 2 (fun _ => 0) (fun _ => false)).exec
      (machine 2 (fun _ => 0) (fun _ => false)).init interleaved).map (fun w =>
        (((w.flushing 0).isNone, (w.flushing 1).isNone),
          (w.events .allocs, w.events .cacheHits, w.events .cacheMisses, w.events .frees)))
      = some ((true, true), (3, 2, 1, 1)) := by
    decide +kernel
  obtain ⟨w, hw, hvals⟩ := Option.map_eq_some_iff.mp hrun
  obtain ⟨hidle, hevents⟩ := Prod.mk.inj hvals
  obtain ⟨hzero, hone⟩ := Prod.mk.inj hidle
  have hquiet : ∀ t < 2, w.flushing t = none := by
    intro t ht
    rcases (by omega : t = 0 ∨ t = 1) with rfl | rfl
    · exact Option.isNone_iff_eq_none.mp hzero
    · exact Option.isNone_iff_eq_none.mp hone
  exact ⟨w, hw, hquiet, hevents, (metrics_conserved 2 _ _ w ⟨_, hw⟩ hquiet).1⟩

end Metrics

end Aethalloc.Abi
