/-
Nodes and the stack of empty magazines.

A node that gave its full magazine away waits on the empty stack of its class.
`dealloc` carves a fresh node whenever it publishes and never looks at that stack,
so nodes come back into use on no path.  The loop the pools are meant to close is
therefore closed in exactly those runs in which the empty stack is empty whenever
a node is needed.

A run that leaves it open: enough blocks are freed by one thread to publish a
magazine, another thread takes it, and the first one fills its magazine again.
-/
import Mathlib.Data.List.Induction
import Aethalloc.Lib.Trace
import Aethalloc.Proofs.Abi

namespace Aethalloc.Abi

open Lib

variable {mem : Mem} {foreign : Nat → Bool} {full empty : Nat → List Nat} {h : Heap}
  {L : List Allocation} {a : Allocation} {w w' : World} {l : Label} {t c n : Nat}

/-! ### Closed loops -/

/-- A call of `alloc` or `dealloc`, or what happens between calls. -/
def Label.Raw : Label → Prop
  | .alloc .. => True
  | .dealloc .. => True
  | .write .. => True
  | .foreign .. => True
  | _ => False

/-- `dealloc` needs a node of the class: the block it frees is of the class and the magazine it goes
into is full. -/
def NeedsNode (w : World) (c : Nat) : Label → Prop
  | .dealloc t (some ptr) _ =>
      (∃ a ∈ w.live, a.ptr = ptr ∧ a.Small ∧ classOf a.size = some c) ∧
        ((w.heap.threads t).freeMags c).count = MAGAZINE_CAPACITY
  | _ => False

/-- A node that is needed is the one on top of the empty stack, if there is one. -/
def Reuses (w w' : World) (l : Label) : Prop :=
  ∀ c n, NeedsNode w c l → (w.heap.globalMagazines c).emptyHead = some n →
    (w'.heap.globalMagazines c).fullHead = some n

/-- There are `d` nodes on the full stack of the class. -/
def FullDepth (w : World) (c d : Nat) : Prop :=
  ∃ nodes, Chain (link w.heap.nodes) (w.heap.globalMagazines c).fullHead nodes ∧ nodes.length = d

/-- Every step of the run reuses nodes, and no more were ever carved for a class than were on its
full stack at some moment before. -/
structure ClosedLoop (M : Machine World Label) (ls : List Label) : Prop where
  reuse : ∀ ls₀ l, ls₀ ++ [l] <+: ls → ∀ w w', M.exec M.init ls₀ = some w →
    M.step w l = some w' → Reuses w w' l
  bound : ∀ ls₁, ls₁ <+: ls → ∀ w, M.exec M.init ls₁ = some w → ∀ c,
    ∃ ls₀, ls₀ <+: ls₁ ∧ ∃ w₀ d, M.exec M.init ls₀ = some w₀ ∧ FullDepth w₀ c d ∧
      w.heap.carved c ≤ d

/-- Whenever a node is needed, the empty stack of the class is empty. -/
def NeverWaiting (M : Machine World Label) (ls : List Label) : Prop :=
  ∀ ls₀ l, ls₀ ++ [l] <+: ls → ∀ w, M.exec M.init ls₀ = some w → ∀ c, NeedsNode w c l →
    (w.heap.globalMagazines c).emptyHead = none

/-! ### Freeing carves nodes and never looks at the empty stacks -/

namespace Heap

/-- What `dealloc` leaves alone: every empty stack, and the count of nodes of every class but those
of `F`, whose magazine is full. -/
structure LeavesNodes (F : Nat → Prop) (k k' : Core) : Prop where
  emptyHead : ∀ c, (k'.pools c).emptyHead = (k.pools c).emptyHead
  carved : ∀ c, ¬ F c → k'.carved c = k.carved c

theorem unmapHeader_leaves {base : Nat} {F : Nat → Prop} :
    LeavesNodes F h.core (h.unmapHeader base).core := by
  unfold unmapHeader
  split <;> exact ⟨fun _ => rfl, fun _ _ => rfl⟩

theorem deallocSmall_leaves (hinv : Inv full empty h.core L) (t c block : Nat) :
    LeavesNodes (fun c' => c' = c ∧ (h.core.freeMags t c).count = MAGAZINE_CAPACITY) h.core
      (h.deallocSmall t c block).core := by
  rcases deallocSmall_cases hinv t c block with ⟨-, m, -, -, hcore⟩ | ⟨hfull, ⟨-, hcore⟩ |
    ⟨k, n, m, -, -, -, hsame, -, -, -, hcore⟩⟩
  · rw [hcore]
    exact ⟨fun _ => rfl, fun _ _ => rfl⟩
  · rw [hcore]
    exact ⟨fun _ => rfl, fun _ _ => rfl⟩
  · rw [hcore]
    refine ⟨fun c' => ?_, fun c' hc => ?_⟩
    · show (Function.update k.pools c { k.pools c with fullHead := some n } c').emptyHead = _
      rw [← hsame.pools]
      by_cases hc : c' = c
      · subst hc
        rw [Function.update_self]
      · rw [Function.update_of_ne hc]
    · rw [Magazine.slots_length (hinv.blocks.mags t c).2] at hfull
      have hne : c' ≠ c := fun heq => hc ⟨heq, hfull⟩
      show Function.update k.carved c (k.carved c + 1) c' = _
      rw [← hsame.carved, Function.update_of_ne hne]

theorem dealloc_leaves (hinv : Inv full empty h.core L) (ha : a ∈ L) :
    LeavesNodes (fun c => a.Small ∧ classOf a.size = some c ∧
      (h.core.freeMags t c).count = MAGAZINE_CAPACITY) h.core (h.dealloc t (some a.ptr)).core := by
  by_cases hs : a.Small
  · obtain ⟨c, -, hclass, -⟩ := hinv.ground.small_block ha hs
    rw [dealloc_small hinv ha hs hclass]
    have hleaves := deallocSmall_leaves hinv t c a.block
    refine ⟨hleaves.emptyHead, fun c' hc => hleaves.carved c' fun heq => hc ?_⟩
    obtain ⟨rfl, hcount⟩ := heq
    exact ⟨hs, hclass, hcount⟩
  · obtain ⟨r, hr, -⟩ := hinv.ground.large_region ha hs
    rw [dealloc_large hr, core_countFree]
    exact unmapHeader_leaves

end Heap

/-! ### One step -/

/-- A step that needs no node of the class carves none for it. -/
theorem step_carved (hinv : Inv full empty w.heap.core w.live) (hraw : l.Raw)
    (hstep : step w l = some w') (hneeds : ¬ NeedsNode w c l) :
    w'.heap.carved c = w.heap.carved c := by
  cases l with
  | alloc t layout answers =>
      obtain rfl := Option.some.inj hstep
      exact congrFun (Heap.alloc_returns (h := w.enter answers) hinv layout).carved c
  | dealloc t ptr answers =>
      obtain ⟨hholds, hsome⟩ := Option.ite_none_right_eq_some.mp hstep
      obtain rfl := Option.some.inj hsome
      cases ptr with
      | none => rfl
      | some ptr =>
          obtain ⟨a, ha, rfl⟩ := hholds
          have hleaves := Heap.dealloc_leaves (h := w.enter answers) (t := t) hinv ha
          exact hleaves.carved c fun hc => hneeds ⟨⟨a, ha, rfl, hc.1, hc.2.1⟩, hc.2.2⟩
  | write addr byte =>
      obtain ⟨-, hsome⟩ := Option.ite_none_right_eq_some.mp hstep
      obtain rfl := Option.some.inj hsome
      rfl
  | foreign page mapped =>
      obtain ⟨-, hsome⟩ := Option.ite_none_right_eq_some.mp hstep
      obtain rfl := Option.some.inj hsome
      rfl
  | malloc | free | calloc | realloc | alignedAlloc | posixMemalign => exact absurd hraw id

/-- A step that needs a node leaves the empty stack as it is. -/
theorem step_emptyHead (hinv : Inv full empty w.heap.core w.live) (hstep : step w l = some w')
    (hneeds : NeedsNode w c l) :
    (w'.heap.globalMagazines c).emptyHead = (w.heap.globalMagazines c).emptyHead := by
  cases l with
  | dealloc t ptr answers =>
      obtain ⟨hholds, hsome⟩ := Option.ite_none_right_eq_some.mp hstep
      obtain rfl := Option.some.inj hsome
      cases ptr with
      | none => exact absurd hneeds id
      | some ptr =>
          obtain ⟨a, ha, rfl⟩ := hholds
          exact (Heap.dealloc_leaves (h := w.enter answers) (t := t) hinv ha).emptyHead c
  | alloc | malloc | free | calloc | realloc | alignedAlloc | posixMemalign | write | foreign =>
      exact absurd hneeds id

/-- So a node that waits is not the one that is used. -/
theorem not_reuses (hgood : Good w) (hstep : step w l = some w') (hneeds : NeedsNode w c l)
    (hhead : (w.heap.globalMagazines c).emptyHead = some n) : ¬ Reuses w w' l := by
  intro hreuses
  obtain ⟨full₀, empty₀, hinv₀⟩ := hgood
  obtain ⟨full, empty, hinv⟩ := (step_keeps hinv₀ hstep).inv
  have hfull := hinv.pools.fullChain c
  have hempty := hinv.pools.emptyChain c
  have hf : (w'.heap.core.pools c).fullHead = some n := hreuses c n hneeds hhead
  have he : (w'.heap.core.pools c).emptyHead = some n :=
    (step_emptyHead hinv₀ hstep hneeds).trans hhead
  rw [hf] at hfull
  rw [he] at hempty
  -- a node is on one stack only
  obtain ⟨rest, hl, -⟩ := hfull.exists_cons_of_some
  obtain ⟨rest', hl', -⟩ := hempty.exists_cons_of_some
  have hsame := hinv.pools.exclusive.unique (true, c) (false, c) n
    (by show n ∈ full c; rw [hl]; simp) (by show n ∈ empty c; rw [hl']; simp)
  exact absurd hsame (by simp)

/-- With nothing on the empty stack, every node of the class is on the full one. -/
theorem carved_of_emptyHead (hgood : Good w) (hhead : (w.heap.globalMagazines c).emptyHead = none) :
    FullDepth w c (w.heap.carved c) := by
  obtain ⟨full, empty, hinv⟩ := hgood
  have hempty := hinv.pools.emptyChain c
  have he : (w.heap.core.pools c).emptyHead = none := hhead
  rw [he] at hempty
  refine ⟨full c, hinv.pools.fullChain c, ?_⟩
  have hcount : w.heap.carved c = (full c).length + (empty c).length := hinv.pools.count c
  rw [hempty.eq_nil_of_none, List.length_nil, Nat.add_zero] at hcount
  exact hcount.symm

/-! ### Whole runs -/

/-- In a run without waiting nodes the carved nodes were on the full stack together once. -/
theorem carved_le_depth {ls : List Label} (hraw : ∀ l ∈ ls, l.Raw)
    (hwait : NeverWaiting (machine mem foreign) ls)
    (hrun : (machine mem foreign).exec (machine mem foreign).init ls = some w) (c : Nat) :
    ∃ ls₀, ls₀ <+: ls ∧ ∃ w₀ d,
      (machine mem foreign).exec (machine mem foreign).init ls₀ = some w₀ ∧
      FullDepth w₀ c d ∧ w.heap.carved c ≤ d := by
  induction ls using List.reverseRecOn generalizing w with
  | nil =>
      obtain rfl := Option.some.inj hrun
      exact ⟨[], List.prefix_refl _, _, 0, rfl, ⟨[], rfl, rfl⟩, Nat.le_refl 0⟩
  | append_singleton ls l ih =>
      obtain ⟨w₁, hw₁, hstep⟩ := Machine.exec_snoc_inv _ hrun
      obtain ⟨full, empty, hinv₁⟩ := reaches_good ⟨ls, hw₁⟩
      by_cases hneeds : NeedsNode w₁ c l
      · -- the last step needed a node, and then none waits
        have hhead := hwait ls l (List.prefix_refl _) w₁ hw₁ c hneeds
        have hgood : Good w := reaches_good ⟨_, hrun⟩
        rw [← step_emptyHead hinv₁ hstep hneeds] at hhead
        exact ⟨_, List.prefix_refl _, w, _, hrun, carved_of_emptyHead hgood hhead, Nat.le_refl _⟩
      · have hcarved := step_carved hinv₁ (hraw l (by simp)) hstep hneeds
        have hpre : ls <+: ls ++ [l] := List.prefix_append _ _
        obtain ⟨ls₀, hls₀, w₀, d, hw₀, hdepth, hle⟩ := ih (fun l hl => hraw l (by simp [hl]))
          (fun ls₀ l₀ hls₀ => hwait ls₀ l₀ (hls₀.trans hpre)) hw₁
        exact ⟨ls₀, hls₀.trans hpre, w₀, d, hw₀, hdepth, by rw [hcarved]; exact hle⟩

/-- A run closes the loop exactly when no node waits while one is needed. -/
theorem closedLoop_iff {ls : List Label} (hraw : ∀ l ∈ ls, l.Raw)
    (hrun : (machine mem foreign).exec (machine mem foreign).init ls = some w) :
    ClosedLoop (machine mem foreign) ls ↔ NeverWaiting (machine mem foreign) ls := by
  constructor
  · intro hloop ls₀ l hls w₀ hw₀ c hneeds
    cases hhead : (w₀.heap.globalMagazines c).emptyHead with
    | none => rfl
    | some n =>
        -- the run goes on from here, so the step is taken
        obtain ⟨rest, hrest⟩ := hls
        rw [← hrest, List.append_assoc, Machine.exec_append, hw₀, Option.bind_some] at hrun
        obtain ⟨w₁, hstep, -⟩ := Option.bind_eq_some_iff.mp hrun
        exact absurd (hloop.reuse ls₀ l ⟨rest, hrest⟩ w₀ w₁ hw₀ hstep)
          (not_reuses (reaches_good ⟨_, hw₀⟩) hstep hneeds hhead)
  · intro hwait
    refine ⟨fun ls₀ l hls w₀ w₁ hw₀ hstep c n hneeds hhead => ?_, fun ls₁ hls w₁ hw₁ c => ?_⟩
    · rw [hwait ls₀ l hls w₀ hw₀ c hneeds] at hhead
      exact absurd hhead (by simp)
    · exact carved_le_depth (fun l hl => hraw l (hls.subset hl))
        (fun ls₀ l hls₀ => hwait ls₀ l (hls₀.trans hls)) hw₁ c

/-! ### Runs of three threads -/

/-- One thread allocates a block and another one frees it. -/
def handOver (base block : Nat) : List Label :=
  [.alloc 0 word [some base], .dealloc 1 (some (block + CACHE_HEADER_SIZE)) [some 4096]]

/-- The blocks of a page, in the order `alloc` serves them. -/
def handPage (base n : Nat) : List Label :=
  handOver base base ++ (List.range n).flatMap fun i => handOver base (base + 32 * (64 - i))

/-- The decidable test that no node waits where one is needed. -/
def waitingCheck (w : World) : Label → Bool
  | .dealloc t (some ptr) _ =>
      w.live.all fun a => a.ptr != ptr || match classOf a.size with
        | some c => ((w.heap.threads t).freeMags c).count != MAGAZINE_CAPACITY ||
            (w.heap.globalMagazines c).emptyHead.isNone
        | none => true
  | _ => true

theorem emptyHead_of_check (hcheck : waitingCheck w l = true) (hneeds : NeedsNode w c l) :
    (w.heap.globalMagazines c).emptyHead = none := by
  cases l with
  | dealloc t ptr answers =>
      cases ptr with
      | none => exact absurd hneeds id
      | some ptr =>
          obtain ⟨⟨a, ha, hptr, -, hclass⟩, hfull⟩ := hneeds
          have hblock := List.all_eq_true.mp hcheck a ha
          simpa [hptr, hclass, hfull] using hblock
  | alloc | malloc | free | calloc | realloc | alignedAlloc | posixMemalign | write | foreign =>
      exact absurd hneeds id

theorem handOver_raw (base block : Nat) : ∀ l ∈ handOver base block, l.Raw := by
  simp [handOver, Label.Raw]

theorem handPage_raw (base n : Nat) : ∀ l ∈ handPage base n, l.Raw := by
  intro l hl
  rcases List.mem_append.mp hl with hfirst | hrest
  · exact handOver_raw _ _ l hfirst
  · obtain ⟨i, -, hi⟩ := List.mem_flatMap.mp hrest
    exact handOver_raw _ _ l hi

/-- A magazine is filled and published, and a third thread takes it. -/
def oneMagazine : List Label := handPage 8192 64 ++ [.alloc 2 word []]

theorem oneMagazine_raw : ∀ l ∈ oneMagazine, l.Raw := by
  intro l hl
  rcases List.mem_append.mp hl with hpage | hlast
  · exact handPage_raw _ _ l hpage
  · rw [List.mem_singleton.mp hlast]
    exact trivial

/-- Its node is carved while nothing waits, it was on the full stack, and at the end it waits. -/
theorem closedLoop_published :
    ClosedLoop bare oneMagazine ∧ (bare.exec bare.init oneMagazine).map (fun w =>
      (w.heap.carved 0, (w.heap.globalMagazines 0).fullHead,
        (w.heap.globalMagazines 0).emptyHead)) = some (1, none, some 4096) := by
  have hrun : (bare.exec bare.init oneMagazine).map (fun w =>
      (w.heap.carved 0, (w.heap.globalMagazines 0).fullHead,
        (w.heap.globalMagazines 0).emptyHead)) = some (1, none, some 4096) := by decide +kernel
  have hcheck : (bare.trace waitingCheck bare.init oneMagazine).all id = true := by
    decide +kernel
  obtain ⟨w, hw, -⟩ := Option.map_eq_some_iff.mp hrun
  refine ⟨(closedLoop_iff oneMagazine_raw hw).mpr fun ls₀ l hls w₀ hw₀ c hneeds => ?_, hrun⟩
  exact emptyHead_of_check (Machine.check_of_trace _ _ _ hw hcheck ls₀ l hls w₀ hw₀) hneeds

/-- Until a magazine is full for the second time; in between a third thread takes the first one. -/
def twoMagazines : List Label := oneMagazine ++ handPage 16384 62

/-- The second magazine gets a fresh node although the first one's waits. -/
theorem not_closedLoop :
    ¬ ClosedLoop bare (twoMagazines ++ [.dealloc 1 (some 8272) [some 12288]]) := by
  intro hloop
  have hrun : (bare.exec bare.init twoMagazines).map (fun w =>
      (w.live, ((w.heap.threads 1).freeMags 0).count, (w.heap.globalMagazines 0).emptyHead))
        = some ([⟨8272, 8, 8⟩], MAGAZINE_CAPACITY, some 4096) := by decide +kernel
  obtain ⟨w, hw, hstate⟩ := Option.map_eq_some_iff.mp hrun
  obtain ⟨hlive, hrest⟩ := Prod.mk.inj hstate
  obtain ⟨hcount, hhead⟩ := Prod.mk.inj hrest
  have hmem : (⟨8272, 8, 8⟩ : Allocation) ∈ w.live := by simp [hlive]
  have hholds : w.Holds (some 8272) := ⟨_, hmem, rfl⟩
  obtain ⟨w', hstep⟩ : ∃ w', step w (.dealloc 1 (some 8272) [some 12288]) = some w' :=
    ⟨_, if_pos hholds⟩
  have hneeds : NeedsNode w 0 (.dealloc 1 (some 8272) [some 12288]) :=
    ⟨⟨_, hmem, rfl, by decide, by decide⟩, hcount⟩
  exact not_reuses (reaches_good ⟨_, hw⟩) hstep hneeds hhead
    (hloop.reuse twoMagazines _ (List.prefix_refl _) w w' hw hstep)

end Aethalloc.Abi
