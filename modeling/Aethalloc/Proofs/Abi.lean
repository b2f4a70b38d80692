/-
Whole runs of the heap.

The invariant holds at the start and every step keeps it, so it holds in every
state a run reaches.  Two results are read off it.  The client's memory is safe:
what it holds is mapped, apart from everything else, and touched by nobody but
itself.  And recycling is exact: as long as a node can be had whenever one is
needed, no block is lost or handed out twice, and each stays in its class.
-/
import Aethalloc.Proofs.Abi.Calls

namespace Aethalloc.Abi

open Lib

variable {mem : Mem} {foreign : Nat → Bool} {w w' : World} {l : Label}

/-! ### The invariant along a run -/

/-- Nothing is mapped, cached or live at the start. -/
theorem Inv.start : Inv (fun _ => []) (fun _ => []) (Heap.start mem foreign).core [] where
  regions := (Ground.start mem foreign).regions
  blocks := by
    have hnil : contents (fun _ => []) (Heap.start mem foreign).core [] = fun _ => [] := by
      funext p
      cases p with
      | live c => rfl
      | allocMag t c => exact Magazine.new_slots
      | freeMag t c => exact Magazine.new_slots
      | node c n => rfl
    refine ⟨?_, ?_, fun t c => ⟨Magazine.new_ok, Magazine.new_ok⟩, fun n => Magazine.new_ok,
      fun c n hn => absurd hn List.not_mem_nil⟩
    · rw [hnil]
      exact ⟨fun _ => List.nodup_nil, fun p q x hx => absurd hx List.not_mem_nil⟩
    · rw [hnil]
      exact fun p b hb => absurd hb List.not_mem_nil
  pools := by
    have hbins : ∀ s n, n ∉ stackBins (fun _ => []) (fun _ => []) s := by
      rintro ⟨side, c⟩ n hn
      cases side with
      | true => exact absurd hn List.not_mem_nil
      | false => exact absurd hn List.not_mem_nil
    refine ⟨fun c => rfl, fun c => rfl, ⟨fun s => ?_, fun s s' n hn => absurd hn (hbins s n)⟩,
      fun s n hn => absurd hn (hbins s n), ⟨?_, ?_, ?_⟩, fun c => rfl⟩
    · rw [List.eq_nil_iff_forall_not_mem.mpr (hbins s)]
      exact List.nodup_nil
    · show PAGE_SIZE % 8 = 0
      decide
    · exact Nat.le_refl PAGE_SIZE
    · intro hle
      exact absurd hle (by decide : ¬ PAGE_SIZE + Metadata.NODE_SIZE ≤ PAGE_SIZE)
  lives := (Ground.start mem foreign).lives
  cleared := fun m hm => absurd hm List.not_mem_nil

/-- The invariant, for some list of the stacks. -/
def Good (w : World) : Prop := ∃ full empty, Inv full empty w.heap.core w.live

theorem reaches_good (h : (machine mem foreign).Reaches w) : Good w := by
  refine h.invariant ⟨_, _, Inv.start⟩ fun w l w' hw hstep => ?_
  obtain ⟨full, empty, hinv⟩ := hw
  exact (step_keeps hinv hstep).inv

/-! ### The client's memory -/

/-- The place is a magazine. -/
def Place.Cached : Place → Prop
  | .live _ => False
  | _ => True

/-- What the client is promised of a state. -/
structure Safe (w : World) : Prop where
  disjoint : w.live.Pairwise fun a a' => ∀ x, ¬ (a.InRange x ∧ a'.InRange x)
  mapped : ∀ a ∈ w.live, ∀ x, a.InRange x → w.heap.sys.mapped (x / PAGE_SIZE) = true
  /-- No byte is in a block that a magazine of a thread or of a full stack holds. -/
  cached : ∀ a ∈ w.live, ∀ x, a.InRange x → ∀ p b, p.Cached → At w.heap.core w.live b p →
    ¬ (b ≤ x ∧ x < b + blockSize p.cls)
  headers : ∀ a ∈ w.live, ∀ x, a.InRange x → ∀ a' ∈ w.live, ¬ Header w.heap.regions a' x
  /-- Nor in a node of a global stack, whose memory the model keeps apart from the bytes. -/
  nodes : ∀ a ∈ w.live, ∀ x, a.InRange x → ∀ c n,
    OnChain (link w.heap.nodes) (w.heap.globalMagazines c).fullHead n ∨
      OnChain (link w.heap.nodes) (w.heap.globalMagazines c).emptyHead n →
    ¬ (n ≤ x ∧ x < n + Metadata.NODE_SIZE)

/-- The region of a live byte is no metadata page. -/
theorem Inv.range_not_metadata {full empty : Nat → List Nat} {a : Allocation} {x : Nat} {r : Region}
    (hinv : Inv full empty w.heap.core w.live) (ha : a ∈ w.live) (hx : a.InRange x)
    (hr : r ∈ w.heap.regions) (hp : r.purpose = .metadata) : ¬ r.Has x := by
  intro hhas
  have hfoot := hinv.ground.range_footprint ha hx
  by_cases hs : a.Small
  · obtain ⟨c, hcarved, -, -, hxb⟩ := hinv.ground.footprint_small ha hs hfoot
    obtain ⟨r', hr', hp', hhas'⟩ := hcarved.has
    have hrr : r = r' := hinv.regions.unique hr hr' hhas (hhas' x hxb.1 hxb.2)
    rw [← hrr, hp] at hp'
    exact absurd hp' (by simp)
  · obtain ⟨r', hr', -⟩ := hinv.ground.large_region ha hs
    have hhigh := hr'.high
    have hlow := hr'.low
    have hrx : r'.Has x := by
      unfold Allocation.InRange at hx
      unfold Region.Has
      omega
    have hrr : r = r' := hinv.regions.unique hr hr'.region hhas hrx
    have hp' := hr'.purpose
    rw [← hrr, hp] at hp'
    exact absurd hp' (by simp)

theorem Inv.safe {full empty : Nat → List Nat} (hinv : Inv full empty w.heap.core w.live) :
    Safe w where
  disjoint := by
    have hne : w.live.Pairwise fun a a' => a ≠ a' := List.Nodup.of_map _ hinv.lives.ptrs
    refine hne.imp_of_mem fun ha ha' hne x hx => hne ?_
    exact hinv.ground.footprint_unique ha ha' (hinv.ground.range_footprint ha hx.1)
      (hinv.ground.range_footprint ha' hx.2)
  mapped a ha x hx := hinv.ground.footprint_mapped ha (hinv.ground.range_footprint ha hx)
  cached a ha x hx p b hp hat hb := by
    have hmem := hinv.at_iff.mp hat
    -- a block in a magazine is not live
    have hdead : ∀ c, b ∉ liveBlocks w.live c := by
      intro c hc
      have hpl := hinv.blocks.exclusive.unique p (.live c) b hmem hc
      rw [hpl] at hp
      exact hp
    exact hinv.ground.not_footprint (hinv.blocks.carved p b hmem) hdead hb ha
      (hinv.ground.range_footprint ha hx)
  headers a ha x hx a' ha' := hinv.ground.range_no_header ha hx ha'
  nodes a ha x hx c n hn hin := by
    have hmem : ∃ s, n ∈ stackBins full empty s := by
      rcases hn with hn | hn
      · exact ⟨(true, c), (hinv.pools.fullChain c).onChain_iff.mp hn⟩
      · exact ⟨(false, c), (hinv.pools.emptyChain c).onChain_iff.mp hn⟩
    obtain ⟨s, hs⟩ := hmem
    obtain ⟨r, hr, hp, hhas, -⟩ := (hinv.pools.node s n hs).has
    exact hinv.range_not_metadata ha hx hr hp (hhas x hin.1 hin.2)

/-- The heap is safe in every state a run reaches, and no step from there changes a byte of a range
that is live before and after it, the client's own write and the pointer `posix_memalign` stores
apart. -/
theorem reaches_safe (h : (machine mem foreign).Reaches w) :
    Safe w ∧ ∀ l w', step w l = some w' → ∀ a ∈ w.live, a ∈ w'.live → ∀ x, a.InRange x →
      ¬ l.Writes x → w'.heap.sys.mem x = w.heap.sys.mem x := by
  obtain ⟨full, empty, hinv⟩ := reaches_good h
  refine ⟨hinv.safe, fun l w' hstep a ha ha' x hx hwrites => ?_⟩
  exact (step_keeps hinv hstep).bytes x ⟨⟨a, ha, ha', hx⟩, hwrites⟩

/-- A process with zeroed memory and no pages of its own. -/
def bare : Machine World Label := machine (fun _ => 0) (fun _ => false)

/-- Eight bytes. -/
def word : Layout where
  size := 8
  align := 8
  isPow2 := isPowerOfTwo_eight
  bound := by decide

/-- A block that one thread allocates and another one frees is allocated again by the other one. -/
theorem reaches_safe_malloc : ∃ w, bare.exec bare.init
      [.malloc 0 8 [some 4096], .calloc 0 2 8 [], .free 1 (some 4112) [], .malloc 1 5 []] = some w ∧
    w.live.map Allocation.ptr = [4112, 6160] ∧ Safe w := by
  have hrun : (bare.exec bare.init
      [.malloc 0 8 [some 4096], .calloc 0 2 8 [], .free 1 (some 4112) [], .malloc 1 5 []]).map
        (fun w => w.live.map Allocation.ptr) = some [4112, 6160] := by decide +kernel
  obtain ⟨w, hw, hlive⟩ := Option.map_eq_some_iff.mp hrun
  exact ⟨w, hw, hlive, (reaches_safe ⟨_, hw⟩).1⟩

/-- `posix_memalign` stores its result where it is told to, also inside a live range. -/
theorem posixMemalign_writes_live : ∃ w w', bare.exec bare.init [.malloc 0 8 [some 4096]] = some w ∧
    step w (.posixMemalign 0 4112 8 8 []) = some w' ∧
    ∃ a ∈ w.live, a ∈ w'.live ∧ a.InRange 4112 ∧ w'.heap.sys.mem 4112 ≠ w.heap.sys.mem 4112 := by
  have hrun : (bare.exec bare.init [.malloc 0 8 [some 4096]]).map (fun w =>
      (w.live, w.heap.sys.mem 4112)) = some ([⟨4112, 8, 8⟩], 0) := by decide +kernel
  have hrun' : ((bare.exec bare.init [.malloc 0 8 [some 4096]]).bind fun w =>
      step w (.posixMemalign 0 4112 8 8 [])).map (fun w' => (w'.live, w'.heap.sys.mem 4112))
        = some ([⟨6160, 8, 8⟩, ⟨4112, 8, 8⟩], 16) := by decide +kernel
  obtain ⟨w, hw, hbefore⟩ := Option.map_eq_some_iff.mp hrun
  obtain ⟨w', hw', hafter⟩ := Option.map_eq_some_iff.mp hrun'
  rw [hw] at hw'
  obtain ⟨hlive, hbyte⟩ := Prod.mk.inj hbefore
  obtain ⟨hlive', hbyte'⟩ := Prod.mk.inj hafter
  refine ⟨w, w', hw, hw', ⟨4112, 8, 8⟩, by simp [hlive], by simp [hlive'],
    ⟨by decide, by decide⟩, ?_⟩
  rw [hbyte, hbyte']
  decide

/-! ### Recycling -/

/-- The magazines are within their bounds, and none was cleared with blocks in it. -/
structure Bounded (w : World) : Prop where
  full : ∀ c n, OnChain (link w.heap.nodes) (w.heap.globalMagazines c).fullHead n →
    (w.heap.nodes n).magazine.count = MAGAZINE_CAPACITY
  mags : ∀ t c, ((w.heap.threads t).allocMags c).count ≤ MAGAZINE_CAPACITY ∧
    ((w.heap.threads t).freeMags c).count ≤ MAGAZINE_CAPACITY
  nodes : ∀ n, (w.heap.nodes n).magazine.count ≤ MAGAZINE_CAPACITY
  cleared : ∀ m ∈ w.heap.cleared, m.count = 0

theorem Inv.bounded {full empty : Nat → List Nat} (hinv : Inv full empty w.heap.core w.live) :
    Bounded w where
  full c n hn := by
    have hmem := (hinv.pools.fullChain c).onChain_iff.mp hn
    rw [← hinv.blocks.fullMags c n hmem]
    exact (Magazine.slots_length (hinv.blocks.nodeMags n)).symm
  mags := hinv.blocks.mags
  nodes := hinv.blocks.nodeMags
  cleared := hinv.cleared

/-- The block is in one slot of one place, of the class its page was carved for. -/
def OnlyAt (w : World) (b c : Nat) : Prop :=
  Carved w.heap.regions b c ∧ ∃ p, p.cls = c ∧ At w.heap.core w.live b p ∧
    (stock w.heap.core w.live p).count b = 1 ∧ ∀ q, At w.heap.core w.live b q → q = p

theorem Inv.onlyAt {full empty : Nat → List Nat} {b c : Nat}
    (hinv : Inv full empty w.heap.core w.live) (hb : Stored w.heap.core w.live b c) :
    OnlyAt w b c := by
  obtain ⟨p, rfl, hat⟩ := hb
  have hmem := hinv.at_iff.mp hat
  refine ⟨hinv.blocks.carved p b hmem, p, rfl, hat, ?_, fun q hq => ?_⟩
  · rw [hinv.stock_eq hat.1]
    exact List.count_eq_one_of_mem (hinv.blocks.exclusive.nodup p) hmem
  · exact hinv.blocks.exclusive.unique q p b (hinv.at_iff.mp hq) hmem

/-- A run in which every node needed could be had loses no block. -/
theorem exec_stored {w₀ : World} {ls : List Label} {b c : Nat}
    (hgood : Good w₀) (hb : Stored w₀.heap.core w₀.live b c)
    (hrun : (machine mem foreign).exec w₀ ls = some w) :
    Good w ∧ (w.heap.nodeFailures = 0 → Stored w.heap.core w.live b c) := by
  refine Machine.exec_invariant
    (P := fun w => Good w ∧ (w.heap.nodeFailures = 0 → Stored w.heap.core w.live b c))
    (fun w l w' hw hstep => ?_) ls w₀ w ⟨hgood, fun _ => hb⟩ hrun
  obtain ⟨⟨full, empty, hinv⟩, hstored⟩ := hw
  have hkeeps := step_keeps hinv hstep
  refine ⟨hkeeps.inv, fun hzero => ?_⟩
  have hle : w.heap.nodeFailures ≤ w'.heap.nodeFailures := hkeeps.failures
  refine hkeeps.stored ?_ b c (hstored (by omega))
  show w'.heap.nodeFailures = w.heap.nodeFailures
  omega

/-- Recycling is exact: from any state of a run on, while no node was wanted in vain, a block that
is somewhere stays in one slot of one place of its class. -/
theorem exec_conserves {w₀ : World} {ls : List Label} (h₀ : (machine mem foreign).Reaches w₀)
    (hrun : (machine mem foreign).exec w₀ ls = some w) (hnodes : w.heap.nodeFailures = 0) :
    Bounded w ∧ ∀ p b, At w₀.heap.core w₀.live b p → OnlyAt w b p.cls := by
  have hgood := reaches_good h₀
  obtain ⟨ls₀, hls₀⟩ := h₀
  have hreach : (machine mem foreign).Reaches w := by
    refine ⟨ls₀ ++ ls, ?_⟩
    rw [Machine.exec_append, hls₀]
    exact hrun
  obtain ⟨full, empty, hinv⟩ := reaches_good hreach
  refine ⟨hinv.bounded, fun p b hb => ?_⟩
  exact hinv.onlyAt ((exec_stored hgood ⟨p, rfl, hb⟩ hrun).2 hnodes)

/-- The first block of a page, from one thread to another and back. -/
theorem exec_conserves_first : ∃ w₀ w, bare.exec bare.init [.alloc 0 word [some 4096]] = some w₀ ∧
    bare.exec w₀ [.dealloc 1 (some 4112) [], .alloc 1 word [], .dealloc 0 (some 4112) []] = some w ∧
    At w₀.heap.core w₀.live 4096 (.live 0) ∧ OnlyAt w 4096 0 := by
  have hfirst : (bare.exec bare.init [.alloc 0 word [some 4096]]).map World.live
      = some [⟨4112, 8, 8⟩] := by decide +kernel
  obtain ⟨w₀, hw₀, hlive⟩ := Option.map_eq_some_iff.mp hfirst
  have hrest : ((bare.exec bare.init [.alloc 0 word [some 4096]]).bind fun w => bare.exec w
      [.dealloc 1 (some 4112) [], .alloc 1 word [], .dealloc 0 (some 4112) []]).map
        (fun w => w.heap.nodeFailures) = some 0 := by decide +kernel
  rw [hw₀] at hrest
  obtain ⟨w, hw, hnodes⟩ := Option.map_eq_some_iff.mp hrest
  have hat : At w₀.heap.core w₀.live 4096 (.live 0) := by
    refine ⟨trivial, ?_⟩
    show 4096 ∈ liveBlocks w₀.live 0
    rw [hlive]
    decide
  exact ⟨w₀, w, hw₀, hw, hat, (exec_conserves ⟨_, hw₀⟩ hw hnodes).2 (.live 0) 4096 hat⟩

end Aethalloc.Abi
