/-
What holds between two calls of the heap.

Four things, each about its own part of the state.  `Regions` and `Lives`, which
make up the `Ground`: the mappings in use are apart, and the headers of what the
client holds say what was written into them.  `Blocks`: every block of a size class
is in one place at most — live, in a magazine of a thread, or in a full magazine of
a global stack — and in the grid its page was carved into.  `Stacks`: the global
stacks are lists of different nodes carved from metadata pages.
-/
import Aethalloc.Lib.Bins
import Aethalloc.Lib.Chain
import Aethalloc.Proofs.Magazine
import Aethalloc.Proofs.Abi.View
import Aethalloc.Proofs.Abi.Holdings

namespace Aethalloc.Abi

open Lib

/-! ### Blocks -/

/-- Where a block can be. -/
inductive Place
  | live (cls : Nat)
  | allocMag (t cls : Nat)
  | freeMag (t cls : Nat)
  | node (cls n : Nat)
  deriving DecidableEq

def Place.cls : Place → Nat
  | live cls => cls
  | allocMag _ cls => cls
  | freeMag _ cls => cls
  | node cls _ => cls

/-- What is at each place, with `full` the nodes on the stacks of full magazines. -/
def contents (full : Nat → List Nat) (k : Core) (L : List Allocation) : Place → List Nat
  | .live c => liveBlocks L c
  | .allocMag t c => (k.allocMags t c).slots
  | .freeMag t c => (k.freeMags t c).slots
  | .node c n => if n ∈ full c then (k.nodes n).magazine.slots else []

/-- No block is at two places, and the magazines are within their bounds. -/
structure Blocks (full : Nat → List Nat) (k : Core) (L : List Allocation) : Prop where
  exclusive : Exclusive (contents full k L)
  carved : ∀ p, ∀ b ∈ contents full k L p, Carved k.regions b p.cls
  mags : ∀ t c, (k.allocMags t c).OK ∧ (k.freeMags t c).OK
  nodeMags : ∀ n, (k.nodes n).magazine.OK
  fullMags : ∀ c, ∀ n ∈ full c, (k.nodes n).magazine.slots.length = MAGAZINE_CAPACITY

/-- The rest of the core does not matter. -/
theorem Blocks.frame {full : Nat → List Nat} {k k' : Core} {L : List Allocation}
    (h : Blocks full k L) (halloc : k'.allocMags = k.allocMags) (hfree : k'.freeMags = k.freeMags)
    (hnodes : k'.nodes = k.nodes)
    (hcarved : ∀ p, ∀ b ∈ contents full k L p, Carved k'.regions b p.cls) : Blocks full k' L := by
  have hcontents : contents full k' L = contents full k L := by
    funext p
    cases p with
    | live c => rfl
    | allocMag t c => simp only [contents, halloc]
    | freeMag t c => simp only [contents, hfree]
    | node c n => simp only [contents, hnodes]
  refine ⟨?_, ?_, ?_, ?_, ?_⟩
  · rw [hcontents]
    exact h.exclusive
  · rw [hcontents]
    exact hcarved
  · rw [halloc, hfree]
    exact h.mags
  · rw [hnodes]
    exact h.nodeMags
  · rw [hnodes]
    exact h.fullMags

/-! ### The global stacks -/

/-- The node was carved from a metadata page, below the offset if that page is still in use. -/
def NodeOf (R : List Region) (metadata : MetadataAllocator) (n : Nat) : Prop :=
  ∃ r ∈ R, r.purpose = .metadata ∧ (r.base ≤ n ∧ n + Metadata.NODE_SIZE ≤ r.base + r.len) ∧
    (r.base = metadata.currentPage → n < metadata.currentPage + metadata.offset)

/-- Every byte of such a node is in a metadata region. -/
theorem NodeOf.has {R : List Region} {metadata : MetadataAllocator} {n : Nat}
    (h : NodeOf R metadata n) : ∃ r ∈ R, r.purpose = .metadata ∧
      (∀ x, n ≤ x → x < n + Metadata.NODE_SIZE → r.Has x) ∧
      (r.base = metadata.currentPage → n < metadata.currentPage + metadata.offset) := by
  obtain ⟨r, hr, hp, hin, hbelow⟩ := h
  refine ⟨r, hr, hp, fun x h1 h2 => ?_, hbelow⟩
  unfold Region.Has
  omega

/-- The full and the empty stacks as one family. -/
def stackBins (full empty : Nat → List Nat) : Bool × Nat → List Nat
  | (true, c) => full c
  | (false, c) => empty c

/-- The link of a node. -/
def link (nodes : NodeHeap) (n : Nat) : Option Nat := (nodes n).next

/-- The stacks are lists of different nodes, and every node carved for a class is on one. -/
structure Stacks (full empty : Nat → List Nat) (nodes : NodeHeap)
    (pools : Nat → GlobalMagazinePool) (metadata : MetadataAllocator) (R : List Region)
    (carved : Nat → Nat) : Prop where
  fullChain : ∀ c, Chain (link nodes) (pools c).fullHead (full c)
  emptyChain : ∀ c, Chain (link nodes) (pools c).emptyHead (empty c)
  exclusive : Exclusive (stackBins full empty)
  node : ∀ s, ∀ n ∈ stackBins full empty s, NodeOf R metadata n
  /-- While another node fits, the current page is a metadata page. -/
  page : metadata.offset % 8 = 0 ∧ metadata.offset ≤ PAGE_SIZE ∧
    (metadata.offset + Metadata.NODE_SIZE ≤ PAGE_SIZE →
      ∃ r ∈ R, r.purpose = .metadata ∧ r.base = metadata.currentPage ∧ r.pages = 1)
  count : ∀ c, carved c = (full c).length + (empty c).length

/-! ### The whole invariant -/

/-- Everything that holds between two calls. -/
structure Inv (full empty : Nat → List Nat) (k : Core) (L : List Allocation) : Prop where
  regions : Regions k.mapped k.foreign k.regions
  blocks : Blocks full k L
  pools : Stacks full empty k.nodes k.pools k.metadata k.regions k.carved
  lives : Lives k.mem k.regions L
  cleared : ∀ m ∈ k.cleared, m.count = 0

def Core.arena (k : Core) : Arena where
  mem := k.mem
  mapped := k.mapped
  foreign := k.foreign
  regions := k.regions

theorem Inv.ground {full empty : Nat → List Nat} {k : Core} {L : List Allocation}
    (h : Inv full empty k L) : Ground k.arena L where
  regions := h.regions
  lives := h.lives
  carved c := h.blocks.carved (.live c)

end Aethalloc.Abi
