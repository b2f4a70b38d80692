/-
Magazines change hands through the global stacks.

A thread whose alloc magazine is empty takes a full one from the stack of the
class: it swaps magazines with the top node, whose magazine is then empty, and the
node goes to the stack of empty ones.  A thread whose free magazine is full swaps
it with the empty magazine of a fresh node, which goes to the stack of full ones.
Either way two bins change their contents, and a node changes or joins a stack.
-/
import Aethalloc.Proofs.Abi.Ownership

namespace Aethalloc.Abi

open Lib

variable {full empty : Nat → List Nat} {k : Core} {L : List Allocation} {c n t : Nat}

/-! ### The two stacks as one family -/

theorem stackBins_full {l : List Nat} : stackBins (Function.update full c l) empty
    = Function.update (stackBins full empty) (true, c) l := by
  funext s
  obtain ⟨side, c'⟩ := s
  cases side with
  | false => rw [Function.update_of_ne (by simp)]; rfl
  | true =>
      show Function.update full c l c' = _
      by_cases hc : c' = c
      · subst hc
        rw [Function.update_self, Function.update_self]
      · rw [Function.update_of_ne hc, Function.update_of_ne (by simpa using hc)]
        rfl

theorem stackBins_empty {l : List Nat} : stackBins full (Function.update empty c l)
    = Function.update (stackBins full empty) (false, c) l := by
  funext s
  obtain ⟨side, c'⟩ := s
  cases side with
  | true => rw [Function.update_of_ne (by simp)]; rfl
  | false =>
      show Function.update empty c l c' = _
      by_cases hc : c' = c
      · subst hc
        rw [Function.update_self, Function.update_self]
      · rw [Function.update_of_ne hc, Function.update_of_ne (by simpa using hc)]
        rfl

section Links

variable {nodes : NodeHeap} {node : MagazineNode}

/-- Writing a node that is not on a stack leaves the stack alone. -/
theorem link_frame {p : Option Nat} {l : List Nat} (h : Chain (link nodes) p l) (hn : n ∉ l) :
    Chain (link (Function.update nodes n node)) p l := by
  refine h.congr fun b hb => ?_
  have hne : b ≠ n := fun hc => hn (by rw [← hc]; exact hb)
  unfold link
  rw [Function.update_of_ne hne]

/-- Writing a node that links to a stack pushes it. -/
theorem link_push {p : Option Nat} {l : List Nat} (h : Chain (link nodes) p l) (hn : n ∉ l)
    (hnext : node.next = p) : Chain (link (Function.update nodes n node)) (some n) (n :: l) := by
  refine ⟨rfl, ?_⟩
  have hlink : link (Function.update nodes n node) n = p := by
    unfold link
    rw [Function.update_self, hnext]
  rw [hlink]
  exact link_frame h hn

end Links

/-! ### Taking a full magazine -/

/-- The core after the top node of the full stack swapped magazines with the thread. -/
def Core.takeFull (k : Core) (t c n : Nat) : Core :=
  { k with
    allocMags := setMag k.allocMags t c (k.nodes n).magazine
    nodes := Function.update k.nodes n
      { next := (k.pools c).emptyHead, magazine := (k.allocMags t c).clear }
    pools := Function.update k.pools c { fullHead := (k.nodes n).next, emptyHead := some n }
    cleared := k.allocMags t c :: k.cleared }

/-- The top node moves from the full stack to the empty one. -/
theorem Stacks.takeFull {rest : List Nat}
    (h : Stacks full empty k.nodes k.pools k.metadata k.regions k.carved)
    (hfull : full c = n :: rest) :
    Stacks (Function.update full c rest) (Function.update empty c (n :: empty c))
      (k.takeFull t c n).nodes (k.takeFull t c n).pools k.metadata k.regions k.carved := by
  have hbins : stackBins (Function.update full c rest) (Function.update empty c (n :: empty c))
      = Function.update (Function.update (stackBins full empty) (true, c) rest) (false, c)
        (n :: empty c) := by
    rw [stackBins_empty, stackBins_full]
  have htop : stackBins full empty (true, c) = n :: rest := hfull
  obtain ⟨hex, hnone⟩ := h.exclusive.take (p := (true, c)) (List.Perm.of_eq htop)
  have hex' : Exclusive (stackBins (Function.update full c rest)
      (Function.update empty c (n :: empty c))) := by
    rw [hbins]
    refine hex.put (List.nodup_singleton n) ?_ (List.Perm.of_eq ?_)
    · intro s n' hn'
      obtain rfl := List.mem_singleton.mp hn'
      exact hnone s
    · rw [Function.update_of_ne (by simp)]
      rfl
  -- the node is on no stack but the one it leaves
  have hgone : ∀ s, s ≠ (true, c) → n ∉ stackBins full empty s := by
    intro s hs hmem
    exact hs (h.exclusive.unique s (true, c) n hmem (by rw [htop]; simp))
  have hchain := h.fullChain c
  rw [hfull] at hchain
  have hrest : n ∉ rest := by
    have hnd := h.exclusive.nodup (true, c)
    rw [htop] at hnd
    exact (List.nodup_cons.mp hnd).1
  refine ⟨fun c' => ?_, fun c' => ?_, hex', fun s n' hn' => ?_, h.page, fun c' => ?_⟩
  · show Chain (link (Function.update k.nodes n _)) (Function.update k.pools c _ c').fullHead
      (Function.update full c rest c')
    by_cases hc : c' = c
    · subst hc
      rw [Function.update_self, Function.update_self]
      exact link_frame hchain.2 hrest
    · rw [Function.update_of_ne hc, Function.update_of_ne hc]
      exact link_frame (h.fullChain c') (hgone (true, c') (by simpa using hc))
  · show Chain (link (Function.update k.nodes n _)) (Function.update k.pools c _ c').emptyHead
      (Function.update empty c (n :: empty c) c')
    by_cases hc : c' = c
    · subst hc
      rw [Function.update_self, Function.update_self]
      exact link_push (h.emptyChain c') (hgone (false, c') (by simp)) rfl
    · rw [Function.update_of_ne hc, Function.update_of_ne hc]
      exact link_frame (h.emptyChain c') (hgone (false, c') (by simp))
  · have hmem : ∃ s', n' ∈ stackBins full empty s' := by
      rw [hbins] at hn'
      by_cases hs : s = (false, c)
      · subst hs
        rw [Function.update_self] at hn'
        rcases List.mem_cons.mp hn' with rfl | hn'
        · exact ⟨(true, c), by rw [htop]; simp⟩
        · exact ⟨(false, c), hn'⟩
      · rw [Function.update_of_ne hs] at hn'
        by_cases hs' : s = (true, c)
        · subst hs'
          rw [Function.update_self] at hn'
          exact ⟨(true, c), by rw [htop]; exact List.mem_cons_of_mem _ hn'⟩
        · rw [Function.update_of_ne hs'] at hn'
          exact ⟨s, hn'⟩
    obtain ⟨s', hs'⟩ := hmem
    exact h.node s' n' hs'
  · have hcount := h.count c'
    by_cases hc : c' = c
    · subst hc
      rw [hfull, List.length_cons] at hcount
      rw [Function.update_self, Function.update_self, List.length_cons]
      omega
    · rw [Function.update_of_ne hc, Function.update_of_ne hc]
      exact hcount

/-- The node and the thread swap their contents. -/
theorem contents_takeFull {rest : List Nat} (h : Inv full empty k L) (hfull : full c = n :: rest)
    (hempty : (k.allocMags t c).slots = []) :
    contents (Function.update full c rest) (k.takeFull t c n) L
      = Function.update (Function.update (contents full k L) (.node c n)
          (contents full k L (.allocMag t c))) (.allocMag t c) (contents full k L (.node c n)) := by
  have hmem : n ∈ full c := by rw [hfull]; simp
  have hgive : contents full k L (.allocMag t c) = [] := hempty
  have htake : contents full k L (.node c n) = (k.nodes n).magazine.slots := if_pos hmem
  have hpop : contents (Function.update full c rest) { k with nodes := (k.takeFull t c n).nodes } L
      = Function.update (contents full k L) (.node c n) [] := contents_popFull hfull
    (h.pools.exclusive.nodup (true, c))
    (fun c' hc' => (Prod.mk.inj (h.pools.exclusive.unique (true, c') (true, c) n hc' hmem)).2)
    (fun n' hn' => by
      show (Function.update k.nodes n _ n').magazine = _
      rw [Function.update_of_ne hn'])
  rw [hgive, htake, ← hpop]
  exact contents_setAlloc (k := { k with nodes := (k.takeFull t c n).nodes })

/-- A full magazine is taken for an empty one. -/
theorem Inv.takeFull (h : Inv full empty k L) (hhead : (k.pools c).fullHead = some n)
    (hempty : (k.allocMags t c).slots = []) :
    ∃ rest, full c = n :: rest ∧
      Inv (Function.update full c rest) (Function.update empty c (n :: empty c))
        (k.takeFull t c n) L := by
  have hchain := h.pools.fullChain c
  rw [hhead] at hchain
  obtain ⟨rest, hfull, -⟩ := hchain.exists_cons_of_some
  have hmem : n ∈ full c := by rw [hfull]; simp
  have hcontents := contents_takeFull h hfull hempty
  have hstacks := h.pools.takeFull (t := t) hfull
  refine ⟨rest, hfull, {
    regions := h.regions
    blocks := {
      exclusive := by
        rw [hcontents]
        exact h.blocks.exclusive.swap _ _
      carved := by
        rw [hcontents]
        exact forall_swap rfl h.blocks.carved
      mags := fun t' c' => ⟨?_, (h.blocks.mags t' c').2⟩
      nodeMags := fun n' => ?_
      fullMags := fun c' n' hn' => ?_ }
    pools := hstacks
    lives := h.lives
    cleared := fun m hm => ?_ }⟩
  · show (setMag k.allocMags t c (k.nodes n).magazine t' c').OK
    by_cases heq : t' = t ∧ c' = c
    · obtain ⟨rfl, rfl⟩ := heq
      rw [setMag_self]
      exact h.blocks.nodeMags n
    · rw [setMag_of_ne heq]
      exact (h.blocks.mags t' c').1
  · show (Function.update k.nodes n _ n').magazine.OK
    by_cases hn : n' = n
    · subst hn
      rw [Function.update_self]
      exact Magazine.clear_ok
    · rw [Function.update_of_ne hn]
      exact h.blocks.nodeMags n'
  · -- a node still on a full stack is another one, and was on it before
    have hne : n' ≠ n := by
      rintro rfl
      have := hstacks.exclusive.unique (true, c') (false, c) n' hn' (by
        show n' ∈ Function.update empty c (n' :: empty c) c
        rw [Function.update_self]
        simp)
      simp at this
    have hold : n' ∈ full c' := by
      by_cases hc : c' = c
      · subst hc
        rw [Function.update_self] at hn'
        rw [hfull]
        exact List.mem_cons_of_mem _ hn'
      · rw [Function.update_of_ne hc] at hn'
        exact hn'
    show (Function.update k.nodes n _ n').magazine.slots.length = MAGAZINE_CAPACITY
    rw [Function.update_of_ne hne]
    exact h.blocks.fullMags c' n' hold
  · rcases List.mem_cons.mp hm with rfl | hm
    · rw [← Magazine.slots_length (h.blocks.mags t c).1, hempty]
      rfl
    · exact h.cleared m hm

/-! ### A fresh node -/

/-- The node is on no stack, and carved. -/
def FreshNode (full empty : Nat → List Nat) (k : Core) (n : Nat) : Prop :=
  NodeOf k.regions k.metadata n ∧ ∀ s, n ∉ stackBins full empty s

/-- Only the metadata allocator moves on. -/
theorem Inv.setMetadata {metadata : MetadataAllocator} (h : Inv full empty k L)
    (hstacks : Stacks full empty k.nodes k.pools metadata k.regions k.carved) :
    Inv full empty { k with metadata := metadata } L where
  regions := h.regions
  blocks := h.blocks.frame rfl rfl rfl h.blocks.carved
  pools := hstacks
  lives := h.lives
  cleared := h.cleared

/-- The next node of the current page. -/
theorem Inv.bumpNode (h : Inv full empty k L)
    (hfits : k.metadata.offset + Metadata.NODE_SIZE ≤ PAGE_SIZE) :
    Inv full empty { k with
        metadata := { k.metadata with offset := k.metadata.offset + Metadata.NODE_SIZE } } L ∧
      FreshNode full empty { k with
        metadata := { k.metadata with offset := k.metadata.offset + Metadata.NODE_SIZE } }
        (k.metadata.currentPage + k.metadata.offset) := by
  obtain ⟨hal, hle, hpage⟩ := h.pools.page
  obtain ⟨r, hr, hp, hbase, hpages⟩ := hpage hfits
  have hin : r.base ≤ k.metadata.currentPage + k.metadata.offset ∧
      k.metadata.currentPage + k.metadata.offset + Metadata.NODE_SIZE ≤ r.base + r.len := by
    unfold Region.len
    rw [hbase, hpages]
    omega
  refine ⟨h.setMetadata ⟨h.pools.fullChain, h.pools.emptyChain, h.pools.exclusive,
    fun s n hn => ?_, ⟨?_, hfits, fun _ => ⟨r, hr, hp, hbase, hpages⟩⟩, h.pools.count⟩,
    ⟨r, hr, hp, hin, fun _ => ?_⟩, fun s hn => ?_⟩
  · obtain ⟨r', hr', hp', hin', hbelow⟩ := h.pools.node s n hn
    refine ⟨r', hr', hp', hin', fun hc => ?_⟩
    have := hbelow hc
    show n < k.metadata.currentPage + (k.metadata.offset + Metadata.NODE_SIZE)
    omega
  · show (k.metadata.offset + Metadata.NODE_SIZE) % 8 = 0
    unfold Metadata.NODE_SIZE
    omega
  · show k.metadata.currentPage + k.metadata.offset
      < k.metadata.currentPage + (k.metadata.offset + Metadata.NODE_SIZE)
    unfold Metadata.NODE_SIZE
    omega
  · -- a node at the offset would be below it
    obtain ⟨r', hr', -, hin', hbelow⟩ := h.pools.node s _ hn
    have hrr : r' = r := by
      unfold Metadata.NODE_SIZE at hin hin'
      refine h.regions.unique hr' hr (x := k.metadata.currentPage + k.metadata.offset) ?_ ?_ <;>
        unfold Region.Has <;> omega
    have := hbelow (by rw [hrr, hbase])
    omega

/-- The first node of a fresh page. -/
theorem Inv.pageNode {base : Nat} (h : Inv full empty k L) (hfree : k.Free base 1) :
    Inv full empty { k.map base 1 .metadata with
        metadata := { currentPage := base, offset := Metadata.NODE_SIZE } } L ∧
      FreshNode full empty { k.map base 1 .metadata with
        metadata := { currentPage := base, offset := Metadata.NODE_SIZE } } base := by
  obtain ⟨hmap, -⟩ := h.map .metadata hfree (by decide) (by simp)
  have hapart : ∀ r ∈ k.regions, ¬ r.Has base ∧ r.base ≠ base := by
    intro r hr
    have hap := h.ground.regions.fresh_apart hfree (by decide) hr
    have hself := h.regions.has_base hr
    unfold Region.Has PAGE_SIZE at *
    omega
  refine ⟨hmap.setMetadata ⟨h.pools.fullChain, h.pools.emptyChain, h.pools.exclusive,
    fun s n hn => ?_, ⟨show Metadata.NODE_SIZE % 8 = 0 by decide,
      show Metadata.NODE_SIZE ≤ PAGE_SIZE by decide,
      fun _ => ⟨_, List.mem_cons_self .., rfl, rfl, rfl⟩⟩, h.pools.count⟩,
    ⟨_, List.mem_cons_self .., rfl, ?_, fun _ => ?_⟩, fun s hn => ?_⟩
  · obtain ⟨r, hr, hp, hin, -⟩ := h.pools.node s n hn
    exact ⟨r, List.mem_cons_of_mem _ hr, hp, hin, fun hc => absurd hc (hapart r hr).2⟩
  · show base ≤ base ∧ base + Metadata.NODE_SIZE ≤ base + 1 * PAGE_SIZE
    unfold Metadata.NODE_SIZE PAGE_SIZE
    omega
  · show base < base + Metadata.NODE_SIZE
    unfold Metadata.NODE_SIZE
    omega
  · obtain ⟨r, hr, -, hin, -⟩ := (h.pools.node s base hn).has
    refine (hapart r hr).1 (hin base (Nat.le_refl _) ?_)
    unfold Metadata.NODE_SIZE
    omega

/-! ### Publishing a full magazine -/

/-- The core after a node swapped magazines with the thread and went to the full stack. -/
def Core.publish (k : Core) (t c n : Nat) : Core :=
  { k with
    freeMags := setMag k.freeMags t c Magazine.new
    nodes := Function.update k.nodes n
      { next := (k.pools c).fullHead, magazine := k.freeMags t c }
    pools := Function.update k.pools c { k.pools c with fullHead := some n }
    carved := Function.update k.carved c (k.carved c + 1) }

/-- A fresh node joins the full stack. -/
theorem Stacks.publish (h : Stacks full empty k.nodes k.pools k.metadata k.regions k.carved)
    (hn : FreshNode full empty k n) :
    Stacks (Function.update full c (n :: full c)) empty (k.publish t c n).nodes
      (k.publish t c n).pools k.metadata k.regions (k.publish t c n).carved := by
  obtain ⟨hnode, hnew⟩ := hn
  refine ⟨fun c' => ?_, fun c' => ?_, ?_, fun s n' hn' => ?_, h.page, fun c' => ?_⟩
  · show Chain (link (Function.update k.nodes n _)) (Function.update k.pools c _ c').fullHead
      (Function.update full c (n :: full c) c')
    by_cases hc : c' = c
    · subst hc
      rw [Function.update_self, Function.update_self]
      exact link_push (h.fullChain c') (hnew (true, c')) rfl
    · rw [Function.update_of_ne hc, Function.update_of_ne hc]
      exact link_frame (h.fullChain c') (hnew (true, c'))
  · show Chain (link (Function.update k.nodes n _)) (Function.update k.pools c _ c').emptyHead
      (empty c')
    have hchain : Chain (link (k.publish t c n).nodes) (k.pools c').emptyHead (empty c') :=
      link_frame (h.emptyChain c') (hnew (false, c'))
    by_cases hc : c' = c
    · subst hc
      rw [Function.update_self]
      exact hchain
    · rw [Function.update_of_ne hc]
      exact hchain
  · rw [stackBins_full]
    refine h.exclusive.put (List.nodup_singleton n) ?_ (List.Perm.refl _)
    intro s n' hn'
    obtain rfl := List.mem_singleton.mp hn'
    exact hnew s
  · rw [stackBins_full] at hn'
    by_cases hs : s = (true, c)
    · subst hs
      rw [Function.update_self] at hn'
      rcases List.mem_cons.mp hn' with rfl | hn'
      · exact hnode
      · exact h.node (true, c) n' hn'
    · rw [Function.update_of_ne hs] at hn'
      exact h.node s n' hn'
  · show Function.update k.carved c (k.carved c + 1) c' = _
    have hcount := h.count c'
    by_cases hc : c' = c
    · subst hc
      rw [Function.update_self, Function.update_self, List.length_cons]
      omega
    · rw [Function.update_of_ne hc, Function.update_of_ne hc]
      exact hcount

/-- The node and the thread swap their contents. -/
theorem contents_publish (hnew : ∀ c, n ∉ full c) :
    contents (Function.update full c (n :: full c)) (k.publish t c n) L
      = Function.update (Function.update (contents full k L) (.node c n)
          (contents full k L (.freeMag t c))) (.freeMag t c) (contents full k L (.node c n)) := by
  have hgive : contents full k L (.node c n) = Magazine.new.slots := by
    rw [Magazine.new_slots]
    exact if_neg (hnew c)
  have htake : contents full k L (.freeMag t c) = (k.freeMags t c).slots := rfl
  rw [hgive, htake, ← contents_pushFull hnew]
  exact contents_setFree (k := { k with nodes := (k.publish t c n).nodes })

/-- A full magazine is published in a fresh node. -/
theorem Inv.publish (h : Inv full empty k L) (hn : FreshNode full empty k n)
    (hfull : (k.freeMags t c).slots.length = MAGAZINE_CAPACITY) :
    Inv (Function.update full c (n :: full c)) empty (k.publish t c n) L := by
  have hnew : ∀ c, n ∉ full c := fun c => hn.2 (true, c)
  have hcontents := contents_publish (k := k) (L := L) (c := c) (t := t) hnew
  refine {
    regions := h.regions
    blocks := {
      exclusive := by
        rw [hcontents]
        exact h.blocks.exclusive.swap _ _
      carved := by
        rw [hcontents]
        exact forall_swap rfl h.blocks.carved
      mags := fun t' c' => ⟨(h.blocks.mags t' c').1, ?_⟩
      nodeMags := fun n' => ?_
      fullMags := fun c' n' hn' => ?_ }
    pools := h.pools.publish hn
    lives := h.lives
    cleared := h.cleared }
  · show (setMag k.freeMags t c Magazine.new t' c').OK
    by_cases heq : t' = t ∧ c' = c
    · obtain ⟨rfl, rfl⟩ := heq
      rw [setMag_self]
      exact Magazine.new_ok
    · rw [setMag_of_ne heq]
      exact (h.blocks.mags t' c').2
  · show (Function.update k.nodes n _ n').magazine.OK
    by_cases hnn : n' = n
    · subst hnn
      rw [Function.update_self]
      exact (h.blocks.mags t c).2
    · rw [Function.update_of_ne hnn]
      exact h.blocks.nodeMags n'
  · show (Function.update k.nodes n _ n').magazine.slots.length = MAGAZINE_CAPACITY
    by_cases hnn : n' = n
    · subst hnn
      rw [Function.update_self]
      exact hfull
    · rw [Function.update_of_ne hnn]
      refine h.blocks.fullMags c' n' ?_
      by_cases hc : c' = c
      · subst hc
        rw [Function.update_self] at hn'
        exact (List.mem_cons.mp hn').resolve_left hnn
      · rw [Function.update_of_ne hc] at hn'
        exact hn'

end Aethalloc.Abi
