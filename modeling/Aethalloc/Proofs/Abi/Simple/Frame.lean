/-
Calls in simple-cache mode leave the client's bytes alone.

A call writes into the first words of blocks on the lists, into fresh pages, and into
the block that is being freed.  None of these is live while it is written, so the
bytes of what is live before and after a call are the same.  That is what the mode
needs, besides its invariant, to keep the contract of the C interface.
-/
import Aethalloc.Proofs.Abi.Refinement
import Aethalloc.Proofs.Abi.Simple

namespace Aethalloc.Abi.Simple

open Lib
open Interface (range)

variable {F : Shelf → List Nat} {k k' k'' : Core} {h : Heap} {L : List Allocation} {a : Allocation}
  {s : Shelf} {l : List Nat} {t c b size align : Nat}

/-- The bytes of what is live are as they were, and so are the pages of the rest of the process. -/
structure Frames (L : List Allocation) (k k' : Core) : Prop where
  bytes : ∀ x, Covers L x → k'.arena.mem x = k.arena.mem x
  foreign : k'.arena.foreign = k.arena.foreign

theorem Frames.refl : Frames L k k := ⟨fun _ _ => rfl, rfl⟩

theorem Frames.trans (h₁ : Frames L k k') (h₂ : Frames L k' k'') : Frames L k k'' :=
  ⟨fun x hx => (h₂.bytes x hx).trans (h₁.bytes x hx), h₂.foreign.trans h₁.foreign⟩

/-- The first word of a block that is not live is written. -/
theorem Frames.word (hground : Ground k.arena L) (hb : Carved k.arena.regions b c)
    (hdead : ∀ c, b ∉ liveBlocks L c)
    (hmem : ∀ x, ¬ (b ≤ x ∧ x < b + 8) → k'.arena.mem x = k.arena.mem x)
    (hforeign : k'.arena.foreign = k.arena.foreign) : Frames L k k' where
  bytes x hx := by
    obtain ⟨a, ha, hin⟩ := covers_iff.mp hx
    exact hground.word_footprint hb hdead hmem a ha x (hground.range_footprint ha hin)
  foreign := hforeign

/-- Only fresh pages are written. -/
theorem Frames.fresh {base pages : Nat} (hground : Ground k.arena L)
    (hfree : k.arena.Free base pages) (hpos : pages ≠ 0)
    (hmem : ∀ x, ¬ (base ≤ x ∧ x < base + pages * PAGE_SIZE) →
      k'.arena.mem x = k.arena.mem x)
    (hforeign : k'.arena.foreign = k.arena.foreign) : Frames L k k' where
  bytes x hx := by
    obtain ⟨a, ha, hin⟩ := covers_iff.mp hx
    exact hmem x (hground.footprint_not_fresh hfree hpos ha (hground.range_footprint ha hin))
  foreign := hforeign

/-- A listed block was carved, and is not live. -/
theorem Inv.listed (hinv : Inv F k L) (hb : b ∈ F s) :
    Carved k.arena.regions b s.cls ∧ ∀ c, b ∉ liveBlocks L c := by
  refine ⟨hinv.placed.grid (.listed s) b hb, fun c hc => ?_⟩
  have := hinv.placed.exclusive.unique (.live c) (.listed s) b hc hb
  simp at this

namespace Heap

/-! ### Allocating -/

theorem popBatch_frames : ∀ (n : Nat) {h : Heap} {F : Shelf → List Nat}, Inv F h.core L →
    Frames L h.core (popBatch t c n h).1.core := by
  intro n
  induction n with
  | zero =>
      intro h F _
      exact Frames.refl
  | succ n ih =>
      intro h F hinv
      have hchain := hinv.chains (.shared c)
      unfold popBatch GlobalFreeList.pop
      cases hhead : (h.globalFreeLists c).head with
      | none => exact Frames.refl
      | some b =>
          have hsome : h.core.heads (.shared c) = some b := hhead
          rw [hsome] at hchain
          obtain ⟨g, hF, -⟩ := hchain.exists_cons_of_some
          obtain ⟨hgrid, hdead⟩ := hinv.listed (s := .shared c) (b := b) (by simp [hF])
          have hmove := hinv.takeShared (t := t) hF
          rw [← Heap.core_setGlobal, ← core_pushLocal] at hmove
          refine Frames.trans (Frames.word hinv.ground hgrid hdead (fun x hx => ?_) ?_) (ih hmove)
          · rw [core_pushLocal]
            exact Link.pointer_outside hx
          · rw [core_pushLocal]
            rfl

theorem carveRest_frames {base bs n : Nat}
    (hout : ∀ i, 1 ≤ i → i < n → ∀ x, Covers L x →
      ¬ (base + i * bs ≤ x ∧ x < base + i * bs + 8)) :
    Frames L h.core (h.carveRest t c base bs n).core := by
  have hmem : ∀ i ∈ List.range' 1 (n - 1), ∀ x, Covers L x →
      ¬ (base + i * bs ≤ x ∧ x < base + i * bs + 8) := by
    intro i hi
    have hi' := List.mem_range'_1.mp hi
    exact hout i hi'.1 (by omega)
  unfold carveRest
  generalize List.range' 1 (n - 1) = is at hmem
  induction is generalizing h with
  | nil => exact Frames.refl
  | cons i is ih =>
      rw [List.foldl_cons]
      refine Frames.trans ?_ (ih fun j hj => hmem j (List.mem_cons_of_mem _ hj))
      simp only
      rw [core_pushLocal, core_carve]
      exact ⟨fun x hx => Link.pointer_outside (hmem i (List.mem_cons_self ..) x hx), rfl⟩

theorem serve_frames (hinv : Inv F h.core L) (hF : F (.cache t c) = b :: l) :
    Frames L h.core (h.serve t size c b).1.core := by
  obtain ⟨hgrid, hdead⟩ := hinv.listed (s := .cache t c) (b := b) (by simp [hF])
  have hcore : (h.serve t size c b).1.core
      = { h.core.setMem (h.core.arena.mem.write b 8 size) with
        heads := Function.update h.core.heads (.cache t c) (Link.pointer.read h.core.arena.mem b)
        counts := Function.update h.core.counts (t, c) (h.core.counts (t, c) - 1) } := by
    unfold serve
    simp only
    rw [core_write, core_maybeFlush, core_updateMetrics, core_setList]
    rfl
  rw [hcore]
  exact Frames.word hinv.ground hgrid hdead (fun x hx => Mem.write_outside hx) rfl

theorem allocSingle_frames (hinv : Inv F h.core L) (hreq : SmallRequest size align c) :
    Frames L h.core (h.allocSingle t size (blockSize c) c).1.core := by
  have hpos := blockSize_pos c
  have hmax := blockSize_le hreq.lt
  obtain ⟨pages, hpages⟩ : ∃ pages, max ((blockSize c + PAGE_SIZE - 1) / PAGE_SIZE) 1 = pages :=
    ⟨_, rfl⟩
  obtain ⟨hne, hle, hlt⟩ := pages_bounds (by omega) hpages
  rw [allocSingle_eq hpages]
  rcases h.mapPages_cases pages (.small c) hne hlt with
    ⟨h', heq, hcore⟩ | ⟨h', base, heq, hfree, hcore⟩
  · rw [heq]
    show Frames L h.core h'.core
    rw [hcore]
    exact Frames.refl
  · rw [heq]
    show Frames L h.core (((h'.carve c base).write base 8 size).maybeFlush t).core
    rw [core_maybeFlush, core_write, core_carve, hcore]
    refine Frames.fresh hinv.ground hfree hne (fun x hx => ?_) rfl
    exact (Mem.write_outside (by omega)).trans (Mem.fill_outside hx)

theorem allocMiss_frames (hinv : Inv F h.core L) (hreq : SmallRequest size align c) :
    Frames L h.core (h.allocMiss t size (classSize c) c).1.core := by
  have hbs : classSize c + CACHE_HEADER_SIZE = blockSize c := rfl
  have hpos := blockSize_pos c
  unfold allocMiss
  generalize hh₀ : (h.updateMetrics t ThreadMetrics.countMiss) = h₀
  have hcore₀ : h₀.core = h.core := by
    rw [← hh₀]
    exact core_updateMetrics
  rw [← hcore₀] at hinv ⊢
  simp only [hbs]
  split
  · rcases h₀.mapPages_cases 1 (.small c) (by decide) (by decide) with
      ⟨h', heq, hcore⟩ | ⟨h', base, heq, hfree, hcore⟩
    · rw [heq]
      rw [← hcore] at hinv ⊢
      exact allocSingle_frames hinv hreq
    · rw [heq]
      show Frames L h₀.core ((((h'.carveRest t c base (blockSize c)
        (PAGE_SIZE / blockSize c)).carve c base).write base 8 size).maybeFlush t).core
      rw [core_maybeFlush, core_write, core_carve]
      -- nothing that was live is in the page
      have hpage : ∀ x, Covers L x → ¬ (base ≤ x ∧ x < base + 1 * PAGE_SIZE) := by
        intro x hx
        obtain ⟨a, ha, hin⟩ := covers_iff.mp hx
        exact hinv.ground.footprint_not_fresh hfree (by decide) ha
          (hinv.ground.range_footprint ha hin)
      have hmap : Frames L h₀.core h'.core := by
        rw [hcore]
        exact Frames.fresh hinv.ground hfree (by decide) (fun x hx => Mem.fill_outside hx) rfl
      have hrest : Frames L h'.core
          (h'.carveRest t c base (blockSize c) (PAGE_SIZE / blockSize c)).core := by
        refine carveRest_frames fun i h1 h2 x hx hin => ?_
        have hfit : (i + 1) * blockSize c ≤ PAGE_SIZE :=
          (Nat.mul_le_mul_right _ h2).trans (Nat.div_mul_le_self _ _)
        rw [Nat.succ_mul] at hfit
        exact hpage x hx ⟨by omega, by omega⟩
      refine (hmap.trans hrest).trans ⟨fun x hx => Mem.write_outside fun hin => ?_, rfl⟩
      exact hpage x hx ⟨hin.1, by unfold PAGE_SIZE; omega⟩
  · exact allocSingle_frames hinv hreq

theorem allocGlobal_frames (hinv : Inv F h.core L) (hreq : SmallRequest size align c)
    (hempty : F (.cache t c) = []) :
    Frames L h.core (h.allocGlobal t size (classSize c) c).1.core := by
  unfold allocGlobal
  cases hhead : (h.globalFreeLists c).head with
  | none => exact allocMiss_frames hinv hreq
  | some b =>
      obtain ⟨hbatch, hcount⟩ := popBatch_spec (t := t) (c := c) GLOBAL_FREE_BATCH hinv
      have hframes := popBatch_frames (t := t) (c := c) GLOBAL_FREE_BATCH hinv
      rw [hempty, List.append_nil] at hbatch
      simp only
      generalize popBatch t c GLOBAL_FREE_BATCH h = r at hbatch hcount hframes ⊢
      refine hframes.trans ?_
      split
      · rename_i htaken
        cases hl : ((F (.shared c)).take GLOBAL_FREE_BATCH).reverse with
        | nil =>
            have hnil : (F (.shared c)).length = 0 ∨ GLOBAL_FREE_BATCH = 0 := by
              simpa [Or.comm] using hl
            omega
        | cons b' l' =>
            rw [hl] at hbatch
            have hlist : Function.update (Function.update F (.shared c)
                ((F (.shared c)).drop GLOBAL_FREE_BATCH)) (.cache t c) (b' :: l') (.cache t c)
                  = b' :: l' := Function.update_self ..
            have hhead' : (r.1.threads t).heads c = some b' := by
              have hchain := hbatch.chains (.cache t c)
              rw [hlist, Chain.cons_iff] at hchain
              exact hchain.1
            rw [hhead']
            exact serve_frames hbatch hlist
      · exact allocMiss_frames hbatch hreq

theorem allocSmall_frames (hinv : Inv F h.core L) (hreq : SmallRequest size align c) :
    Frames L h.core (h.allocSmall t size (classSize c) c).1.core := by
  have hchain := hinv.chains (.cache t c)
  unfold allocSmall
  cases hhead : (h.threads t).heads c with
  | none =>
      have hnone : h.core.heads (.cache t c) = none := hhead
      rw [hnone] at hchain
      exact allocGlobal_frames hinv hreq hchain.eq_nil_of_none
  | some b =>
      have hsome : h.core.heads (.cache t c) = some b := hhead
      rw [hsome] at hchain
      obtain ⟨l, hF, -⟩ := hchain.exists_cons_of_some
      exact serve_frames hinv hF

/-- The large path: where the block is, and that its headers are in the fresh pages. -/
theorem allocLarge_frames (hinv : Inv F h.core L) (layout : Layout) (hpos : 0 < layout.size) :
    Frames L h.core (h.allocLarge t layout.size layout.align).1.core ∧
      ∀ p, (h.allocLarge t layout.size layout.align).2 = some p → max 16 layout.align ∣ p := by
  obtain ⟨h₀, hh₀⟩ : ∃ h₀, (h.updateMetrics t ThreadMetrics.countDirect).maybeFlush t = h₀ :=
    ⟨_, rfl⟩
  have hcore₀ : h₀.core = h.core := by
    rw [← hh₀, core_maybeFlush, core_updateMetrics]
  obtain ⟨hne, hle, hlt⟩ := layout.pages_bounds
  unfold PAGE_HEADER_SIZE LARGE_HEADER_SIZE at hle
  have hpages : max ((32 + layout.size + layout.align + PAGE_SIZE - 1) / PAGE_SIZE) 1
      = layout.pages := rfl
  rw [allocLarge_eq hh₀ hpages]
  rcases h₀.mapPages_cases layout.pages .large hne hlt with
    ⟨h', heq, hcore⟩ | ⟨h', base, heq, hfree, hcore⟩
  · rw [heq]
    refine ⟨?_, fun p hp => absurd hp (by simp)⟩
    show Frames L h.core h'.core
    rw [hcore, hcore₀]
    exact Frames.refl
  · rw [heq]
    rw [hcore₀] at hfree
    obtain ⟨hlow, hhigh⟩ := user_bounds hfree.2.2.1 hle layout.isPow2
    refine ⟨?_, fun p hp => ?_⟩
    · simp only [core_write, hcore, hcore₀]
      refine Frames.fresh hinv.ground hfree hne (fun x hx => ?_) rfl
      exact (largeHeaders_outside (by omega) (by omega) (by omega)).trans (Mem.fill_outside hx)
    · obtain rfl : alignUp (base + 32) layout.align = p := Option.some.inj hp
      obtain ⟨h16, halign⟩ := placed_dvd layout hpos hfree.2.1 hfree.2.2.1
      exact max_dvd h16 halign

theorem alloc_frames (hinv : Inv F h.core L) (hlim : Limited F) (layout : Layout) :
    Frames L h.core (h.alloc t layout).1.core ∧
      ∀ p, (h.alloc t layout).2 = some p → max 16 layout.align ∣ p := by
  have hsettled := alloc_settled (t := t) hinv hlim layout
  unfold alloc at hsettled ⊢
  simp only at hsettled ⊢
  split
  · exact ⟨Frames.refl, fun p hp => absurd hp (by simp)⟩
  · rename_i hsize
    have hpos : 0 < layout.size := Nat.pos_of_ne_zero hsize
    rw [if_neg hsize] at hsettled
    split
    · rename_i hsmall
      obtain ⟨c, hc, hclass, hround, -⟩ := classOf_spec hpos hsmall.1
      have hcls : sizeToClass (max (roundUpPow2 layout.size) 16) = some c := hclass
      rw [if_pos hsmall, hcls, hround] at hsettled
      rw [hcls, hround]
      refine ⟨allocSmall_frames hinv ⟨hpos, hsmall, hclass, hc⟩, fun p hp => ?_⟩
      obtain ⟨F', hinv', -⟩ := hsettled
      have hp' : (h.allocSmall t layout.size (classSize c) c).2 = some p := hp
      simp only [hp'] at hinv'
      have h16 := hinv'.ground.small_dvd (a := ⟨p, layout.size, layout.align⟩)
        (List.mem_cons_self ..) hsmall
      exact max_dvd h16 (dvd_of_small_align layout.isPow2 (by omega) h16)
    · exact allocLarge_frames hinv layout hpos

/-! ### Freeing -/

theorem flush_frames (hinv : Inv F h.core L) (hl : F (.cache t c) = l) (hlen : 2 ≤ l.length) :
    Frames L h.core (h.flush t c).core := by
  obtain ⟨n, hn⟩ : ∃ n, l.length / 2 = n + 1 := ⟨l.length / 2 - 1, by omega⟩
  have hlt : n < l.length := by omega
  have hsplit : F (.cache t c) = l.take n ++ l.get ⟨n, hlt⟩ :: l.drop (n + 1) := by
    rw [hl]
    simp
  have hcount : (h.threads t).counts c = l.length := by
    rw [← hl]
    exact hinv.counts t c
  have hchain := hinv.chains (.cache t c)
  rw [hsplit] at hchain
  have htail : follow h.readLink ((h.threads t).counts c / 2 - 1) ((h.threads t).heads c)
      = some (l.get ⟨n, hlt⟩) := by
    have hwalk := hchain.follow_append
    rw [List.length_take_of_le (Nat.le_of_lt hlt)] at hwalk
    rw [hcount, hn]
    exact hwalk
  obtain ⟨hgrid, hdead⟩ := hinv.listed (s := .cache t c) (b := l.get ⟨n, hlt⟩) (by
    rw [hl]
    exact List.get_mem ..)
  rw [core_flush htail]
  refine Frames.word hinv.ground hgrid hdead (fun x hx => ?_) rfl
  exact (Link.pointer_outside hx).trans (Link.pointer_outside hx)

theorem deallocSmall_frames (hinv : Inv F h.core (a :: L)) (hs : a.Small)
    (hclass : classOf a.size = some c) :
    Frames L h.core (h.deallocSmall t c a.block).core := by
  have hpush : Inv (Function.update F (.cache t c) (a.block :: F (.cache t c)))
      ((h.pushLocal t c a.block).countFree t).core L := by
    rw [core_countFree, core_pushLocal]
    exact hinv.free hs hclass
  obtain ⟨hgrid, hdead⟩ := hpush.listed (s := .cache t c) (b := a.block) (by simp)
  have hfirst : Frames L h.core ((h.pushLocal t c a.block).countFree t).core := by
    rw [core_countFree, core_pushLocal] at hgrid ⊢
    exact Frames.word hinv.ground.forget hgrid hdead (fun x hx => Link.pointer_outside hx) rfl
  unfold deallocSmall
  simp only
  split
  · rename_i hlong
    refine hfirst.trans (flush_frames hpush (Function.update_self ..) ?_)
    have hcount := hpush.counts t c
    rw [Function.update_self] at hcount
    rw [← hcount]
    exact Nat.le_trans (by decide) hlong
  · exact hfirst

theorem unmapHeader_frames {base : Nat} : Frames L h.core (h.unmapHeader base).core := by
  unfold unmapHeader
  split
  · unfold unmapPages PageAllocator.dealloc System.munmap
    split
    · exact ⟨fun _ _ => rfl, rfl⟩
    · split
      · exact ⟨fun _ _ => rfl, rfl⟩
      · exact ⟨fun _ _ => rfl, rfl⟩
  · exact Frames.refl

theorem dealloc_frames (hinv : Inv F h.core L) (ha : a ∈ L) :
    Frames (drop L (some a.ptr)) h.core (h.dealloc t (some a.ptr)).core := by
  have hinv' := hinv.perm (hinv.ground.perm_drop ha)
  by_cases hs : a.Small
  · obtain ⟨c, -, hclass, -⟩ := hinv.ground.small_block ha hs
    rw [dealloc_small hinv ha hs hclass]
    exact deallocSmall_frames hinv' hs hclass
  · obtain ⟨r, hr, -⟩ := hinv.ground.large_region ha hs
    have hmagic : h.read (a.ptr - LARGE_HEADER_SIZE) 4 = LARGE_MAGIC := hr.magic
    unfold dealloc
    simp only
    rw [if_pos hmagic, core_countFree]
    exact unmapHeader_frames

theorem getAllocSize_eq (hinv : Inv F h.core L) (ha : a ∈ L) :
    h.getAllocSize (some a.ptr) = a.size :=
  hinv.ground.getAllocSize_eq ha

end Heap

/-! ### Soundness -/

/-- No link is where the client or the rest of the process may write. -/
theorem Inv.link_kept {mem : Mem} (hinv : Inv F k L)
    (hmem : ∀ x, ¬ Covers L x → k.arena.foreign (x / PAGE_SIZE) = false → mem x = k.arena.mem x) :
    ∀ s, ∀ b ∈ F s, ∀ x, b ≤ x → x < b + 8 → mem x = k.arena.mem x := by
  intro s b hb x hlow hhigh
  obtain ⟨hgrid, hdead⟩ := hinv.listed hb
  have hblock := blockSize_pos s.cls
  have hin : b ≤ x ∧ x < b + blockSize s.cls := ⟨hlow, by omega⟩
  refine hmem x (fun hc => ?_) ?_
  · obtain ⟨a, ha, hx⟩ := covers_iff.mp hc
    exact hinv.ground.not_footprint hgrid hdead hin ha (hinv.ground.range_footprint ha hx)
  · obtain ⟨r, hr, -, hhas⟩ := hgrid.has
    exact hinv.ground.regions.own _ (hinv.ground.regions.inMapped r hr x (hhas x hin.1 hin.2))

/-- The invariant of the mode. -/
def Heap.Good (h : Heap) (L : List Allocation) : Prop := Settled h.core L

theorem Heap.alloc_grants (hinv : h.Good L) (layout : Layout) :
    Grants simpleMode Heap.Good h L layout.size layout.align (h.alloc t layout) := by
  obtain ⟨F, hinv, hlim⟩ := hinv
  obtain ⟨hframes, haligned⟩ := Heap.alloc_frames (t := t) hinv hlim layout
  exact ⟨Heap.alloc_settled hinv hlim layout, ⟨hframes.bytes, hframes.foreign⟩, haligned⟩

theorem Heap.dealloc_spares (hinv : h.Good L) (ha : a ∈ L) :
    (h.dealloc t (some a.ptr)).Good (drop L (some a.ptr)) ∧
      simpleMode.Spares (Covers (drop L (some a.ptr))) h (h.dealloc t (some a.ptr)) := by
  obtain ⟨F, hinv, hlim⟩ := hinv
  have hframes := Heap.dealloc_frames (t := t) hinv ha
  exact ⟨Heap.dealloc_settled hinv hlim ha, hframes.bytes, hframes.foreign⟩

theorem simpleMode_dealloc : simpleMode.dealloc = Heap.dealloc := rfl

theorem simpleMode_getAllocSize : simpleMode.getAllocSize = Heap.getAllocSize := rfl

theorem simpleMode_sound : Sound simpleMode Heap.Good where
  sys_setSys _ _ := rfl
  sys_ensureInit _ := rfl
  ensureInit hinv := hinv
  tidy := by
    rintro h L ⟨F, hinv, -⟩
    exact hinv.ground.tidy
  own := by
    rintro h L x ⟨F, hinv, -⟩ hx
    exact hinv.ground.covers_own hx
  alloc := by
    intro h L t layout hinv
    exact Heap.alloc_grants hinv layout
  deallocNull _ _ := rfl
  dealloc := by
    intro h L a t hinv ha
    rw [simpleMode_dealloc]
    exact Heap.dealloc_spares hinv ha
  getAllocSize := by
    rintro h L a ⟨F, hinv, -⟩ ha
    rw [simpleMode_getAllocSize]
    exact Heap.getAllocSize_eq hinv ha
  setMem := by
    rintro h L mem ⟨F, hinv, hlim⟩ hmem
    exact ⟨F, hinv.setMem (hinv.ground.header_kept hmem) (hinv.link_kept hmem), hlim⟩
  setAnswers _ hinv := hinv
  setForeign := by
    rintro h L page mapped ⟨F, hinv, hlim⟩ hunmapped
    exact ⟨F, ⟨hinv.ground.setForeign hunmapped, hinv.chains, hinv.counts, hinv.placed⟩, hlim⟩

/-! ### Whole runs -/

/-- The C interface in simple-cache mode, in a process with any memory and any pages of its own. -/
def interface (mem : Mem) (foreign : Nat → Bool) : Machine (Interface.World Heap) Abi.Label :=
  Interface.machine simpleMode (Heap.start mem foreign)

/--
**Simple caching refines the contract.**  In every run of the C interface in this
mode, whatever threads call, whatever the kernel answers and whatever the client
writes, the calls and their replies are allowed by the contract one after the other,
and the bytes the client finds at the pointers it holds are those the contract says.
-/
theorem simple_refines {mem : Mem} {foreign : Nat → Bool} {w : Interface.World Heap}
    {ls : List Abi.Label}
    (hrun : (interface mem foreign).exec (interface mem foreign).init ls = some w) :
    Runs Allows Store.empty
      ((interface mem foreign).trace (Interface.shown simpleMode) (interface mem foreign).init ls)
      (Interface.view simpleMode w) :=
  Interface.exec_allows simpleMode_sound (Settled.start mem foreign) hrun

/-- Two blocks of a page; one is written, freed by another thread, and got back from it zeroed. -/
theorem simple_refines_handover : ∃ w,
    (interface (fun _ => 0) fun _ => false).exec (interface (fun _ => 0) fun _ => false).init
      [.malloc 0 100 [some 4096], .write 4112 7, .free 1 (some 4112) [], .calloc 1 50 2 []]
        = some w ∧
    Runs Allows Store.empty [(.alloc 100 8, .pointer (some 4112)), (.write 4112 7, .done),
      (.free (some 4112), .done), (.calloc 50 2, .pointer (some 4112))]
        (Interface.view simpleMode w) := by
  have hrun : ((interface (fun _ => 0) fun _ => false).exec
      (interface (fun _ => 0) fun _ => false).init
      [.malloc 0 100 [some 4096], .write 4112 7, .free 1 (some 4112) [], .calloc 1 50 2 []]).isSome
        = true := by decide +kernel
  obtain ⟨w, hw⟩ := Option.isSome_iff_exists.mp hrun
  have htrace : (interface (fun _ => 0) fun _ => false).trace (Interface.shown simpleMode)
      (interface (fun _ => 0) fun _ => false).init
      [.malloc 0 100 [some 4096], .write 4112 7, .free 1 (some 4112) [], .calloc 1 50 2 []]
        = [(.alloc 100 8, .pointer (some 4112)), (.write 4112 7, .done),
          (.free (some 4112), .done), (.calloc 50 2, .pointer (some 4112))] := by decide +kernel
  refine ⟨w, hw, ?_⟩
  rw [← htrace]
  exact simple_refines hw

end Aethalloc.Abi.Simple
