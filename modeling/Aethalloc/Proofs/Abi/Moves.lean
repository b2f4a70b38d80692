/-
The moves calls are made of.

Each lemma takes the invariant over one move of the heap: a magazine is swapped
with another, a block leaves a magazine or enters one, a block becomes live or
stops being so, a node changes stacks with its magazine, pages are mapped or given
up.  What a move does to the contents of the places is one equation, and what it
keeps follows from the laws of bins.
-/
import Aethalloc.Proofs.Abi.Invariant

namespace Aethalloc.Abi

open Lib

variable {full empty : Nat → List Nat} {k k' : Core} {L L' : List Allocation} {a : Allocation}
  {b c n t x : Nat} {m : Magazine}

/-! ### What a move does to the contents -/

theorem contents_setAlloc : contents full { k with allocMags := setMag k.allocMags t c m } L
    = Function.update (contents full k L) (.allocMag t c) m.slots := by
  funext p
  cases p with
  | allocMag t' c' =>
      show (setMag k.allocMags t c m t' c').slots = _
      by_cases heq : t' = t ∧ c' = c
      · obtain ⟨rfl, rfl⟩ := heq
        rw [setMag_self, Function.update_self]
      · rw [setMag_of_ne heq, Function.update_of_ne (by simpa using heq)]
        rfl
  | live c' => rw [Function.update_of_ne (by simp)]; rfl
  | freeMag t' c' => rw [Function.update_of_ne (by simp)]; rfl
  | node c' n' => rw [Function.update_of_ne (by simp)]; rfl

theorem contents_setFree : contents full { k with freeMags := setMag k.freeMags t c m } L
    = Function.update (contents full k L) (.freeMag t c) m.slots := by
  funext p
  cases p with
  | freeMag t' c' =>
      show (setMag k.freeMags t c m t' c').slots = _
      by_cases heq : t' = t ∧ c' = c
      · obtain ⟨rfl, rfl⟩ := heq
        rw [setMag_self, Function.update_self]
      · rw [setMag_of_ne heq, Function.update_of_ne (by simpa using heq)]
        rfl
  | live c' => rw [Function.update_of_ne (by simp)]; rfl
  | allocMag t' c' => rw [Function.update_of_ne (by simp)]; rfl
  | node c' n' => rw [Function.update_of_ne (by simp)]; rfl

/-- Both magazines of a thread and class are replaced. -/
theorem contents_setMags (full : Nat → List Nat) (k : Core) (L : List Allocation) (t c : Nat)
    (ma mf : Magazine) : contents full { k with
      allocMags := setMag k.allocMags t c ma
      freeMags := setMag k.freeMags t c mf } L
    = Function.update (Function.update (contents full k L) (.allocMag t c) ma.slots)
      (.freeMag t c) mf.slots := by
  rw [← contents_setAlloc]
  exact contents_setFree (k := { k with allocMags := setMag k.allocMags t c ma })

/-- A small allocation of the class joins the live blocks. -/
theorem contents_gain (full : Nat → List Nat) (k : Core) (L : List Allocation) (hs : a.Small)
    (hc : classOf a.size = some c) : contents full k (a :: L)
      = Function.update (contents full k L) (.live c) (a.block :: liveBlocks L c) := by
  funext p
  cases p with
  | live c' =>
      by_cases hcc : c' = c
      · subst hcc
        rw [Function.update_self]
        show liveBlocks (a :: L) c' = _
        rw [liveBlocks_cons hs hc, Function.update_self]
      · rw [Function.update_of_ne (by simpa using hcc)]
        show liveBlocks (a :: L) c' = liveBlocks L c'
        rw [liveBlocks_cons hs hc, Function.update_of_ne hcc]
  | allocMag t c => rw [Function.update_of_ne (by simp)]; rfl
  | freeMag t c => rw [Function.update_of_ne (by simp)]; rfl
  | node c n => rw [Function.update_of_ne (by simp)]; rfl

/-- A large allocation is in no bin. -/
theorem contents_gain_large (full : Nat → List Nat) (k : Core) (L : List Allocation)
    (hs : ¬ a.Small) : contents full k (a :: L) = contents full k L := by
  funext p
  cases p with
  | live c => show liveBlocks (a :: L) c = liveBlocks L c; rw [liveBlocks_cons_large hs]
  | allocMag t c => rfl
  | freeMag t c => rfl
  | node c n => rfl

/-- A node joins the full stack of the class with its magazine. -/
theorem contents_pushFull (hnew : ∀ c, n ∉ full c) :
    contents (Function.update full c (n :: full c)) { k with
        nodes := Function.update k.nodes n { next := (k.pools c).fullHead, magazine := m } } L
      = Function.update (contents full k L) (.node c n) m.slots := by
  funext p
  cases p with
  | node c' n' =>
      show (if n' ∈ Function.update full c (n :: full c) c' then
        (Function.update k.nodes n _ n').magazine.slots else []) = _
      by_cases hn : n' = n
      · subst hn
        rw [Function.update_self]
        by_cases hc : c' = c
        · subst hc
          rw [Function.update_self, Function.update_self, if_pos (by simp)]
        · rw [Function.update_of_ne hc, if_neg (hnew c'), Function.update_of_ne (by simpa using hc)]
          show [] = if n' ∈ full c' then _ else []
          rw [if_neg (hnew c')]
      · have hmem : n' ∈ Function.update full c (n :: full c) c' ↔ n' ∈ full c' := by
          by_cases hc : c' = c
          · subst hc
            rw [Function.update_self, List.mem_cons, or_iff_right hn]
          · rw [Function.update_of_ne hc]
        have hne : Place.node c' n' ≠ Place.node c n := by simp [hn]
        rw [Function.update_of_ne hn, Function.update_of_ne hne]
        simp only [hmem]
        rfl
  | live c' => rw [Function.update_of_ne (by simp)]; rfl
  | allocMag t' c' => rw [Function.update_of_ne (by simp)]; rfl
  | freeMag t' c' => rw [Function.update_of_ne (by simp)]; rfl

/-- The top node of the full stack of the class leaves it. -/
theorem contents_popFull {rest : List Nat} {nodes : NodeHeap} (hfull : full c = n :: rest)
    (hnd : (full c).Nodup) (hother : ∀ c', n ∈ full c' → c' = c)
    (hsame : ∀ n', n' ≠ n → (nodes n').magazine = (k.nodes n').magazine) :
    contents (Function.update full c rest) { k with nodes := nodes } L
      = Function.update (contents full k L) (.node c n) [] := by
  have hgone : ∀ c', n ∉ Function.update full c rest c' := by
    intro c' hc'
    by_cases hc : c' = c
    · subst hc
      rw [Function.update_self] at hc'
      rw [hfull] at hnd
      exact (List.nodup_cons.mp hnd).1 hc'
    · rw [Function.update_of_ne hc] at hc'
      exact hc (hother c' hc')
  funext p
  cases p with
  | node c' n' =>
      show (if n' ∈ Function.update full c rest c' then (nodes n').magazine.slots else []) = _
      by_cases hn : n' = n
      · subst hn
        rw [if_neg (hgone c')]
        by_cases hc : c' = c
        · subst hc
          rw [Function.update_self]
        · rw [Function.update_of_ne (by simpa using hc)]
          show [] = if n' ∈ full c' then _ else []
          rw [if_neg fun hm => hc (hother c' hm)]
      · have hmem : n' ∈ Function.update full c rest c' ↔ n' ∈ full c' := by
          by_cases hc : c' = c
          · subst hc
            rw [Function.update_self, hfull, List.mem_cons, or_iff_right hn]
          · rw [Function.update_of_ne hc]
        have hne : Place.node c' n' ≠ Place.node c n := by simp [hn]
        rw [Function.update_of_ne hne, hsame n' hn]
        simp only [hmem]
        rfl
  | live c' => rw [Function.update_of_ne (by simp)]; rfl
  | allocMag t' c' => rw [Function.update_of_ne (by simp)]; rfl
  | freeMag t' c' => rw [Function.update_of_ne (by simp)]; rfl

/-! ### Memory -/

namespace Inv

/-- Memory may change wherever there is no header. -/
theorem setMem (h : Inv full empty k L) (mem : Mem)
    (hmem : ∀ a ∈ L, ∀ x, Header k.regions a x → mem x = k.mem x) :
    Inv full empty { k with mem := mem } L where
  regions := h.regions
  blocks := h.blocks.frame rfl rfl rfl h.blocks.carved
  pools := h.pools
  lives := (h.ground.setMem mem hmem).lives
  cleared := h.cleared

/-- Fresh pages are mapped. -/
theorem map {base pages : Nat} (h : Inv full empty k L) (purpose : Purpose)
    (hfree : k.Free base pages) (hpos : pages ≠ 0)
    (hsmall : ∀ c, purpose = .small c → c < 13 ∧ blockSize c ≤ pages * PAGE_SIZE) :
    Inv full empty (k.map base pages purpose) L ∧
      ∀ a ∈ L, ∀ x, Footprint k.regions a x → (k.map base pages purpose).mem x = k.mem x := by
  obtain ⟨hground, hmem⟩ := h.ground.map purpose hfree hpos hsmall
  refine ⟨{
    regions := hground.regions
    blocks := h.blocks.frame rfl rfl rfl fun p b hb =>
      Carved.map (A := k.arena) (h.blocks.carved p b hb) base pages purpose
    pools := ⟨h.pools.fullChain, h.pools.emptyChain, h.pools.exclusive, fun s n hn => ?_,
      ⟨h.pools.page.1, h.pools.page.2.1, fun hle => ?_⟩, h.pools.count⟩
    lives := hground.lives
    cleared := h.cleared }, hmem⟩
  · obtain ⟨r, hr, hrest⟩ := h.pools.node s n hn
    exact ⟨r, List.mem_cons_of_mem _ hr, hrest⟩
  · obtain ⟨r, hr, hrest⟩ := h.pools.page.2.2 hle
    exact ⟨r, List.mem_cons_of_mem _ hr, hrest⟩

/-! ### Magazines -/

/-- The two magazines of a thread and class are replaced, with all blocks accounted for. -/
theorem setMags {ma mf : Magazine} (h : Inv full empty k L) (hoka : ma.OK) (hokf : mf.OK)
    (hex : Exclusive (Function.update (Function.update (contents full k L) (.allocMag t c) ma.slots)
      (.freeMag t c) mf.slots))
    (hcarved : ∀ b, b ∈ ma.slots ∨ b ∈ mf.slots → Carved k.regions b c) :
    Inv full empty { k with
      allocMags := setMag k.allocMags t c ma
      freeMags := setMag k.freeMags t c mf } L := by
  have hcontents := contents_setMags full k L t c ma mf
  have hset : ∀ (mags : Nat → Nat → Magazine) (m : Magazine), (∀ t c, (mags t c).OK) → m.OK →
      ∀ t' c', (setMag mags t c m t' c').OK := by
    intro mags m hmags hm t' c'
    by_cases heq : t' = t ∧ c' = c
    · obtain ⟨rfl, rfl⟩ := heq
      rw [setMag_self]
      exact hm
    · rw [setMag_of_ne heq]
      exact hmags t' c'
  exact {
    regions := h.regions
    blocks := {
      exclusive := by rw [hcontents]; exact hex
      carved := by
        rw [hcontents]
        intro p b hb
        by_cases hf : p = .freeMag t c
        · subst hf
          rw [Function.update_self] at hb
          exact hcarved b (Or.inr hb)
        · rw [Function.update_of_ne hf] at hb
          by_cases ha : p = .allocMag t c
          · subst ha
            rw [Function.update_self] at hb
            exact hcarved b (Or.inl hb)
          · rw [Function.update_of_ne ha] at hb
            exact h.blocks.carved p b hb
      mags := fun t' c' => ⟨hset k.allocMags ma (fun t c => (h.blocks.mags t c).1) hoka t' c',
        hset k.freeMags mf (fun t c => (h.blocks.mags t c).2) hokf t' c'⟩
      nodeMags := h.blocks.nodeMags
      fullMags := h.blocks.fullMags }
    pools := h.pools
    lives := h.lives
    cleared := h.cleared }

/-- Only the alloc magazine is replaced. -/
theorem setAlloc (h : Inv full empty k L) (hok : m.OK)
    (hex : Exclusive (Function.update (contents full k L) (.allocMag t c) m.slots))
    (hcarved : ∀ b ∈ m.slots, Carved k.regions b c) :
    Inv full empty { k with allocMags := setMag k.allocMags t c m } L := by
  have hsame : Function.update (Function.update (contents full k L) (.allocMag t c) m.slots)
      (.freeMag t c) (k.freeMags t c).slots
        = Function.update (contents full k L) (.allocMag t c) m.slots := by
    refine Function.update_eq_self_iff.mpr ?_
    rw [Function.update_of_ne (by simp)]
    rfl
  have hboth := h.setMags (t := t) (c := c) hok (h.blocks.mags t c).2 (by rw [hsame]; exact hex)
    fun b hb => hb.elim (hcarved b) (h.blocks.carved (.freeMag t c) b)
  rw [setMag_same] at hboth
  exact hboth

/-- Only the free magazine is replaced. -/
theorem setFree (h : Inv full empty k L) (hok : m.OK)
    (hex : Exclusive (Function.update (contents full k L) (.freeMag t c) m.slots))
    (hcarved : ∀ b ∈ m.slots, Carved k.regions b c) :
    Inv full empty { k with freeMags := setMag k.freeMags t c m } L := by
  have hsame : Function.update (contents full k L) (.allocMag t c) (k.allocMags t c).slots
      = contents full k L := Function.update_eq_self _ _
  have hboth := h.setMags (t := t) (c := c) (h.blocks.mags t c).1 hok (by rw [hsame]; exact hex)
    fun b hb => hb.elim (h.blocks.carved (.allocMag t c) b) (hcarved b)
  rw [setMag_same] at hboth
  exact hboth

/-- The two magazines of a thread and class change roles. -/
theorem swapMags (h : Inv full empty k L) : Inv full empty { k with
    allocMags := setMag k.allocMags t c (k.freeMags t c)
    freeMags := setMag k.freeMags t c (k.allocMags t c) } L :=
  h.setMags (h.blocks.mags t c).2 (h.blocks.mags t c).1
    (h.blocks.exclusive.swap (.allocMag t c) (.freeMag t c)) fun b hb =>
      hb.elim (h.blocks.carved (.freeMag t c) b) (h.blocks.carved (.allocMag t c) b)

/-- A block comes out of an alloc magazine and is then nowhere. -/
theorem popAlloc (h : Inv full empty k L) (hpop : (k.allocMags t c).pop = (some b, m)) :
    Inv full empty { k with allocMags := setMag k.allocMags t c m } L ∧
      Carved k.regions b c ∧
      ∀ p, b ∉ contents full { k with allocMags := setMag k.allocMags t c m } L p := by
  rcases Magazine.pop_cases (h.blocks.mags t c).1 with ⟨-, hnone⟩ | ⟨b', m', hsome, hok, hslots⟩
  · rw [hnone] at hpop
    exact absurd (Prod.mk.inj hpop).1 (by simp)
  · rw [hsome] at hpop
    obtain ⟨hb, hm⟩ := Prod.mk.inj hpop
    obtain rfl := Option.some.inj hb
    subst hm
    have hperm : (contents full k L (.allocMag t c)).Perm (b' :: m'.slots) := by
      show (k.allocMags t c).slots.Perm _
      rw [hslots]
      exact List.perm_append_singleton b' _
    obtain ⟨hex, hnone⟩ := h.blocks.exclusive.take hperm
    have hcarved : ∀ b ∈ (k.allocMags t c).slots, Carved k.regions b c :=
      h.blocks.carved (.allocMag t c)
    refine ⟨h.setAlloc hok hex fun b hb => hcarved b (by rw [hslots]; simp [hb]),
      hcarved b' (by rw [hslots]; simp), fun p => ?_⟩
    rw [contents_setAlloc]
    exact hnone p

/-- Blocks that are nowhere go into an alloc magazine. -/
theorem putAlloc {l : List Nat} (h : Inv full empty k L) (hok : m.OK)
    (hslots : m.slots = (k.allocMags t c).slots ++ l) (hl : l.Nodup)
    (hnew : ∀ p, ∀ b ∈ l, b ∉ contents full k L p) (hcarved : ∀ b ∈ l, Carved k.regions b c) :
    Inv full empty { k with allocMags := setMag k.allocMags t c m } L := by
  refine h.setAlloc hok (h.blocks.exclusive.put hl hnew ?_) fun b hb => ?_
  · rw [hslots]
    exact List.perm_append_comm
  · rw [hslots] at hb
    rcases List.mem_append.mp hb with hb | hb
    · exact h.blocks.carved (.allocMag t c) b hb
    · exact hcarved b hb

/-- A block that is nowhere goes into a free magazine. -/
theorem putFree (h : Inv full empty k L) (hok : m.OK)
    (hslots : m.slots = (k.freeMags t c).slots ++ [b])
    (hnew : ∀ p, b ∉ contents full k L p) (hcarved : Carved k.regions b c) :
    Inv full empty { k with freeMags := setMag k.freeMags t c m } L := by
  refine h.setFree hok (h.blocks.exclusive.put (List.nodup_singleton b) ?_ ?_) fun b' hb => ?_
  · intro p b' hb'
    obtain rfl := List.mem_singleton.mp hb'
    exact hnew p
  · rw [hslots]
    exact List.perm_append_comm
  · rw [hslots] at hb
    rcases List.mem_append.mp hb with hb | hb
    · exact h.blocks.carved (.freeMag t c) b' hb
    · obtain rfl := List.mem_singleton.mp hb
      exact hcarved

end Inv

end Aethalloc.Abi
