/-
The C interface, call by call, and one step of a run.

Every call is a short program over `alloc` and `dealloc`, and is followed through
them.  What it writes itself lies inside a range: `calloc` and `realloc` write the
block they return, `posix_memalign` the pointer it was given, which the client must
own.  `step_keeps` then says of any step of a run that it keeps the invariant, the
bytes of what stays live, and the blocks.
-/
import Aethalloc.Proofs.Abi.Dealloc

namespace Aethalloc.Abi

open Lib

variable {full empty : Nat → List Nat} {k : Core} {h : Heap} {L : List Allocation} {a : Allocation}
  {P : Nat → Prop} {t c size align : Nat}

/-- A call that returns a block and then writes inside it. -/
theorem Returns.fill {h' : Heap} {ptr : Nat} (hr : Returns h L size align (h', some ptr))
    (mem : Mem) (hmem : ∀ x, ¬ (ptr ≤ x ∧ x < ptr + size) → mem x = h'.core.mem x) :
    Returns h L size align ({ h' with sys := { h'.sys with mem := mem } }, some ptr) := by
  obtain ⟨full', empty', hinv'⟩ := hr.follows.inv
  exact ⟨hr.follows.trans (Follows.fillRange hinv' hmem), hr.carved, hr.regions, by simp⟩

/-- Not one of the eight bytes a pointer is stored in. -/
def Beside (memptr : Nat) (P : Nat → Prop) (x : Nat) : Prop :=
  P x ∧ ¬ (memptr ≤ x ∧ x < memptr + 8)

/-- The eight bytes are the client's. -/
def Owned (k : Core) (L : List Allocation) (memptr : Nat) : Prop :=
  ∀ x, memptr ≤ x → x < memptr + 8 → Within L x ∨ k.foreign (x / PAGE_SIZE) = true

theorem store_follows {memptr v : Nat} (hinv : Inv full empty k L) (hown : Owned k L memptr) :
    Follows (Beside memptr P) k L { k with mem := k.mem.write memptr 8 v } L := by
  refine Follows.of_inv hinv (hinv.setMem _ fun a ha x hx => Mem.write_outside fun hc => ?_)
    (fun x hx => Mem.write_outside hx.2) (fun _ _ hb => hb) rfl rfl
  rcases hown x hc.1 hc.2 with ⟨a', ha', hin⟩ | hforeign
  · exact hinv.ground.range_no_header ha' hin ha hx
  · exact hinv.ground.foreign_no_header hforeign ha hx

/-- A live pointer fits into a word and is not null. -/
theorem ptr_bound (hinv : Inv full empty k L) (ha : a ∈ L) : a.ptr ≠ 0 ∧ a.ptr < 256 ^ 8 := by
  have hpos := hinv.lives.pos a ha
  have hrange : a.InRange a.ptr := ⟨Nat.le_refl _, by omega⟩
  obtain ⟨r, hr, hhas⟩ := hinv.ground.footprint_region ha (hinv.ground.range_footprint ha hrange)
  obtain ⟨hnz, -, -, hend⟩ := hinv.regions.page r hr
  unfold Region.Has at hhas
  omega

namespace Heap

/-! ### The exported functions over magazine caching -/

theorem malloc_eq : h.malloc t size = if size = 0 then (h.ensureInit, none)
    else magazineMode.allocLayout h.ensureInit t (Layout.fromSizeAlign size 8) := rfl

theorem free_eq (ptr : Option Nat) : h.free t ptr = h.dealloc t ptr := rfl

theorem calloc_eq {nmemb : Nat} : h.calloc t nmemb size =
    if nmemb * size < 2 ^ 64 then
      match h.malloc t (nmemb * size) with
      | (h', none) => (h', none)
      | (h', some ptr) =>
          ({ h' with sys := { h'.sys with mem := h'.sys.mem.fill ptr (nmemb * size) 0 } },
            some ptr)
    else
      (h, none) := by
  have hmalloc : magazineMode.malloc h t (nmemb * size) = h.malloc t (nmemb * size) := rfl
  unfold calloc Allocator.calloc
  rw [hmalloc]
  rcases h.malloc t (nmemb * size) with ⟨h', _ | ptr⟩ <;> rfl

theorem realloc_eq (ptr : Nat) : h.realloc t (some ptr) size =
    if size = 0 then
      (h.free t (some ptr), none)
    else
      match h.malloc t size with
      | (h', none) => (h', none)
      | (h', some newPtr) =>
          (Heap.free { h' with sys := { h'.sys with
            mem := h'.sys.mem.copy ptr newPtr (min (h.getAllocSize (some ptr)) size) } }
            t (some ptr), some newPtr) := by
  have hmalloc : magazineMode.malloc h t size = h.malloc t size := rfl
  unfold realloc Allocator.realloc
  simp only [hmalloc]
  rcases h.malloc t size with ⟨h', _ | newPtr⟩ <;> rfl

theorem alignedAlloc_eq : h.alignedAlloc t align size =
    if align = 0 ∨ ¬ align.isPowerOfTwo then (h, none)
    else magazineMode.allocLayout h t (Layout.fromSizeAlign (max size 1) align) := rfl

theorem posixMemalign_eq {memptr : Nat} : h.posixMemalign t memptr align size =
    if align = 0 ∨ ¬ align.isPowerOfTwo ∨ align % 8 ≠ 0 then
      (h, EINVAL)
    else
      match h.alignedAlloc t align size with
      | (h', ptr) =>
          if ptr = none ∧ size ≠ 0 then (h', ENOMEM)
          else (h'.write memptr 8 (toPtr ptr), 0) := rfl

/-! ### Allocating calls -/

theorem allocLayout_returns (hinv : Inv full empty h.core L) :
    Returns h L size align (magazineMode.allocLayout h t (Layout.fromSizeAlign size align)) := by
  unfold Layout.fromSizeAlign
  split
  · rename_i hlayout
    exact alloc_returns hinv ⟨size, align, hlayout.1, hlayout.2⟩
  · exact Returns.nothing hinv rfl

theorem malloc_returns (t size : Nat) (hinv : Inv full empty h.core L) :
    Returns h L size 8 (h.malloc t size) := by
  rw [malloc_eq]
  split
  · exact Returns.nothing hinv rfl
  · have hcore : h.ensureInit.core = h.core := rfl
    exact Returns.of_core hcore (allocLayout_returns hinv)

theorem alignedAlloc_returns (t align size : Nat) (hinv : Inv full empty h.core L) :
    Returns h L (max size 1) align (h.alignedAlloc t align size) := by
  rw [alignedAlloc_eq]
  split
  · exact Returns.nothing hinv rfl
  · exact allocLayout_returns hinv

theorem calloc_returns {nmemb : Nat} (hinv : Inv full empty h.core L) :
    Returns h L (nmemb * size) 8 (h.calloc t nmemb size) := by
  rw [calloc_eq]
  split
  · have hmalloc := malloc_returns t (nmemb * size) hinv
    rcases hm : h.malloc t (nmemb * size) with ⟨h', _ | ptr⟩
    · rw [hm] at hmalloc
      exact hmalloc
    · rw [hm] at hmalloc
      exact hmalloc.fill _ fun x hx => Mem.fill_outside hx
  · exact Returns.nothing hinv rfl

/-! ### Reallocating -/

/-- `realloc` of a live pointer to a size that is not 0 fails and changes nothing, or moves the
allocation with its bytes. -/
theorem realloc_cases (hinv : Inv full empty h.core L) (ha : a ∈ L) (hsize : size ≠ 0) :
    (∃ h', h.realloc t (some a.ptr) size = (h', none) ∧ Returns h L size 8 (h', none)) ∨
      ∃ h' ptr, h.realloc t (some a.ptr) size = (h', some ptr) ∧ (∀ a' ∈ L, a'.ptr ≠ ptr) ∧
        Follows (Within (drop L (some a.ptr))) h.core L h'.core
          ({ ptr := ptr, size := size, align := 8 } :: drop L (some a.ptr)) ∧
        (∀ i < min a.size size, h'.core.mem (ptr + i) = h.core.mem (a.ptr + i)) ∧
        (∀ r ∈ h.core.regions, ¬ (r.purpose = .large ∧ r.Has a.ptr) → r ∈ h'.core.regions) ∧
        ∀ c, a.Small → classOf a.size = some c →
          h'.core.nodeFailures = h.core.nodeFailures → a.block ∈ (h'.core.freeMags t c).slots := by
  have hmalloc := malloc_returns t size hinv
  rw [realloc_eq, if_neg hsize]
  rcases hm : h.malloc t size with ⟨h', _ | ptr⟩
  · rw [hm] at hmalloc
    exact Or.inl ⟨h', rfl, hmalloc⟩
  · rw [hm] at hmalloc
    refine Or.inr ⟨_, ptr, rfl, ?_⟩
    rw [getAllocSize_eq hinv ha, free_eq]
    have hcopy := (hmalloc.fill (h'.sys.mem.copy a.ptr ptr (min a.size size))
      fun x hx => Mem.copy_outside (by omega)).follows
    obtain ⟨full', empty', hinv'⟩ := hcopy.inv
    have hnew : ∀ a' ∈ L, a'.ptr ≠ ptr := by
      intro a' ha' hc
      refine (List.nodup_cons.mp hinv'.lives.ptrs).1 ?_
      exact List.mem_map.mpr ⟨a', ha', hc⟩
    have hmem : a ∈ grow L (some ptr) size 8 := List.mem_cons_of_mem _ ha
    have hdrop : drop (grow L (some ptr) size 8) (some a.ptr)
        = { ptr := ptr, size := size, align := 8 } :: drop L (some a.ptr) := by
      unfold drop grow
      rw [List.filter_cons_of_pos (by simp [(hnew a ha).symm])]
    have hfree := dealloc_follows (t := t) hinv' hmem
    rw [hdrop] at hfree
    refine ⟨hnew, (hcopy.weaken fun x => within_drop).trans (hfree.weaken ?_), fun i hi => ?_,
      fun r hr hother => dealloc_retains hinv' hmem (hmalloc.regions hr) hother,
      fun c hs hclass hnode => ?_⟩
    · rintro x ⟨a', ha', hx⟩
      exact ⟨a', List.mem_cons_of_mem _ ha', hx⟩
    · -- freeing leaves the new range alone, and allocating left the old one
      have hin : i < size := Nat.lt_of_lt_of_le hi (Nat.min_le_right _ _)
      have hkeep := hfree.bytes (ptr + i)
        ⟨_, List.mem_cons_self .., Nat.le_add_right _ _, Nat.add_lt_add_left hin _⟩
      have hold : h'.core.mem (a.ptr + i) = h.core.mem (a.ptr + i) :=
        hmalloc.follows.bytes (a.ptr + i) ⟨a, ha, by unfold Allocation.InRange; omega⟩
      refine hkeep.trans (Eq.trans ?_ hold)
      show h'.sys.mem.copy a.ptr ptr (min a.size size) (ptr + i) = h'.sys.mem (a.ptr + i)
      unfold Mem.copy
      rw [if_pos ⟨Nat.le_add_right _ _, Nat.add_lt_add_left hi _⟩, Nat.add_sub_cancel_left]
    · rcases dealloc_recovers (t := t) hinv' hmem hs hclass with ⟨-, -, hfailed, -⟩ | ⟨-, -, hat⟩
      · -- a failure would have been counted
        refine absurd hcopy.failures ?_
        rw [← hnode]
        exact Nat.not_le_of_lt (Nat.lt_of_lt_of_eq (Nat.lt_succ_self _) hfailed.symm)
      · exact hat.2

/-! ### Storing the pointer -/

/-- `posix_memalign` fails and does nothing, or stores what it allocated. -/
theorem posixMemalign_cases (memptr : Nat) (hinv : Inv full empty h.core L) {h' : Heap} {code : Nat}
    (heq : h.posixMemalign t memptr align size = (h', code)) :
    (code ≠ 0 ∧ h'.core = h.core) ∨
      ∃ h₁ p, code = 0 ∧ h.alignedAlloc t align size = (h₁, p) ∧
        Returns h L (max size 1) align (h₁, p) ∧ h' = h₁.write memptr 8 (toPtr p) := by
  rw [posixMemalign_eq] at heq
  split at heq
  · obtain ⟨rfl, rfl⟩ := Prod.mk.inj heq
    exact Or.inl ⟨by decide, rfl⟩
  · have halloc := alignedAlloc_returns t align size hinv
    rcases ha : h.alignedAlloc t align size with ⟨h₁, p⟩
    rw [ha] at halloc heq
    simp only at heq
    split at heq
    · rename_i hnone
      obtain ⟨rfl, rfl⟩ := Prod.mk.inj heq
      exact Or.inl ⟨by decide, halloc.failed hnone.1⟩
    · obtain ⟨rfl, rfl⟩ := Prod.mk.inj heq
      exact Or.inr ⟨h₁, p, rfl, rfl, halloc, rfl⟩

theorem posixMemalign_follows {memptr : Nat} (hinv : Inv full empty h.core L)
    (hown : Owned h.core L memptr) {h' : Heap} {code : Nat}
    (heq : h.posixMemalign t memptr align size = (h', code)) :
    Follows (Beside memptr (Within L)) h.core L h'.core
      (if code = 0 ∧ h'.read memptr 8 ≠ 0 then grow L (some (h'.read memptr 8)) (max size 1) align
        else L) := by
  rcases posixMemalign_cases memptr hinv heq with ⟨hcode, hcore⟩ | ⟨h₁, p, rfl, -, halloc, rfl⟩
  · rw [if_neg fun hc => hcode hc.1, hcore]
    exact Follows.refl hinv
  · have hstep : Follows (Beside memptr (Within L)) h.core L h₁.core
        (grow L p (max size 1) align) := halloc.follows.weaken fun x hx => hx.1
    obtain ⟨full', empty', hinv'⟩ := hstep.inv
    have hown' : Owned h₁.core (grow L p (max size 1) align) memptr := by
      intro x h1 h2
      rcases hown x h1 h2 with ⟨a', ha', hin⟩ | hforeign
      · refine Or.inl ⟨a', ?_, hin⟩
        cases p with
        | none => exact ha'
        | some ptr => exact List.mem_cons_of_mem _ ha'
      · rw [← hstep.foreign] at hforeign
        exact Or.inr hforeign
    have hstored := hstep.trans (store_follows (v := toPtr p) hinv' hown')
    cases p with
    | none =>
        have hread : (h₁.write memptr 8 (toPtr none)).read memptr 8 = 0 :=
          Mem.read_write (by decide)
        rw [if_neg (by simp [hread])]
        exact hstored
    | some ptr =>
        obtain ⟨hnz, hlt⟩ := ptr_bound hinv' (List.mem_cons_self ..)
        have hread : (h₁.write memptr 8 (toPtr (some ptr))).read memptr 8 = ptr :=
          Mem.read_write hlt
        rw [hread, if_pos ⟨rfl, hnz⟩]
        exact hstored

end Heap

/-! ### One step -/

/-- The bytes a step writes for the client: its own, and the pointer `posix_memalign` stores. -/
def Label.Writes : Label → Nat → Prop
  | .write addr _, x => x = addr
  | .posixMemalign _ memptr _ _ _, x => memptr ≤ x ∧ x < memptr + 8
  | _, _ => False

/-- The bytes a step has no business with: those of a range that is live before and after it. -/
def Spared (w w' : World) (l : Label) (x : Nat) : Prop :=
  (∃ a ∈ w.live, a ∈ w'.live ∧ a.InRange x) ∧ ¬ l.Writes x

variable {w w' : World} {l : Label}

theorem Spared.within {x : Nat} (hx : Spared w w' l x) : Within w.live x := by
  obtain ⟨⟨a, ha, -, hin⟩, -⟩ := hx
  exact ⟨a, ha, hin⟩

theorem Spared.within_live {x : Nat} (hx : Spared w w' l x) : Within w'.live x := by
  obtain ⟨⟨a, -, ha, hin⟩, -⟩ := hx
  exact ⟨a, ha, hin⟩

/-- The rest of the process maps or unmaps a page the allocator does not have. -/
theorem Inv.setForeign {page : Nat} (hinv : Inv full empty k L) (mapped : Bool)
    (hunmapped : k.mapped page = false) :
    Inv full empty { k with foreign := Function.update k.foreign page mapped } L where
  regions := (hinv.ground.setForeign hunmapped).regions
  blocks := hinv.blocks.frame rfl rfl rfl hinv.blocks.carved
  pools := hinv.pools
  lives := hinv.lives
  cleared := hinv.cleared

/-- A call that only allocates. -/
theorem keeps_of_returns {r : Heap × Option Nat} {answers : List (Option Nat)}
    (hr : Returns (w.enter answers) w.live size align r) :
    Keeps (Spared w (w.gain r size align) l) w.heap.core w.live (w.gain r size align).heap.core
      (w.gain r size align).live :=
  (hr.follows.weaken fun _ hx => hx.within).toKeeps

/-- A call that only frees. -/
theorem keeps_dealloc {ptr : Option Nat} {answers : List (Option Nat)}
    (hinv : Inv full empty w.heap.core w.live) (hholds : w.Holds ptr) :
    Keeps (Spared w (w.lose ((w.enter answers).dealloc t ptr) ptr) l) w.heap.core w.live
      ((w.enter answers).dealloc t ptr).core (drop w.live ptr) := by
  cases ptr with
  | none =>
      rw [drop_none]
      exact (Follows.refl hinv).toKeeps
  | some ptr =>
      obtain ⟨a, ha, rfl⟩ := hholds
      exact (Follows.weaken (Heap.dealloc_follows (h := w.enter answers) hinv ha)
        fun _ hx => hx.within_live).toKeeps

/-- What a `realloc` step is: the allocation or the deallocation that C makes of the two special
cases, a failure, or a move. -/
theorem step_realloc {ptr : Option Nat} {answers : List (Option Nat)}
    (hinv : Inv full empty w.heap.core w.live)
    (hstep : step w (.realloc t ptr size answers) = some w') :
    (ptr = none ∧ w' = w.gain ((w.enter answers).malloc t size) size 8) ∨
      ∃ a ∈ w.live, ptr = some a.ptr ∧
        ((size = 0 ∧ w' = w.lose ((w.enter answers).dealloc t ptr) ptr) ∨
          (size ≠ 0 ∧ ∃ heap, Returns (w.enter answers) w.live size 8 (heap, none) ∧
            w' = { w with heap := heap }) ∨
          (size ≠ 0 ∧ ∃ heap new, (w.enter answers).realloc t ptr size = (heap, some new) ∧
            (∀ a' ∈ w.live, a'.ptr ≠ new) ∧
            Follows (Within (drop w.live ptr)) w.heap.core w.live heap.core
              ({ ptr := new, size := size, align := 8 } :: drop w.live ptr) ∧
            (∀ r ∈ w.heap.regions, ¬ (r.purpose = .large ∧ r.Has a.ptr) → r ∈ heap.regions) ∧
            w' = (w.lose heap ptr).gain (heap, some new) size 8)) := by
  have hin : Inv full empty (w.enter answers).core w.live := hinv
  unfold step at hstep
  obtain ⟨⟨hholds, -⟩, hsome⟩ := Option.ite_none_right_eq_some.mp hstep
  cases ptr with
  | none =>
      refine Or.inl ⟨rfl, ?_⟩
      have heq : (w.enter answers).realloc t none size = (w.enter answers).malloc t size := rfl
      have hlose : ∀ heap, w.lose heap none = { w with heap := heap } := by
        intro heap
        have hlive : (w.lose heap none).live = w.live := drop_none
        rw [← hlive]
        rfl
      rw [heq] at hsome
      rcases hm : (w.enter answers).malloc t size with ⟨heap, _ | new⟩
      · rw [hm] at hsome
        simp only [hlose, ite_self] at hsome
        exact (Option.some.inj hsome).symm
      · rw [hm] at hsome
        simp only [hlose] at hsome
        exact (Option.some.inj hsome).symm
  | some ptr =>
      obtain ⟨a, ha, rfl⟩ := hholds
      refine Or.inr ⟨a, ha, rfl, ?_⟩
      by_cases hsize : size = 0
      · have heq : (w.enter answers).realloc t (some a.ptr) size
            = ((w.enter answers).dealloc t (some a.ptr), none) := by
          rw [Heap.realloc_eq, if_pos hsize, Heap.free_eq]
        rw [heq] at hsome
        simp only [if_pos hsize] at hsome
        exact Or.inl ⟨hsize, (Option.some.inj hsome).symm⟩
      · rcases Heap.realloc_cases (t := t) hin ha hsize with
          ⟨heap, heq, hr⟩ | ⟨heap, new, heq, hnew, hmoved, -, hretains, -⟩
        · rw [heq] at hsome
          simp only [if_neg hsize] at hsome
          exact Or.inr (Or.inl ⟨hsize, heap, hr, (Option.some.inj hsome).symm⟩)
        · rw [heq] at hsome
          exact Or.inr (Or.inr ⟨hsize, heap, new, heq, hnew, hmoved, hretains,
            (Option.some.inj hsome).symm⟩)

theorem keeps_realloc {ptr : Option Nat} {answers : List (Option Nat)}
    (hinv : Inv full empty w.heap.core w.live)
    (hstep : step w (.realloc t ptr size answers) = some w') :
    Keeps (Spared w w' l) w.heap.core w.live w'.heap.core w'.live := by
  have hin : Inv full empty (w.enter answers).core w.live := hinv
  rcases step_realloc hinv hstep with ⟨-, rfl⟩ | ⟨a, ha, rfl, ⟨-, rfl⟩ | ⟨-, heap, hr, rfl⟩ |
    ⟨-, heap, new, -, hnew, hmoved, -, rfl⟩⟩
  · exact keeps_of_returns (Heap.malloc_returns t size hin)
  · exact keeps_dealloc hinv ⟨a, ha, rfl⟩
  · exact (hr.follows.weaken fun _ hx => hx.within).toKeeps
  · refine (Follows.weaken hmoved ?_).toKeeps
    rintro x ⟨⟨a', ha', hlive, hx⟩, -⟩
    -- what is live before and after is not the block returned
    rcases List.mem_cons.mp hlive with rfl | hlive
    · exact absurd rfl (hnew _ ha')
    · exact ⟨a', hlive, hx⟩

/-- What a `posix_memalign` step is: the pointer is handed out if one was stored. -/
theorem step_posixMemalign {memptr alignment : Nat} {answers : List (Option Nat)}
    (hstep : step w (.posixMemalign t memptr alignment size answers) = some w') :
    ∃ heap code, (w.enter answers).posixMemalign t memptr alignment size = (heap, code) ∧
      (∀ i < 8, w.Writable (memptr + i)) ∧
      w' = if code = 0 ∧ heap.read memptr 8 ≠ 0 then
          w.gain (heap, some (heap.read memptr 8)) (max size 1) alignment
        else
          { w with heap := heap } := by
  unfold step at hstep
  obtain ⟨⟨-, -, -, hwritable⟩, hsome⟩ := Option.ite_none_right_eq_some.mp hstep
  rcases hm : (w.enter answers).posixMemalign t memptr alignment size with ⟨heap, code⟩
  rw [hm] at hsome
  refine ⟨heap, code, rfl, hwritable, ?_⟩
  simp only at hsome
  split at hsome
  · rename_i hgain
    rw [if_pos hgain]
    exact (Option.some.inj hsome).symm
  · rename_i hnone
    rw [if_neg hnone]
    exact (Option.some.inj hsome).symm

theorem keeps_posixMemalign {memptr alignment : Nat} {answers : List (Option Nat)}
    (hinv : Inv full empty w.heap.core w.live)
    (hstep : step w (.posixMemalign t memptr alignment size answers) = some w') :
    Keeps (Spared w w' (.posixMemalign t memptr alignment size answers)) w.heap.core w.live
      w'.heap.core w'.live := by
  have hin : Inv full empty (w.enter answers).core w.live := hinv
  obtain ⟨heap, code, hm, hwritable, rfl⟩ := step_posixMemalign hstep
  have hown : Owned (w.enter answers).core w.live memptr := by
    intro x h1 h2
    have := hwritable (x - memptr) (by omega)
    rw [Nat.add_sub_cancel' h1] at this
    exact this
  have hfollows := Heap.posixMemalign_follows hin hown hm
  split
  · rename_i hgain
    rw [if_pos hgain] at hfollows
    exact (Follows.weaken hfollows fun _ hx => ⟨hx.within, hx.2⟩).toKeeps
  · rename_i hnone
    rw [if_neg hnone] at hfollows
    exact (Follows.weaken hfollows fun _ hx => ⟨hx.within, hx.2⟩).toKeeps

/-- Every step keeps the invariant, what stays live, and the blocks. -/
theorem step_keeps (hinv : Inv full empty w.heap.core w.live) (hstep : step w l = some w') :
    Keeps (Spared w w' l) w.heap.core w.live w'.heap.core w'.live := by
  have hin : ∀ answers, Inv full empty (w.enter answers).core w.live := fun _ => hinv
  cases l with
  | alloc t layout answers =>
      obtain rfl := Option.some.inj hstep
      exact keeps_of_returns (Heap.alloc_returns (hin answers) layout)
  | dealloc t ptr answers =>
      obtain ⟨hholds, hsome⟩ := Option.ite_none_right_eq_some.mp hstep
      obtain rfl := Option.some.inj hsome
      exact keeps_dealloc hinv hholds
  | malloc t size answers =>
      obtain ⟨-, hsome⟩ := Option.ite_none_right_eq_some.mp hstep
      obtain rfl := Option.some.inj hsome
      exact keeps_of_returns (Heap.malloc_returns t size (hin answers))
  | free t ptr answers =>
      obtain ⟨hholds, hsome⟩ := Option.ite_none_right_eq_some.mp hstep
      obtain rfl := Option.some.inj hsome
      rw [Heap.free_eq]
      exact keeps_dealloc hinv hholds
  | calloc t nmemb size answers =>
      obtain ⟨-, hsome⟩ := Option.ite_none_right_eq_some.mp hstep
      obtain rfl := Option.some.inj hsome
      exact keeps_of_returns (Heap.calloc_returns (hin answers))
  | realloc t ptr size answers =>
      exact keeps_realloc hinv hstep
  | alignedAlloc t alignment size answers =>
      obtain ⟨-, hsome⟩ := Option.ite_none_right_eq_some.mp hstep
      obtain rfl := Option.some.inj hsome
      exact keeps_of_returns (Heap.alignedAlloc_returns t alignment size (hin answers))
  | posixMemalign t memptr alignment size answers =>
      exact keeps_posixMemalign hinv hstep
  | write addr byte =>
      obtain ⟨hwritable, hsome⟩ := Option.ite_none_right_eq_some.mp hstep
      obtain rfl := Option.some.inj hsome
      have hmem : ∀ x, x ≠ addr → Function.update w.heap.core.mem addr byte x = w.heap.core.mem x :=
        fun x hx => Function.update_of_ne hx _ _
      refine (Follows.of_inv hinv (hinv.setMem _ fun a ha x hx => hmem x fun hc => ?_)
        (fun x hx => hmem x hx.2) (fun _ _ hb => hb) rfl rfl).toKeeps
      subst hc
      rcases hwritable with ⟨a', ha', hin'⟩ | hforeign
      · exact hinv.ground.range_no_header ha' hin' ha hx
      · exact hinv.ground.foreign_no_header hforeign ha hx
  | foreign page mapped =>
      obtain ⟨hunmapped, hsome⟩ := Option.ite_none_right_eq_some.mp hstep
      obtain rfl := Option.some.inj hsome
      have hinv' := hinv.setForeign mapped hunmapped
      exact {
        inv := ⟨full, empty, hinv'⟩
        bytes := fun _ _ => rfl
        stored := fun _ b c hb => hinv'.stored_iff.mpr (hinv.stored_iff.mp hb)
        failures := Nat.le_refl _ }

end Aethalloc.Abi
