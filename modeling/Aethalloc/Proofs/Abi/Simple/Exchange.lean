/-
Simple caching is exact until two threads pop one list at once.

A pop of a global list reads the link of the block it found at the head and then
swaps that link in, if the block is the head still.  Only a pop takes blocks off
the list, so a thread that is the only one popping knows that its block has stayed
where it was, and that its link has not been written since: a block on the list
belongs to nobody who could write to it.  Pushes do no harm, and pops of other
classes do not either.

From that everything else follows.  The invariant keeps the place of every block;
each step moves blocks from one place to another, and what a thread knows about
its own blocks survives what the others do, because they move only theirs.  The
last theorem shows the run in which two pops meet and one block goes to two
clients.
-/
import Aethalloc.Lib.Trace
import Aethalloc.Proofs.Abi.Simple.Exchange.Steps

namespace Aethalloc.Abi.SimpleExchange

open Lib

variable {Tid : Type} {place place' : Nat → Place Tid} {s s' : State Tid} {t t' : Tid}
  {b c size block : Nat} {l bs : List Nat} {p q : Place Tid}

section Step

variable [DecidableEq Tid]

/-! ### Where the loops go on -/

omit [DecidableEq Tid] in
/-- For the sizes `alloc` caches, `dealloc` finds the class `alloc` used. -/
theorem headerClass_of_small (hpos : 0 < size) (hle : size ≤ MAX_CACHE_SIZE) :
    headerClass size = sizeToClass (cacheSize size) := by
  have hmod : size % 2 ^ 32 = size := Nat.mod_eq_of_lt (by unfold MAX_CACHE_SIZE at hle; omega)
  have hlarge : size ≠ LARGE_MAGIC := by
    unfold MAX_CACHE_SIZE at hle
    unfold LARGE_MAGIC
    omega
  have hmagic : size ≠ MAGIC := by
    unfold MAX_CACHE_SIZE at hle
    unfold MAGIC
    omega
  unfold headerClass
  rw [hmod, if_neg hlarge, if_pos ⟨hpos, hle, hmagic⟩]

omit [DecidableEq Tid] in
theorem knows_missPc (hno : NoHand place t) (hsize : headerClass size = some c) :
    (missPc c size).Knows place s t := by
  unfold missPc
  split
  · rename_i hmany
    exact ⟨hno, hsize, hmany⟩
  · exact ⟨hno, hsize⟩

omit [DecidableEq Tid] in
theorem knows_afterBatch {transferred : Nat} (hno : NoHand place t)
    (hsize : headerClass size = some c) (hpos : 0 < transferred → s.heads t c ≠ none) :
    (afterBatch s t c size transferred).Knows place s t := by
  unfold afterBatch
  split
  · rename_i hlt
    obtain ⟨x, hx⟩ := Option.ne_none_iff_exists'.mp (hpos hlt)
    rw [hx]
    exact ⟨hno, hsize, hx⟩
  · exact knows_missPc hno hsize

omit [DecidableEq Tid] in
theorem knows_batchPc {batch transferred : Nat} (hno : NoHand place t)
    (hsize : headerClass size = some c) (hpos : 0 < transferred → s.heads t c ≠ none) :
    (batchPc batch s t c size transferred).Knows place s t := by
  unfold batchPc
  split
  · exact ⟨hno, hsize, hpos⟩
  · exact knows_afterBatch hno hsize hpos

omit [DecidableEq Tid] in
theorem Inv.knows_popPc {transferred : Nat} (h : Inv place s) (hno : NoHand place t)
    (hsize : headerClass size = some c) (hpos : 0 < transferred → s.heads t c ≠ none) :
    (popPc s t c size transferred).Knows place s t := by
  unfold popPc
  cases hhead : s.head c with
  | none => exact knows_afterBatch hno hsize hpos
  | some current =>
      obtain ⟨l, hl⟩ := h.global c
      rw [hhead] at hl
      exact ⟨⟨hno, hsize, hpos⟩, hl.head⟩

omit [DecidableEq Tid] in
/-- The walk goes on, or has met as many blocks as it should. -/
theorem knows_walkPc {flushCount batchHead batchTail walked : Nat} (hno : NoHand place t)
    (hle : walked ≤ flushCount) (hw : Walked place s t c flushCount batchHead batchTail walked) :
    (walkPc c flushCount batchHead walked (some batchTail)).Knows place s t := by
  by_cases hlt : walked < flushCount
  · rw [walkPc, if_pos hlt]
    exact ⟨hno, hlt, hw⟩
  · rw [walkPc, if_neg hlt]
    obtain rfl : walked = flushCount := by omega
    exact ⟨hno, hw⟩

omit [DecidableEq Tid] in
theorem Walked.next {flushCount batchHead batchTail walked next : Nat}
    (hw : Walked place s t c flushCount batchHead batchTail walked)
    (hlink : s.link batchTail = some next) :
    Walked place s t c flushCount batchHead next (walked + 1) := by
  obtain ⟨hhead, hcount, pre, post, hchain, hlen, hcached⟩ := hw
  have hpost := hchain.tail_of_append
  rw [hlink] at hpost
  obtain ⟨rest, rfl, -⟩ := hpost.exists_cons_of_some
  refine ⟨hhead, hcount, pre ++ [batchTail], rest, ?_, ?_, ?_⟩
  · rw [← List.append_cons]
    exact hchain
  · rw [List.length_append, List.length_singleton, hlen]
  · rw [← List.append_cons]
    exact hcached

omit [DecidableEq Tid] in
/-- A list at the limit has a first half, so there is a batch to flush. -/
theorem Inv.knows_flushPc {limit : Nat} (h : Inv place s) (hlimit : 2 ≤ limit)
    (hno : NoHand place t) : (flushPc limit s t c).Knows place s t := by
  unfold flushPc
  split
  · rename_i hfull
    cases hhead : s.heads t c with
    | none => exact hno
    | some x =>
        obtain ⟨l, ⟨hchain, -, hmem⟩, hlen⟩ := h.list t c
        rw [hhead] at hchain
        obtain ⟨rest, rfl, -⟩ := hchain.exists_cons_of_some
        refine knows_walkPc hno (by omega) ⟨hhead, rfl, [], rest, hchain, rfl, ?_⟩
        exact fun b hb => (hmem b).mp hb
  · exact hno

/-! ### Pages -/

omit [DecidableEq Tid] in
theorem blocksAt_nodup {base n : Nat} : (blocksAt size base n).Nodup := by
  refine List.Nodup.map (fun i j hij => ?_) List.nodup_range
  have hpos : 0 < blockSize size := by
    unfold blockSize CACHE_HEADER_SIZE
    omega
  exact Nat.eq_of_mul_eq_mul_right hpos (by omega : i * blockSize size = j * blockSize size)

omit [DecidableEq Tid] in
/-- A page is its first block and the blocks that go to the list. -/
theorem blocksAt_page {base : Nat} (hmany : 1 < blocksPerPage size) :
    blocksAt size base (blocksPerPage size) = base :: uncarved size base 1 := by
  unfold blocksAt uncarved
  obtain ⟨n, hn⟩ : ∃ n, blocksPerPage size = n + 1 := ⟨blocksPerPage size - 1, by omega⟩
  rw [hn, List.range_eq_range', List.range'_succ, List.map_cons, Nat.zero_mul, Nat.add_zero,
    Nat.add_sub_cancel]

omit [DecidableEq Tid] in
theorem uncarved_cons {base i : Nat} (hi : i < blocksPerPage size) :
    uncarved size base i = (base + i * blockSize size) :: uncarved size base (i + 1) := by
  unfold uncarved
  obtain ⟨n, hn⟩ : ∃ n, blocksPerPage size - i = n + 1 := ⟨blocksPerPage size - i - 1, by omega⟩
  rw [hn, List.range'_succ, List.map_cons, show blocksPerPage size - (i + 1) = n by omega]

omit [DecidableEq Tid] in
/-- The loop over the blocks of a page goes on, or the first block is served. -/
theorem knows_carvePc {base i : Nat} (hhand : Hand place t c (base :: uncarved size base i))
    (hsize : headerClass size = some c) : (carvePc c size base i).Knows place s t := by
  unfold carvePc
  split
  · rename_i hi
    exact ⟨hhand, hsize, hi⟩
  · rename_i hi
    have hnil : uncarved size base i = [] := by
      unfold uncarved
      rw [show blocksPerPage size - i = 0 by omega]
      rfl
    rw [hnil] at hhand
    exact ⟨hhand, hsize⟩

/-! ### One step, and runs -/

theorem stepAlloc_inv (h : Inv place s) (hs : stepAlloc s t size = some s') : Inv place s' := by
  unfold stepAlloc at hs
  split at hs
  · rename_i hok
    obtain ⟨hidle, hpos, hle⟩ := hok
    have hno := h.knows t
    rw [hidle] at hno
    split at hs
    · simp at hs
    · rename_i c hclass
      rw [← headerClass_of_small hpos hle] at hclass
      split at hs
      · rename_i block hhead
        obtain rfl := Option.some.inj hs
        exact h.move ⟨hno, hclass, hhead⟩
      · obtain rfl := Option.some.inj hs
        exact h.move ⟨hno, hclass⟩
  · simp at hs

theorem stepDealloc_inv (h : Inv place s) (hs : stepDealloc s t block = some s') :
    ∃ place', Inv place' s' := by
  unfold stepDealloc at hs
  split at hs
  · rename_i hok
    obtain rfl := Option.some.inj hs
    have hno := h.knows t
    rw [hok.1] at hno
    exact h.dealloc hno hok.2
  · simp at hs

/-- A freed block goes to the front of the list, which may then have to be flushed. -/
theorem Inv.free {limit : Nat} (h : Inv place s) (hlimit : 2 ≤ limit)
    (hhand : Hand place t c [block]) :
    Inv (moved place [block] (.cached t c))
      (setPc (pushLocal s t c block) t (flushPc limit (pushLocal s t c block) t c)) := by
  have hno : NoHand (moved place [block] (.cached t c)) t := hhand.give_all (by simp)
  have hidle : Inv (moved place [block] (.cached t c)) (setPc (pushLocal s t c block) t .idle) :=
    h.push_local hhand (List.mem_singleton_self block) hno
  have hflush := hidle.move (hidle.knows_flushPc (c := c) hlimit hno)
  unfold setPc at hflush
  rw [Function.update_idem] at hflush
  exact hflush

theorem stepMove_inv {limit batch : Nat} (h : Inv place s) (hlimit : 2 ≤ limit)
    (hs : stepMove limit batch s t = some s') : ∃ place', Inv place' s' := by
  have hk := h.knows t
  unfold stepMove at hs
  cases hpc : s.pc t <;> simp only [hpc] at hs hk
  case serve c size block =>
    obtain rfl := Option.some.inj hs
    exact ⟨_, h.serve hk.1 hk.2.1 hk.2.2⟩
  case stamp c size block =>
    obtain rfl := Option.some.inj hs
    exact ⟨_, h.stamp hk.1 hk.2⟩
  case probe c size =>
    split at hs
    · obtain rfl := Option.some.inj hs
      exact ⟨place, h.move (knows_missPc hk.1 hk.2)⟩
    · obtain rfl := Option.some.inj hs
      exact ⟨place, h.move (knows_batchPc hk.1 hk.2 (by simp))⟩
  case popLoad c size transferred =>
    obtain rfl := Option.some.inj hs
    exact ⟨place, h.move (h.knows_popPc hk.1 hk.2.1 hk.2.2)⟩
  case popRead c size transferred current =>
    obtain rfl := Option.some.inj hs
    exact ⟨place, h.move ⟨hk.1, hk.2, rfl⟩⟩
  case keep c size transferred block =>
    obtain rfl := Option.some.inj hs
    refine ⟨_, h.push_local hk.1 (List.mem_singleton_self block) ?_⟩
    refine knows_batchPc (hk.1.give_all (by simp)) hk.2 fun _ => ?_
    simp [pushLocal, setList]
  case carve c size base i =>
    obtain rfl := Option.some.inj hs
    obtain ⟨hhand, hsize, hi⟩ := hk
    rw [uncarved_cons hi] at hhand
    refine ⟨_, h.push_local hhand (by simp) ?_⟩
    exact knows_carvePc (hhand.give_second (by simp)) hsize
  case readSize block =>
    obtain ⟨c, hhand, hclass⟩ := hk
    rw [hclass] at hs
    obtain rfl := Option.some.inj hs
    exact ⟨place, h.move hhand⟩
  case free c block =>
    obtain rfl := Option.some.inj hs
    exact ⟨_, h.free hlimit hk⟩
  case walk c flushCount batchHead batchTail walked =>
    obtain rfl := Option.some.inj hs
    obtain ⟨hno, hlt, hw⟩ := hk
    refine ⟨place, h.move ?_⟩
    cases hlink : s.link batchTail with
    | none => exact hno
    | some next => exact knows_walkPc hno hlt (hw.next hlink)
  case cut c flushCount batchHead batchTail =>
    obtain rfl := Option.some.inj hs
    exact ⟨place, h.move ⟨hk.1, hk.2, rfl⟩⟩
  case detach c flushCount batchHead batchTail newLocalHead =>
    obtain ⟨hno, hw, rfl⟩ := hk
    obtain rfl := Option.some.inj hs
    exact h.detach hno hw
  case pushLoad c batchHead batchTail =>
    obtain rfl := Option.some.inj hs
    obtain ⟨l, hhand, hb⟩ := hk
    exact ⟨place, h.move ⟨l, hhand, hb, h.head_ne_zero⟩⟩
  case pushWrite c batchHead batchTail current =>
    obtain rfl := Option.some.inj hs
    obtain ⟨l, hhand, hb, hcur⟩ := hk
    exact ⟨place, h.push_write hhand hb hcur⟩
  all_goals simp at hs

theorem stepCas_inv {spurious : Bool} (h : Inv place s) (hone : OnePop s)
    (hs : stepCas s t spurious = some s') : ∃ place', Inv place' s' := by
  have hk := h.knows t
  unfold stepCas at hs
  cases hpc : s.pc t <;> simp only [hpc] at hs hk
  case popCas c size transferred current next =>
    split at hs
    · rename_i hok
      obtain rfl := Option.some.inj hs
      exact ⟨_, h.pop hone hpc hok.1⟩
    · obtain rfl := Option.some.inj hs
      obtain ⟨⟨hno, hsize, hpos⟩, -, -⟩ := hk
      exact ⟨place, h.move (h.knows_popPc hno hsize hpos)⟩
  case pushCas c batchHead batchTail current =>
    obtain ⟨l, hhand, hb, hlink⟩ := hk
    split at hs
    · rename_i hok
      obtain rfl := Option.some.inj hs
      exact ⟨_, h.push_batch hhand hb (hlink.trans hok.1.symm)⟩
    · obtain rfl := Option.some.inj hs
      exact ⟨place, h.move ⟨l, hhand, hb, h.head_ne_zero⟩⟩
  all_goals simp at hs

theorem stepMap_inv {answer : Option Nat} (h : Inv place s)
    (hs : stepMap s t answer = some s') : ∃ place', Inv place' s' := by
  have hk := h.knows t
  unfold stepMap at hs
  cases hpc : s.pc t <;> cases answer <;> simp only [hpc] at hs hk
  case mapPage.none c size =>
    obtain rfl := Option.some.inj hs
    exact ⟨place, h.move ⟨hk.1, hk.2.1⟩⟩
  case mapPage.some c size base =>
    split at hs
    · rename_i hunused
      obtain rfl := Option.some.inj hs
      obtain ⟨hno, hsize, hmany⟩ := hk
      refine h.map hno blocksAt_nodup hunused fun place' hhand => ?_
      rw [blocksAt_page hmany] at hhand
      exact knows_carvePc hhand hsize
    · simp at hs
  case mapSingle.none c size =>
    obtain rfl := Option.some.inj hs
    exact ⟨place, h.move hk.1⟩
  case mapSingle.some c size base =>
    split at hs
    · rename_i hunused
      obtain rfl := Option.some.inj hs
      refine h.map hk.1 blocksAt_nodup hunused fun place' hhand => ⟨?_, hk.2⟩
      simpa [blocksAt] using hhand
    · simp at hs
  all_goals simp at hs

/-- As long as no two threads pop one list at once, every block has its place. -/
theorem step_inv {limit batch : Nat} {lab : Label Tid} (h : Inv place s) (hlimit : 2 ≤ limit)
    (hone : OnePop s) (hs : (machine Tid limit batch).step s lab = some s') :
    ∃ place', Inv place' s' := by
  cases lab with
  | alloc t size => exact ⟨place, stepAlloc_inv h hs⟩
  | dealloc t block => exact stepDealloc_inv h hs
  | move t => exact stepMove_inv h hlimit hs
  | cas t spurious => exact stepCas_inv h hone hs
  | map t answer => exact stepMap_inv h hs

omit [DecidableEq Tid] in
theorem Inv.conserved (h : Inv place s) : Conserved s := by
  refine ⟨place, h.carved, fun t c => ?_, h.global, fun t c b hb hidle => ?_, h.nodup, h.live⟩
  · obtain ⟨l, ⟨hchain, hnd, hmem⟩, hlen⟩ := h.list t c
    exact ⟨l, hchain, hnd, hlen, hmem⟩
  · have hno := h.knows t
    rw [hidle] at hno
    exact hno b c hb

/--
**Simple caching conserves its blocks until two pops of one list meet.**  In every
interleaving of any number of threads that allocate and free small blocks, for any
answers of the kernel: every block made so far is at one place, and in the class
it was made for, unless the run has passed through a state in which two threads
were between the load and the swap of a pop of the same global list.
-/
theorem exchange_conserves {limit batch : Nat} (hlimit : 2 ≤ limit) {ls : List (Label Tid)}
    (hrun : (machine Tid limit batch).exec start ls = some s) :
    Conserved s ∨ ∃ ls₀ u, ls₀ <+: ls ∧ (machine Tid limit batch).exec start ls₀ = some u ∧
      ¬ OnePop u := by
  have hstep : ∀ (s : State Tid) (lab : Label Tid) (s' : State Tid), (∃ place, Inv place s) →
      OnePop s → (machine Tid limit batch).step s lab = some s' → ∃ place, Inv place s' := by
    intro s lab s' hinv hone hs
    obtain ⟨place, h⟩ := hinv
    exact step_inv h hlimit hone hs
  rcases Machine.exec_until hstep ls start s ⟨_, inv_start⟩ hrun with ⟨place, h⟩ | hbad
  · exact Or.inl h.conserved
  · exact Or.inr hbad

end Step

/-! ### Runs -/

/-- The decidable test for `OnePop`, where there are two threads. -/
def onePopCheck (s : State Bool) : Bool :=
  (s.pc false).popping.isNone || (s.pc false).popping != (s.pc true).popping

theorem onePop_of_check (s : State Bool) (hcheck : onePopCheck s = true) : OnePop s := by
  intro t t' c ht ht'
  cases t <;> cases t' <;> simp_all [onePopCheck]

/-- One thread flushes a block and is about to flush a second one when the other thread pops the
first.  The flush comes before the swap, so the pop tries again and serves the second block. -/
def handover : List (Label Bool) :=
  [.alloc false 2048, .move false, .map false (some 4096), .move false,
    .alloc false 2048, .move false, .map false (some 8192), .move false,
    .alloc false 2048, .move false, .map false (some 12288), .move false,
    .dealloc false 4096, .move false, .move false,
    .dealloc false 8192, .move false, .move false, .move false, .move false, .move false,
    .move false, .cas false false,
    .dealloc false 12288, .move false, .move false, .move false, .move false, .move false,
    .alloc true 2048, .move true, .move true, .move false, .move true,
    .cas false false, .cas true false, .move true, .cas true false, .move true, .move true,
    .move true]

/-- Every block is at one place: with a client, on the global list and in a thread's list. -/
theorem exchange_conserves_handover :
    ∃ s, (machine Bool 2 1).exec start handover = some s ∧ s.live = [12288] ∧
      s.head 7 = some 8192 ∧ s.heads false 7 = some 4096 ∧ Conserved s := by
  have hrun : ((machine Bool 2 1).exec start handover).map (fun s =>
      (s.live, s.head 7, s.heads false 7, onePopCheck s))
      = some ([12288], some 8192, some 4096, true) := by decide +kernel
  have hall : ((machine Bool 2 1).trace (fun u _ => onePopCheck u) start handover).all id
      = true := by decide +kernel
  obtain ⟨s, hs, hvals⟩ := Option.map_eq_some_iff.mp hrun
  simp only [Prod.mk.injEq] at hvals
  obtain ⟨hlive, hhead, hlocal, hend⟩ := hvals
  refine ⟨s, hs, hlive, hhead, hlocal, ?_⟩
  rcases exchange_conserves (by decide) hs with hconserved | ⟨ls₀, u, hpre, hu, hbad⟩
  · exact hconserved
  · exact absurd (Machine.holds_of_trace onePop_of_check hs hall hend ls₀ hpre u hu) hbad

/--
Two pops meet.  Thread 1 has read the link of the block at the head; thread 2
takes that block and the next, and brings the first back; thread 1 swaps the second
in although a client has it, and thread 3 serves it again.
-/
theorem two_pops_double_serve : ∃ s, (machine Nat 2 1).Reaches s ∧ ¬ s.live.Nodup := by
  have hlive : ((machine Nat 2 1).exec start
      [.alloc 0 2048, .move 0, .map 0 (some 4096), .move 0,
        .alloc 0 2048, .move 0, .map 0 (some 8192), .move 0,
        .alloc 0 2048, .move 0, .map 0 (some 12288), .move 0,
        .dealloc 0 4096, .move 0, .move 0,
        .dealloc 0 8192, .move 0, .move 0, .move 0, .move 0, .move 0, .move 0, .cas 0 false,
        .dealloc 0 12288, .move 0, .move 0, .move 0, .move 0, .move 0, .move 0, .cas 0 false,
        .alloc 1 2048, .move 1, .move 1, .move 1,
        .alloc 2 2048, .move 2, .move 2, .move 2, .cas 2 false, .move 2, .move 2, .move 2,
        .alloc 2 2048, .move 2, .move 2, .move 2, .cas 2 false, .move 2, .move 2, .move 2,
        .alloc 2 2048, .move 2, .map 2 (some 16384), .move 2,
        .dealloc 2 16384, .move 2, .move 2,
        .dealloc 2 12288, .move 2, .move 2, .move 2, .move 2, .move 2, .move 2, .cas 2 false,
        .cas 1 false, .move 1, .move 1, .move 1,
        .alloc 3 2048, .move 3, .move 3, .move 3, .cas 3 false, .move 3, .move 3, .move 3]).map
      (·.live) = some [8192, 12288, 8192] := by
    decide +kernel
  obtain ⟨s, hrun, hs⟩ := Option.map_eq_some_iff.mp hlive
  refine ⟨s, ⟨_, hrun⟩, ?_⟩
  rw [hs]
  decide

end Aethalloc.Abi.SimpleExchange
