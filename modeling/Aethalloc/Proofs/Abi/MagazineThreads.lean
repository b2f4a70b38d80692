/-
Magazine caching conserves its blocks under every interleaving.

A block is passed on in three ways: inside a thread, between its two magazines and
its clients; in a node, which one thread fills and another empties; and not at all,
when no node can be had for a full magazine.  The stages of a node, from the proof
that the exchange is exact, say at every moment which thread may touch its magazine,
so the blocks in a node are the blocks of whoever works on it.  What is proved here
is that the two fit together: the map from blocks to places changes with every
step in a way that the other threads, who know only their own blocks and nodes, do
not notice.
-/
import Aethalloc.Proofs.Abi.Simple.Exchange
import Aethalloc.Proofs.Abi.MagazineThreads.Exchange

namespace Aethalloc.Abi.MagazineThreads

open Lib
open SimpleExchange (blockSize blocksPerPage blocksAt headerClass)
open MagazineExchange (Stage Own)

variable {Tid Node : Type} {stage stage' : Node → Stage Tid} {place place' : Nat → Place Tid Node}
  {s s' : State Tid Node} {t t' : Tid} {n : Node} {b c size block : Nat} {bs : List Nat}
  {p q : Place Tid Node} {m m' : Magazine}

section Step

variable [DecidableEq Tid] [DecidableEq Node]

/-! ### One step, and runs -/

omit [DecidableEq Node] in
theorem receive_eq (hpc : ∀ c mine n, s.exchange.pc t ≠ .swap c mine n) : receive s t = s := by
  unfold receive
  split
  · rename_i c mine n heq
    exact absurd heq (hpc c mine n)
  · rfl

/-- A thread that fetches a magazine takes its next load, read or write. -/
theorem fetch_move_inv {e : MagazineExchange.State Tid Node} (h : Inv stage place s)
    (htask : s.task t = .refill c size) (he : MagazineExchange.stepMove s.exchange t = some e) :
    ∃ place', Inv stage place' { receive s t with exchange := e } := by
  have ha := h.agrees t
  have hk := h.exchange.pc t
  have hex := MagazineExchange.stepMove_inv h.exchange he
  rw [htask] at ha
  obtain ⟨-, -, hf⟩ := ha
  cases hpc : s.exchange.pc t
  case swap c' mine n =>
    rw [hpc] at hf
    obtain ⟨rfl, -⟩ := hf
    have hrec : receive s t = setAllocMag s t c' (s.exchange.magazine n) := by
      unfold receive
      rw [hpc]
    rw [hrec]
    exact ⟨_, h.swap_node htask hpc he⟩
  all_goals
    refine ⟨place, ?_⟩
    rw [receive_eq (by simp [hpc])]
    simp only [hpc, MagazineExchange.stepMove] at hf hk he
  case popLoad c' mine =>
    obtain ⟨rfl, hempty⟩ := hf
    obtain rfl := Option.some.inj he
    exact h.pop_on htask hempty (by rw [hpc]; rfl)
  case popRead c' mine current =>
    obtain rfl := Option.some.inj he
    exact h.fetch_on htask hex rfl (fun _ => Or.inl rfl) (by rw [hpc]; rfl) hf
  case clear c' n =>
    obtain rfl := Option.some.inj he
    refine h.fetch_on htask hex rfl (fun n' => ?_) (by rw [hpc]; rfl) trivial
    by_cases hn : n' = n
    · rw [hn]
      exact Or.inr (Or.inr hk)
    · exact Or.inl (Function.update_of_ne hn _ _)
  case emptyLoad c' n =>
    obtain rfl := Option.some.inj he
    exact h.fetch_on htask hex rfl (fun _ => Or.inl rfl) (by rw [hpc]; rfl) trivial
  case emptyWrite c' n current =>
    obtain rfl := Option.some.inj he
    exact h.fetch_on htask hex rfl (fun _ => Or.inl rfl) (by rw [hpc]; rfl) trivial
  all_goals first | exact hf.elim | simp at he

/-- A thread that sends a magazine takes its next load, read or write. -/
theorem send_move_inv {e : MagazineExchange.State Tid Node} (h : Inv stage place s)
    (htask : s.task t = .stash c block) (he : MagazineExchange.stepMove s.exchange t = some e) :
    Inv stage place { receive s t with exchange := e } := by
  have ha := h.agrees t
  have hk := h.exchange.pc t
  have hex := MagazineExchange.stepMove_inv h.exchange he
  rw [htask] at ha
  obtain ⟨-, -, hf⟩ := ha
  cases hpc : s.exchange.pc t
  case swap c' mine n =>
    rw [hpc] at hf
    exact hf.elim
  all_goals
    rw [receive_eq (by simp [hpc])]
    simp only [hpc, MagazineExchange.stepMove] at hf hk he
  case store c' n full =>
    obtain ⟨rfl, hfills⟩ := hf
    obtain rfl := Option.some.inj he
    refine h.send_on htask hex rfl (fun n' => ?_) (by rw [hpc]; rfl) ⟨rfl, ?_⟩
    · by_cases hn : n' = n
      · rw [hn]
        exact Or.inr (Or.inl hk)
      · exact Or.inl (Function.update_of_ne hn _ _)
    · simpa [MagazineExchange.setPc] using hfills
  case clearNext c' n =>
    obtain rfl := Option.some.inj he
    exact h.send_on htask hex rfl (fun _ => Or.inl rfl) (by rw [hpc]; rfl) hf
  case fullLoad c' n =>
    obtain rfl := Option.some.inj he
    exact h.send_on htask hex rfl (fun _ => Or.inl rfl) (by rw [hpc]; rfl) hf
  case fullWrite c' n current =>
    obtain rfl := Option.some.inj he
    exact h.send_on htask hex rfl (fun _ => Or.inl rfl) (by rw [hpc]; rfl) hf
  all_goals first | exact hf.elim | simp at he

/-- A thread that fetches a magazine takes its next compare-and-swap. -/
theorem fetch_cas_inv {e : MagazineExchange.State Tid Node} {spurious : Bool}
    (h : Inv stage place s) (htask : s.task t = .refill c size)
    (he : MagazineExchange.stepCas s.exchange t spurious = some e) :
    ∃ stage', Inv stage' place { receive s t with exchange := e } := by
  have ha := h.agrees t
  have hk := h.exchange.pc t
  rw [htask] at ha
  obtain ⟨-, -, hf⟩ := ha
  cases hpc : s.exchange.pc t <;> simp only [hpc, MagazineExchange.stepCas] at hf hk he
  case popCas c' mine current next =>
    rw [receive_eq (by simp [hpc])]
    obtain ⟨rfl, hempty⟩ := hf
    split at he
    · rename_i hok
      obtain rfl := Option.some.inj he
      exact ⟨_, h.pop_full htask hpc hok.1⟩
    · obtain rfl := Option.some.inj he
      exact ⟨stage, h.pop_on htask hempty (by rw [hpc]; rfl)⟩
  case emptyCas c' n current =>
    rw [receive_eq (by simp [hpc])]
    split at he
    · obtain rfl := Option.some.inj he
      exact ⟨_, h.push_empty htask hpc⟩
    · obtain rfl := Option.some.inj he
      exact ⟨stage, h.fetch_on htask (h.exchange.move hk) rfl (fun _ => Or.inl rfl)
        (by rw [hpc]; rfl) trivial⟩
  all_goals first | exact hf.elim | simp at he

/-- A thread that sends a magazine takes its next compare-and-swap. -/
theorem send_cas_inv {e : MagazineExchange.State Tid Node} {spurious : Bool}
    (h : Inv stage place s) (htask : s.task t = .stash c block)
    (he : MagazineExchange.stepCas s.exchange t spurious = some e) :
    ∃ stage', Inv stage' place { receive s t with exchange := e } := by
  have ha := h.agrees t
  have hk := h.exchange.pc t
  rw [htask] at ha
  obtain ⟨-, -, hf⟩ := ha
  cases hpc : s.exchange.pc t <;> simp only [hpc, MagazineExchange.stepCas] at hf hk he
  case fullCas c' n current =>
    rw [receive_eq (by simp [hpc])]
    obtain ⟨rfl, hfills⟩ := hf
    split at he
    · rename_i hok
      obtain rfl := Option.some.inj he
      exact ⟨_, h.push_full htask hpc hok.1⟩
    · obtain rfl := Option.some.inj he
      exact ⟨stage, h.send_on htask (h.exchange.move hk.1) rfl (fun _ => Or.inl rfl)
        (by rw [hpc]; rfl) ⟨rfl, hfills⟩⟩
  all_goals first | exact hf.elim | simp at he

theorem stepExchange_inv {lab : MagazineExchange.Label Tid Node} (h : Inv stage place s)
    (hlab : lab = .move t ∨ ∃ spurious, lab = .cas t spurious)
    (hs : stepExchange s t lab = some s') : ∃ stage' place', Inv stage' place' s' := by
  have ha := h.agrees t
  unfold stepExchange at hs
  split at hs
  · simp at hs
  · rename_i e he
    obtain rfl := Option.some.inj hs
    -- a thread that is not in an exchange has no step of it to take
    have hidle : s.exchange.pc t ≠ .idle := by
      intro hc
      rcases hlab with rfl | ⟨spurious, rfl⟩
      · simp [MagazineExchange.step, MagazineExchange.stepMove, hc] at he
      · simp [MagazineExchange.step, MagazineExchange.stepCas, hc] at he
    cases htask : s.task t <;> rw [htask] at ha
    case refill c size =>
      rcases hlab with rfl | ⟨spurious, rfl⟩
      · exact ⟨stage, fetch_move_inv h htask he⟩
      · obtain ⟨stage', h'⟩ := fetch_cas_inv h htask he
        exact ⟨stage', place, h'⟩
    case stash c block =>
      rcases hlab with rfl | ⟨spurious, rfl⟩
      · exact ⟨stage, place, send_move_inv h htask he⟩
      · obtain ⟨stage', h'⟩ := send_cas_inv h htask he
        exact ⟨stage', place, h'⟩
    all_goals exact absurd ha.1 hidle

theorem allocSwap_inv (h : Inv stage place s) (htask : s.task t = .idle)
    (hempty : (s.allocMags t c).slots = []) (hsize : headerClass size = some c)
    (hs : allocSwap s t c size = some s') : ∃ place', Inv stage place' s' := by
  unfold allocSwap at hs
  split at hs
  · exact ⟨place, h.fetch htask hempty hsize hs⟩
  · have hswap := h.swap htask hempty
    have ha := hswap.agrees t
    rw [show (setFreeMag (setAllocMag s t c (s.freeMags t c)) t c (s.allocMags t c)).task t
      = .idle from htask] at ha
    simp only at hs
    split at hs
    · rename_i block m hpop
      obtain rfl := Option.some.inj hs
      exact ⟨_, hswap.serve ha.2 ha.1 hsize hpop⟩
    · rename_i m hpop
      refine ⟨_, hswap.fetch htask ?_ hsize hs⟩
      rcases Magazine.pop_cases (hswap.allocMag t c).ok with ⟨hnil, -⟩ | ⟨b', m', hsome, -, -⟩
      · exact hnil
      · rw [hsome] at hpop
        simp at hpop

theorem stepAlloc_inv (h : Inv stage place s) (hs : stepAlloc s t size = some s') :
    ∃ place', Inv stage place' s' := by
  unfold stepAlloc at hs
  split at hs
  · rename_i hok
    obtain ⟨htask, hpos, hle⟩ := hok
    have ha := h.agrees t
    rw [htask] at ha
    split at hs
    · simp at hs
    · rename_i c hclass
      rw [← SimpleExchange.headerClass_of_small hpos hle] at hclass
      split at hs
      · rename_i block m hpop
        obtain rfl := Option.some.inj hs
        exact ⟨_, h.serve ha.2 ha.1 hclass hpop⟩
      · rename_i m hpop
        refine allocSwap_inv h htask ?_ hclass hs
        rcases Magazine.pop_cases (h.allocMag t c).ok with ⟨hnil, -⟩ | ⟨b', m', hsome, -, -⟩
        · exact hnil
        · rw [hsome] at hpop
          simp at hpop
  · simp at hs

theorem stepDealloc_inv {node : Option Node} (h : Inv stage place s)
    (hs : stepDealloc s t block node = some s') : ∃ stage' place', Inv stage' place' s' := by
  unfold stepDealloc at hs
  split at hs
  · rename_i hok
    obtain ⟨htask, hin⟩ := hok
    obtain ⟨c, hlive⟩ := (h.books.live block).mp hin
    rw [h.books.sizes block c hlive] at hs
    simp only at hs
    split at hs
    · rename_i m hpush
      obtain rfl := Option.some.inj hs
      exact ⟨stage, _, h.keep htask hlive hpush⟩
    · cases node with
      | none =>
          obtain rfl := Option.some.inj hs
          exact ⟨stage, _, h.lose htask hlive⟩
      | some n =>
          have ha := h.agrees t
          rw [htask] at ha
          unfold publish at hs
          simp only at hs
          split at hs
          · simp at hs
          · rename_i e he
            obtain rfl := Option.some.inj hs
            simp only [MagazineExchange.step] at he
            split at he
            · simp at he
            · rename_i hnew
              simp only [MagazineExchange.stepIdle, ha.1, Option.some.injEq] at he
              subst he
              exact ⟨_, h.publish htask hlive hnew⟩
  · simp at hs

omit [DecidableEq Node] in
theorem stepResume_inv (h : Inv stage place s) (hs : stepResume s t = some s') :
    ∃ place', Inv stage place' s' := by
  have ha := h.agrees t
  unfold stepResume at hs
  split at hs
  · rename_i c size hidle htask
    rw [htask, hidle] at ha
    split at hs
    · rename_i block m hpop
      obtain rfl := Option.some.inj hs
      exact ⟨_, h.serve ha.1 hidle ha.2.1 hpop⟩
    · obtain rfl := Option.some.inj hs
      refine ⟨place, h.build (t := t) h.exchange (fun t' ht => ?_) (h.allocMag t) (h.freeMag t) ?_
        h.full h.node ⟨h.books.carved, h.books.nodup, h.books.live, h.books.sizes, h.books.lost,
          h.books.refused⟩⟩
      · exact ⟨fun _ _ _ => Iff.rfl, rfl, rfl, Function.update_of_ne ht _ _, rfl, fun _ _ _ => rfl⟩
      · simp only [setTask, Function.update_self, hidle]
        unfold missTask
        split
        · rename_i hmany
          exact ⟨rfl, ha.1, ha.2.1, hmany⟩
        · exact ⟨rfl, ha.1, ha.2.1⟩
  · rename_i c block hidle htask
    obtain ⟨m, hpush, hinv⟩ := h.stash htask hidle
    rw [hpush] at hs
    obtain rfl := Option.some.inj hs
    exact ⟨_, hinv⟩
  · simp at hs

omit [DecidableEq Tid] [DecidableEq Node] in
/-- The first block of a page and those that go into the magazine. -/
theorem blocksAt_succ {base k : Nat} :
    blocksAt size base (k + 1) = base ::
      (List.range k).map fun i => base + blockSize size + i * blockSize size := by
  unfold blocksAt
  rw [List.range_succ_eq_map, List.map_cons, List.map_map]
  congr 1
  · simp
  · refine List.map_congr_left fun i _ => ?_
    show base + (i + 1) * blockSize size = base + blockSize size + i * blockSize size
    rw [Nat.add_mul]
    omega

omit [DecidableEq Node] in
/-- A page is cut into blocks: the first is served, and the magazine takes what it has room for. -/
theorem Inv.map_page (h : Inv stage place s) (htask : s.task t = .mapPage c size) {base : Nat}
    (hunused : Unused s (blocksAt size base (blocksPerPage size))) :
    ∃ place', Inv stage place' (MagazineThreads.serve (setAllocMag
      (noteCarved s c (blocksAt size base (room s t c size + 1))) t c
      ((s.allocMags t c).bulkInit (base + blockSize size) (blockSize size)
        (blocksPerPage size - 1))) t size base) := by
  have ha := h.agrees t
  rw [htask] at ha
  obtain ⟨hidle, hno, hsize, hmany⟩ := ha
  have hmag := h.allocMag t c
  obtain ⟨hok, hslots⟩ := Magazine.bulkInit_slots hmag.ok (base + blockSize size)
    (blockSize size) (blocksPerPage size - 1)
  rw [Magazine.slots_length hmag.ok] at hslots
  have hroom : room s t c size + 1 ≤ blocksPerPage size := by
    unfold room
    omega
  have hnd : (blocksAt size base (room s t c size + 1)).Nodup := SimpleExchange.blocksAt_nodup
  have hplace : ∀ b ∈ blocksAt size base (room s t c size + 1), place b = .unmapped := by
    intro b hb
    refine h.books.unmapped (hunused b ?_).2
    obtain ⟨i, hi, rfl⟩ := List.mem_map.mp hb
    exact List.mem_map.mpr ⟨i, List.mem_range.mpr (by have := List.mem_range.mp hi; omega), rfl⟩
  rw [blocksAt_succ] at hnd hplace ⊢
  obtain ⟨hbase, hnd⟩ := List.nodup_cons.mp hnd
  have hcarve := h.carve htask hnd (fun b hb => hplace b (List.mem_cons_of_mem _ hb)) hok hslots
  have hfirst : moved place ((List.range (room s t c size)).map fun i =>
      base + blockSize size + i * blockSize size) (.allocMag t c) base = .unmapped := by
    rw [moved_of_notMem hbase]
    exact hplace base (List.mem_cons_self ..)
  exact ⟨_, hcarve.serve_fresh (hno.moved (by simp)) hidle hsize hfirst⟩

omit [DecidableEq Node] in
theorem stepMap_inv {answer : Option Nat} (h : Inv stage place s)
    (hs : stepMap s t answer = some s') : ∃ place', Inv stage place' s' := by
  have ha := h.agrees t
  -- the thread is told that it gets nothing
  have hfail : ∀ task, Agrees place (setTask s t task) t task (s.exchange.pc t) →
      Inv stage place (setTask s t task) := by
    intro task htask
    refine h.build (t := t) h.exchange (fun t' ht => ?_) (h.allocMag t) (h.freeMag t) ?_
      h.full h.node ⟨h.books.carved, h.books.nodup, h.books.live, h.books.sizes, h.books.lost,
        h.books.refused⟩
    · exact ⟨fun _ _ _ => Iff.rfl, rfl, rfl, Function.update_of_ne ht _ _, rfl, fun _ _ _ => rfl⟩
    · show Agrees place _ t (Function.update s.task t task t) _
      rw [Function.update_self]
      exact htask
  unfold stepMap at hs
  split at hs
  · rename_i c size htask
    rw [htask] at ha
    obtain rfl := Option.some.inj hs
    exact ⟨place, hfail _ ⟨ha.1, ha.2.1, ha.2.2.1⟩⟩
  · rename_i c size base htask
    split at hs
    · rename_i hunused
      obtain rfl := Option.some.inj hs
      exact h.map_page htask hunused
    · simp at hs
  · rename_i c size htask
    rw [htask] at ha
    obtain rfl := Option.some.inj hs
    exact ⟨place, hfail _ ⟨ha.1, ha.2.1⟩⟩
  · rename_i c size base htask
    rw [htask] at ha
    split at hs
    · rename_i hunused
      obtain rfl := Option.some.inj hs
      have hblock : place base = .unmapped := by
        refine h.books.unmapped (hunused base ?_).2
        simp [blocksAt]
      rw [show blocksAt size base 1 = [base] by simp [blocksAt]]
      exact ⟨_, h.serve_fresh ha.2.1 ha.1 ha.2.2 hblock⟩
    · simp at hs
  · simp at hs

theorem step_inv {lab : Label Tid Node} (h : Inv stage place s)
    (hs : (machine Tid Node).step s lab = some s') : ∃ stage' place', Inv stage' place' s' := by
  cases lab with
  | alloc t size => exact ⟨stage, stepAlloc_inv h hs⟩
  | dealloc t block node => exact stepDealloc_inv h hs
  | move t => exact stepExchange_inv h (Or.inl rfl) hs
  | cas t spurious => exact stepExchange_inv h (Or.inr ⟨spurious, rfl⟩) hs
  | resume t => exact ⟨stage, stepResume_inv h hs⟩
  | map t answer => exact ⟨stage, stepMap_inv h hs⟩

omit [DecidableEq Tid] [DecidableEq Node] in
theorem Inv.conserved (h : Inv stage place s) : Conserved s := by
  refine ⟨place, h.books.carved, fun t c => ⟨(h.allocMag t c).all, (h.freeMag t c).all⟩,
    fun c => ?_, fun t c b hb htask => ?_, h.books.nodup, h.books.live, h.books.lost,
    h.books.refused⟩
  · obtain ⟨l, hchain, hnd, hmem⟩ := h.exchange.chain c
    refine ⟨l, hchain, hnd, fun n hn => (h.full n c ((hmem n).mp hn)).all, fun b n hb => ?_⟩
    exact (h.node b n c hb).imp_left (hmem n).mpr
  · have ha := h.agrees t
    rw [htask] at ha
    exact ha.2 b c hb

/--
**Magazine caching conserves its blocks under every interleaving.**  Any number of
threads allocate and free small blocks, and the loads, reads, writes and
compare-and-swaps of their magazine exchanges come in any order, with any answers of
the kernel.  If the metadata allocator gives out no node twice, then at every moment
every block made so far is at one place and in the class it was made for, and as
many blocks are lost as nodes were refused.
-/
theorem threads_conserve (hs : (machine Tid Node).Reaches s) : Conserved s := by
  have hinv : ∃ stage place, Inv stage place s := by
    refine Machine.Reaches.invariant (P := fun s => ∃ stage place, Inv stage place s)
      ⟨_, _, inv_start⟩ ?_ hs
    intro s lab s' hinv hstep
    obtain ⟨stage, place, h⟩ := hinv
    exact step_inv h hstep
  obtain ⟨stage, place, h⟩ := hinv
  exact h.conserved

end Step

/-- Thread 0 allocates 65 blocks of class 7, thread 1 frees them, which fills a magazine and puts it
into node 7, and thread 2 takes the magazine from there. -/
def handover : List (Label Nat Nat) :=
  (List.range 65).flatMap (fun i =>
    [.alloc 0 2048, .move 0, .resume 0, .map 0 (some (4096 * (i + 1)))]) ++
  (List.range 64).map (fun i => .dealloc 1 (4096 * (i + 1)) none) ++
  [.dealloc 1 (4096 * 65) (some 7), .move 1, .move 1, .move 1, .move 1, .cas 1 false, .resume 1,
    .alloc 2 2048, .move 2, .move 2, .cas 2 false, .move 2, .move 2, .move 2, .move 2,
    .cas 2 false, .resume 2]

theorem threads_conserve_handover :
    ∃ s, (machine Nat Nat).exec start handover = some s ∧ s.live = [4096 * 64] ∧ Conserved s := by
  have hlive : ((machine Nat Nat).exec start handover).map (·.live) = some [4096 * 64] := by
    decide +kernel
  obtain ⟨s, hrun, hs⟩ := Option.map_eq_some_iff.mp hlive
  exact ⟨s, hrun, hs, threads_conserve ⟨handover, hrun⟩⟩

end Aethalloc.Abi.MagazineThreads
