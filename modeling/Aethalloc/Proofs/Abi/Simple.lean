/-
Simple-cache mode loses no block and keeps none twice.

In every state a run reaches, whatever threads call and in whatever order, the links
in memory are lists, and every block ever carved for a class is at one place of that
class.  Freeing a block puts it in front of one list, and a list that has reached its
limit gives exactly the first half of its blocks to the global list.
-/
import Aethalloc.Proofs.Abi.Simple.Calls

namespace Aethalloc.Abi.Simple

open Lib

variable {F : Shelf → List Nat} {w w' : World} {l : Label}

/-! ### The invariant along a run -/

/-- Nothing is mapped, listed or live at the start. -/
theorem Settled.start (mem : Mem) (foreign : Nat → Bool) :
    Settled (Heap.start mem foreign).core [] := by
  have hnil : ∀ p, contents (fun _ => []) [] p = [] := by
    intro p
    cases p with
    | live c => rfl
    | listed s => rfl
  refine ⟨fun _ => [], ⟨Ground.start mem foreign, fun s => ?_, fun t c => rfl, ?_⟩, fun t c => ?_⟩
  · cases s with
    | cache t c => rfl
    | shared c => rfl
  · refine ⟨⟨fun p => ?_, fun p q b hb => ?_⟩, fun p b hb => ?_, fun b c => ?_⟩
    · rw [hnil]
      exact List.nodup_nil
    · rw [hnil] at hb
      exact absurd hb List.not_mem_nil
    · rw [hnil] at hb
      exact absurd hb List.not_mem_nil
    · constructor
      · intro hb
        exact absurd hb List.not_mem_nil
      · rintro ⟨p, -, hb⟩
        rw [hnil] at hb
        exact absurd hb List.not_mem_nil
  · show 0 < MAX_FREE_LIST_LENGTH
    decide

/-- What a free is: the pointer is null or held, and the call is made. -/
theorem step_dealloc {t : Nat} {ptr : Option Nat} (hstep : step w (.dealloc t ptr) = some w') :
    w.Holds ptr ∧ w'.heap = w.heap.dealloc t ptr ∧ w'.live = drop w.live ptr := by
  unfold step at hstep
  simp only at hstep
  split at hstep
  · rename_i hholds
    obtain rfl := Option.some.inj hstep
    exact ⟨hholds, rfl, rfl⟩
  · exact absurd hstep (by simp)

theorem step_settled (h : Settled w.heap.core w.live) (hstep : step w l = some w') :
    Settled w'.heap.core w'.live := by
  obtain ⟨F, hinv, hlim⟩ := h
  cases l with
  | alloc t layout answers =>
      obtain rfl := Option.some.inj hstep
      have hinv' : Inv F (w.enter answers).core w.live := hinv
      exact Heap.alloc_settled hinv' hlim layout
  | dealloc t ptr =>
      obtain ⟨hholds, hheap, hlive⟩ := step_dealloc hstep
      rw [hheap, hlive]
      cases ptr with
      | none =>
          rw [drop_none]
          exact ⟨F, hinv, hlim⟩
      | some p =>
          obtain ⟨a, ha, rfl⟩ := hholds
          exact Heap.dealloc_settled hinv hlim ha
  | write addr byte =>
      unfold step at hstep
      simp only at hstep
      split at hstep
      · rename_i hwritable
        obtain rfl := Option.some.inj hstep
        exact ⟨F, hinv.clientWrite hwritable, hlim⟩
      · exact absurd hstep (by simp)
  | foreign page mapped =>
      unfold step at hstep
      simp only at hstep
      split at hstep
      · rename_i hpage
        obtain rfl := Option.some.inj hstep
        exact ⟨F, ⟨hinv.ground.setForeign hpage, hinv.chains, hinv.counts, hinv.placed⟩, hlim⟩
      · exact absurd hstep (by simp)

theorem reaches_settled {mem : Mem} {foreign : Nat → Bool} (hw : (machine mem foreign).Reaches w) :
    Settled w.heap.core w.live :=
  hw.invariant (P := fun w => Settled w.heap.core w.live) (Settled.start mem foreign)
    fun _ _ _ h hstep => step_settled h hstep

/-! ### Conservation -/

/-- The state of the lists: what they hold, and where every block is. -/
structure Accounted (w : World) (F : Shelf → List Nat) : Prop where
  /-- The links from a head lead through its list and end, and no block comes twice. -/
  list : ∀ s, Chain (Link.pointer.read w.heap.sys.mem)
    (heads w.heap.threads w.heap.globalFreeLists s) (F s) ∧ (F s).Nodup
  /-- No block is on two lists. -/
  apart : ∀ s s' b, b ∈ F s → b ∈ F s' → s = s'
  /-- No two live allocations have one block. -/
  alone : ∀ c, (contents F w.live (.live c)).Nodup
  /-- A block that was carved is at one place, and that is of its class. -/
  carved : ∀ c, ∀ b ∈ w.heap.carved c, ∃ p, (p.cls = c ∧ b ∈ contents F w.live p) ∧
    ∀ q, b ∈ contents F w.live q → q = p
  /-- What is at a place was carved for its class. -/
  genuine : ∀ p, ∀ b ∈ contents F w.live p, b ∈ w.heap.carved p.cls
  counts : ∀ t c, (w.heap.threads t).counts c = (F (.cache t c)).length ∧
    (w.heap.threads t).counts c < MAX_FREE_LIST_LENGTH

/-- Half of the thread's list, rounded down and with the new block in front, goes to the global
list. -/
def Halves (F F' : Shelf → List Nat) (t c b : Nat) : Prop :=
  ∃ batch, batch ++ F' (.cache t c) = b :: F (.cache t c) ∧
    F' (.shared c) = batch ++ F (.shared c) ∧
    batch.length = (b :: F (.cache t c)).length / 2

/-- What freeing a small block does to the lists: only a list that has reached the limit is
flushed. -/
def Frees (w : World) (F : Shelf → List Nat) : Prop :=
  ∀ t c a w', a ∈ w.live → a.Small → classOf a.size = some c →
    step w (.dealloc t (some a.ptr)) = some w' →
    ∃ F', Accounted w' F' ∧ (∀ s, s ≠ .cache t c → s ≠ .shared c → F' s = F s) ∧
      if (a.block :: F (.cache t c)).length < MAX_FREE_LIST_LENGTH then
        F' (.cache t c) = a.block :: F (.cache t c) ∧ F' (.shared c) = F (.shared c)
      else
        Halves F F' t c a.block

theorem Inv.accounted (hinv : Inv F w.heap.core w.live) (hlim : Limited F) : Accounted w F where
  list s := ⟨hinv.chains s, hinv.placed.exclusive.nodup (.listed s)⟩
  apart s s' b hb hb' := by
    have hplace := hinv.placed.exclusive.unique (.listed s) (.listed s') b hb hb'
    simpa using hplace
  alone c := hinv.placed.exclusive.nodup (.live c)
  carved c b hb := by
    obtain ⟨p, hp, hb'⟩ := (hinv.placed.complete b c).mp hb
    exact ⟨p, ⟨hp, hb'⟩, fun q hq => hinv.placed.exclusive.unique q p b hq hb'⟩
  genuine p b hb := (hinv.placed.complete b p.cls).mpr ⟨p, rfl, hb⟩
  counts t c := by
    have hcount : (w.heap.threads t).counts c = (F (.cache t c)).length := hinv.counts t c
    exact ⟨hcount, by rw [hcount]; exact hlim t c⟩

/-- The lists after a free, read off. -/
theorem freed_lists (F : Shelf → List Nat) (t c b : Nat) :
    (∀ s, s ≠ .cache t c → s ≠ .shared c → freed F t c b s = F s) ∧
      if (b :: F (.cache t c)).length < MAX_FREE_LIST_LENGTH then
        freed F t c b (.cache t c) = b :: F (.cache t c) ∧ freed F t c b (.shared c) = F (.shared c)
      else
        Halves F (freed F t c b) t c b := by
  have hne : Shelf.shared c ≠ Shelf.cache t c := by simp
  unfold freed
  simp only
  split
  · refine ⟨fun s hs _ => Function.update_of_ne hs _ _, Function.update_self .., ?_⟩
    exact Function.update_of_ne hne _ _
  · refine ⟨fun s hs hs' => ?_, (b :: F (.cache t c)).take ((b :: F (.cache t c)).length / 2), ?_,
      Function.update_self .., ?_⟩
    · rw [Function.update_of_ne hs', Function.update_of_ne hs]
    · rw [Function.update_of_ne hne.symm, Function.update_self]
      exact List.take_append_drop _ _
    · rw [List.length_take]
      omega

theorem Inv.frees (hinv : Inv F w.heap.core w.live) (hlim : Limited F) : Frees w F := by
  intro t c a w' ha hs hclass hstep
  obtain ⟨-, hheap, hlive⟩ := step_dealloc hstep
  have hfreed : Inv (freed F t c a.block) w'.heap.core w'.live := by
    rw [hheap, hlive, Heap.dealloc_small hinv ha hs hclass]
    exact Heap.deallocSmall_inv (hinv.perm (hinv.ground.perm_drop ha)) hs hclass
  obtain ⟨hrest, hlists⟩ := freed_lists F t c a.block
  exact ⟨freed F t c a.block, hfreed.accounted (hlim.freed t c a.block), hrest, hlists⟩

/-- In every state a run reaches, every block is accounted for and freeing one moves it, and a batch
of others if the list is too long, as it should. -/
theorem reaches_conserved {mem : Mem} {foreign : Nat → Bool}
    (hw : (machine mem foreign).Reaches w) : ∃ F, Accounted w F ∧ Frees w F := by
  obtain ⟨F, hinv, hlim⟩ := reaches_settled hw
  exact ⟨F, hinv.accounted hlim, hinv.frees hlim⟩

/-- A hundred bytes. -/
def hundred : Layout where
  size := 100
  align := 8
  isPow2 := isPowerOfTwo_eight
  bound := by decide

/-- A block that one thread carves and another one frees is allocated again by the other one. -/
theorem reaches_conserved_handover : ∃ w, (machine (fun _ => 0) fun _ => false).exec
      (machine (fun _ => 0) fun _ => false).init
      [.alloc 0 hundred [some 4096], .alloc 0 hundred [], .write 8001 7, .dealloc 1 (some 4112),
        .alloc 1 hundred []] = some w ∧
    w.live.map Allocation.ptr = [4112, 8000] ∧ ∃ F, Accounted w F ∧ Frees w F := by
  have hrun : ((machine (fun _ => 0) fun _ => false).exec
      (machine (fun _ => 0) fun _ => false).init
      [.alloc 0 hundred [some 4096], .alloc 0 hundred [], .write 8001 7, .dealloc 1 (some 4112),
        .alloc 1 hundred []]).map (fun w => w.live.map Allocation.ptr) = some [4112, 8000] := by
    decide +kernel
  obtain ⟨w, hw, hlive⟩ := Option.map_eq_some_iff.mp hrun
  exact ⟨w, hw, hlive, reaches_conserved ⟨_, hw⟩⟩

end Aethalloc.Abi.Simple
