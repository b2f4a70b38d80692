/-
What the calls of the C interface do to what the client holds.

`realloc` moves an allocation with its bytes, or leaves it where it is; `calloc`
returns zeroes.  A call that fails leaves the heap as it found it, down to the
magazines and the stacks: on the way to a failure nothing is ever moved, because a
magazine that could be moved has a block in it to serve.
-/
import Aethalloc.Proofs.Abi

namespace Aethalloc.Abi

open Lib

variable {mem : Mem} {foreign : Nat → Bool} {full empty : Nat → List Nat} {h h' : Heap}
  {L : List Allocation} {a : Allocation} {w w' : World} {l : Label} {t c size align : Nat}

/-! ### `realloc` and `calloc` -/

/-- The bytes of the allocation are the same. -/
def SameBytes (w w' : World) (a : Allocation) : Prop :=
  ∀ i < a.size, w'.heap.sys.mem (a.ptr + i) = w.heap.sys.mem (a.ptr + i)

/-- The thread moved the allocation to `ptr`, where it has `size` bytes. -/
structure Moved (w w' : World) (t : Nat) (a : Allocation) (ptr size : Nat) : Prop where
  live : { ptr := ptr, size := size, align := 8 } ∈ w'.live
  requested : w'.heap.getAllocSize (some ptr) = size
  bytes : ∀ i < min a.size size, w'.heap.sys.mem (ptr + i) = w.heap.sys.mem (a.ptr + i)
  gone : ∀ a' ∈ w'.live, a'.ptr ≠ a.ptr
  others : ∀ a' ∈ w.live, a'.ptr ≠ a.ptr → a' ∈ w'.live ∧ SameBytes w w' a'
  /-- The old block is in the thread's free magazine, unless no node could be had for a full one. -/
  freed : ∀ c, a.Small → classOf a.size = some c → w'.heap.nodeFailures = w.heap.nodeFailures →
    a.block ∈ ((w'.heap.threads t).freeMags c).slots

/-- The allocation stayed as it was. -/
structure Stayed (w w' : World) (a : Allocation) : Prop where
  live : a ∈ w'.live
  requested : w'.heap.getAllocSize (some a.ptr) = a.size
  bytes : SameBytes w w' a

/-- A block of `size` zero bytes is at `ptr`. -/
structure Zeroed (w' : World) (ptr size : Nat) : Prop where
  live : { ptr := ptr, size := size, align := 8 } ∈ w'.live
  requested : w'.heap.getAllocSize (some ptr) = size
  bytes : ∀ i < size, w'.heap.sys.mem (ptr + i) = 0

theorem mem_drop {ptr : Option Nat} {a' : Allocation} :
    a' ∈ drop L ptr ↔ a' ∈ L ∧ some a'.ptr ≠ ptr := by
  unfold drop
  simp

theorem sameBytes_of_bytes {a' : Allocation} (ha' : a' ∈ L)
    (hbytes : ∀ x, Within L x → w'.heap.core.mem x = w.heap.core.mem x) : SameBytes w w' a' := by
  intro i hi
  exact hbytes _ ⟨a', ha', Nat.le_add_right _ _, Nat.add_lt_add_left hi _⟩

theorem realloc_moves (hinv : Inv full empty w.heap.core w.live) (ha : a ∈ w.live) (hpos : 0 < size)
    (hlt : size < 2 ^ 64) (answers : List (Option Nat)) :
    ∃ w', step w (.realloc t (some a.ptr) size answers) = some w' ∧
      match ((w.enter answers).realloc t (some a.ptr) size).2 with
      | some ptr => Moved w w' t a ptr size
      | none => Stayed w w' a := by
  have hin : Inv full empty (w.enter answers).core w.live := hinv
  have hne : size ≠ 0 := Nat.pos_iff_ne_zero.mp hpos
  have hheld : w.Holds (some a.ptr) ∧ size < 2 ^ 64 := ⟨⟨a, ha, rfl⟩, hlt⟩
  unfold step
  simp only [if_pos hheld]
  rcases Heap.realloc_cases (t := t) hin ha hne with
    ⟨heap, heq, hfailed⟩ | ⟨heap, new, heq, hnew, hfollows, hbytes, -, hfreed⟩
  · rw [heq]
    refine ⟨_, if_neg hne, ?_⟩
    obtain ⟨full', empty', hinv'⟩ := hfailed.follows.inv
    exact ⟨ha, Heap.getAllocSize_eq hinv' ha, sameBytes_of_bytes ha hfailed.follows.bytes⟩
  · rw [heq]
    refine ⟨_, rfl, ?_⟩
    obtain ⟨full', empty', hinv'⟩ := hfollows.inv
    have hrequested := Heap.getAllocSize_eq hinv' (List.mem_cons_self ..)
    refine ⟨List.mem_cons_self .., hrequested, hbytes, fun a' ha' => ?_, fun a' ha' hother => ?_,
      hfreed⟩
    · rcases List.mem_cons.mp ha' with rfl | hold
      · exact (hnew a ha).symm
      · intro hc
        exact (mem_drop.mp hold).2 (congrArg some hc)
    · have hold : a' ∈ drop w.live (some a.ptr) :=
        mem_drop.mpr ⟨ha', fun hc => hother (Option.some.inj hc)⟩
      exact ⟨List.mem_cons_of_mem _ hold, sameBytes_of_bytes hold hfollows.bytes⟩

/-- The bytes of the block `calloc` returns. -/
theorem Heap.calloc_bytes {nmemb ptr : Nat} (heq : h.calloc t nmemb size = (h', some ptr)) :
    ∀ i < nmemb * size, h'.sys.mem (ptr + i) = 0 := by
  intro i hi
  rw [Heap.calloc_eq] at heq
  split at heq
  · rcases hm : h.malloc t (nmemb * size) with ⟨h₁, _ | new⟩
    · rw [hm] at heq
      exact absurd (congrArg Prod.snd heq) (by simp)
    · rw [hm] at heq
      obtain ⟨rfl, hptr⟩ := Prod.mk.inj heq
      rw [← Option.some.inj hptr]
      exact if_pos ⟨Nat.le_add_right _ _, Nat.add_lt_add_left hi _⟩
  · exact absurd (congrArg Prod.snd heq) (by simp)

theorem calloc_zeroes {nmemb : Nat} (hinv : Inv full empty w.heap.core w.live)
    (hn : nmemb < 2 ^ 64) (hlt : size < 2 ^ 64) (answers : List (Option Nat)) :
    ∃ w', step w (.calloc t nmemb size answers) = some w' ∧
      ∀ ptr, ((w.enter answers).calloc t nmemb size).2 = some ptr →
        Zeroed w' ptr (nmemb * size) := by
  have hreturns : Returns (w.enter answers) w.live (nmemb * size) 8
      ((w.enter answers).calloc t nmemb size) := Heap.calloc_returns hinv
  unfold step
  simp only [if_pos (And.intro hn hlt)]
  rcases heq : (w.enter answers).calloc t nmemb size with ⟨heap, p⟩
  rw [heq] at hreturns
  refine ⟨_, rfl, fun ptr hptr => ?_⟩
  obtain rfl : p = some ptr := hptr
  obtain ⟨full', empty', hinv'⟩ := hreturns.follows.inv
  have hrequested := Heap.getAllocSize_eq hinv' (List.mem_cons_self ..)
  exact ⟨List.mem_cons_self .., hrequested, Heap.calloc_bytes heq⟩

/-- In every reachable state, `realloc` of a live pointer to a size that is not zero moves it with
its bytes or leaves it, and `calloc` returns zeroes. -/
theorem realloc_and_calloc (hw : (machine mem foreign).Reaches w) :
    (∀ a ∈ w.live, ∀ t size answers, 0 < size → size < 2 ^ 64 →
      ∃ w', step w (.realloc t (some a.ptr) size answers) = some w' ∧
        match ((w.enter answers).realloc t (some a.ptr) size).2 with
        | some ptr => Moved w w' t a ptr size
        | none => Stayed w w' a) ∧
    ∀ t nmemb size answers, nmemb < 2 ^ 64 → size < 2 ^ 64 →
      ∃ w', step w (.calloc t nmemb size answers) = some w' ∧
        ∀ ptr, ((w.enter answers).calloc t nmemb size).2 = some ptr →
          Zeroed w' ptr (nmemb * size) := by
  obtain ⟨full, empty, hinv⟩ := reaches_good hw
  exact ⟨fun a ha t size answers hpos hlt => realloc_moves hinv ha hpos hlt answers,
    fun t nmemb size answers hn hlt => calloc_zeroes hinv hn hlt answers⟩

/-- Shrinking eight bytes to three moves the three. -/
theorem realloc_and_calloc_shrink : ∃ w w', bare.exec bare.init
      [.malloc 0 8 [some 4096], .write 4112 7] = some w ∧
    step w (.realloc 0 (some 4112) 3 []) = some w' ∧ Moved w w' 0 ⟨4112, 8, 8⟩ 6160 3 := by
  have hrun : (bare.exec bare.init [.malloc 0 8 [some 4096], .write 4112 7]).map
      (fun w => (w.live, ((w.enter []).realloc 0 (some 4112) 3).2))
        = some ([⟨4112, 8, 8⟩], some 6160) := by decide +kernel
  obtain ⟨w, hw, hpair⟩ := Option.map_eq_some_iff.mp hrun
  obtain ⟨hlive, hret⟩ := Prod.mk.inj hpair
  have hreach : (machine (fun _ => 0) fun _ => false).Reaches w := ⟨_, hw⟩
  have ha : ⟨4112, 8, 8⟩ ∈ w.live := by
    rw [hlive]
    exact List.mem_singleton.mpr rfl
  obtain ⟨w', hstep, hmoved⟩ :=
    (realloc_and_calloc hreach).1 ⟨4112, 8, 8⟩ ha 0 3 [] (by decide) (by decide)
  rw [hret] at hmoved
  exact ⟨w, w', hw, hstep, hmoved⟩

/-! ### Calls that fail -/

/-- The call returns null, or a code that is not zero. -/
def Fails (w : World) : Label → Prop
  | .malloc t size answers => ((w.enter answers).malloc t size).2 = none
  | .calloc t nmemb size answers => ((w.enter answers).calloc t nmemb size).2 = none
  | .realloc t ptr size answers => size ≠ 0 ∧ ((w.enter answers).realloc t ptr size).2 = none
  | .alignedAlloc t alignment size answers =>
      ((w.enter answers).alignedAlloc t alignment size).2 = none
  | .posixMemalign t memptr alignment size answers =>
      ((w.enter answers).posixMemalign t memptr alignment size).2 ≠ 0
  | _ => False

/-- Nothing but metrics and what the kernel will answer may differ. -/
structure Unchanged (w w' : World) : Prop where
  allocMags : ∀ t, (w'.heap.threads t).allocMags = (w.heap.threads t).allocMags
  freeMags : ∀ t, (w'.heap.threads t).freeMags = (w.heap.threads t).freeMags
  pools : w'.heap.globalMagazines = w.heap.globalMagazines
  nodes : w'.heap.nodes = w.heap.nodes
  mapped : w'.heap.sys.mapped = w.heap.sys.mapped
  foreign : w'.heap.sys.foreign = w.heap.sys.foreign
  live : w'.live = w.live
  mem : w'.heap.sys.mem = w.heap.sys.mem

theorem Unchanged.of_core (hcore : w'.heap.core = w.heap.core) (hlive : w'.live = w.live) :
    Unchanged w w' where
  allocMags t := congrFun (congrArg Core.allocMags hcore) t
  freeMags t := congrFun (congrArg Core.freeMags hcore) t
  pools := congrArg Core.pools hcore
  nodes := congrArg Core.nodes hcore
  mapped := congrArg Core.mapped hcore
  foreign := congrArg Core.foreign hcore
  live := hlive
  mem := congrArg Core.mem hcore

/-- A call that returns null for a layout. -/
theorem gain_unchanged {r : Heap × Option Nat} {answers : List (Option Nat)}
    (hr : Returns (w.enter answers) w.live size align r) (hnone : r.2 = none) :
    Unchanged w (w.gain r size align) := by
  refine Unchanged.of_core (hr.failed hnone) ?_
  unfold World.gain
  rw [hnone]

theorem step_unchanged (hinv : Inv full empty w.heap.core w.live) (hstep : step w l = some w')
    (hfails : Fails w l) : Unchanged w w' := by
  have hin : ∀ answers, Inv full empty (w.enter answers).core w.live := fun _ => hinv
  cases l with
  | malloc t size answers =>
      obtain ⟨-, hsome⟩ := Option.ite_none_right_eq_some.mp hstep
      obtain rfl := Option.some.inj hsome
      exact gain_unchanged (Heap.malloc_returns t size (hin answers)) hfails
  | calloc t nmemb size answers =>
      obtain ⟨-, hsome⟩ := Option.ite_none_right_eq_some.mp hstep
      obtain rfl := Option.some.inj hsome
      exact gain_unchanged (Heap.calloc_returns (hin answers)) hfails
  | alignedAlloc t alignment size answers =>
      obtain ⟨-, hsome⟩ := Option.ite_none_right_eq_some.mp hstep
      obtain rfl := Option.some.inj hsome
      exact gain_unchanged (Heap.alignedAlloc_returns t alignment size (hin answers)) hfails
  | realloc t ptr size answers =>
      obtain ⟨hsize, hnone⟩ := hfails
      rcases step_realloc hinv hstep with ⟨rfl, rfl⟩ | ⟨a, ha, rfl, ⟨hzero, -⟩ |
        ⟨-, heap, hret, rfl⟩ | ⟨-, heap, new, heq, -⟩⟩
      · exact gain_unchanged (Heap.malloc_returns t size (hin answers)) hnone
      · exact absurd hzero hsize
      · exact Unchanged.of_core (hret.failed rfl) rfl
      · rw [heq] at hnone
        exact absurd hnone (by simp)
  | posixMemalign t memptr alignment size answers =>
      obtain ⟨heap, code, hm, -, rfl⟩ := step_posixMemalign hstep
      have hcode : code ≠ 0 := by
        have hnz : ((w.enter answers).posixMemalign t memptr alignment size).2 ≠ 0 := hfails
        rw [hm] at hnz
        exact hnz
      rw [if_neg fun hc => hcode hc.1]
      rcases Heap.posixMemalign_cases memptr (hin answers) hm with ⟨-, hcore⟩ | ⟨h₁, p, hzero, -⟩
      · exact Unchanged.of_core hcore rfl
      · exact absurd hzero hcode
  | alloc t layout answers => exact hfails.elim
  | dealloc t ptr answers => exact hfails.elim
  | free t ptr answers => exact hfails.elim
  | write addr byte => exact hfails.elim
  | foreign page mapped => exact hfails.elim

/-- In every reachable state, whatever the kernel answers, a call that fails changes nothing. -/
theorem failing_call_unchanged (hw : (machine mem foreign).Reaches w) (hstep : step w l = some w')
    (hfails : Fails w l) : Unchanged w w' := by
  obtain ⟨full, empty, hinv⟩ := reaches_good hw
  exact step_unchanged hinv hstep hfails

/-- A block is live and others are cached; a large request is refused its pages. -/
theorem failing_call_refused : ∃ w w', bare.exec bare.init [.malloc 0 8 [some 4096]] = some w ∧
    step w (.posixMemalign 1 4112 64 100000 [none]) = some w' ∧ Unchanged w w' := by
  have hrun : (bare.exec bare.init [.malloc 0 8 [some 4096]]).map (fun w =>
      ((step w (.posixMemalign 1 4112 64 100000 [none])).isSome,
        ((w.enter [none]).posixMemalign 1 4112 64 100000).2)) = some (true, ENOMEM) := by
    decide +kernel
  obtain ⟨w, hw, hpair⟩ := Option.map_eq_some_iff.mp hrun
  obtain ⟨hsome, hcode⟩ := Prod.mk.inj hpair
  obtain ⟨w', hstep⟩ := Option.isSome_iff_exists.mp hsome
  have hreach : (machine (fun _ => 0) fun _ => false).Reaches w := ⟨_, hw⟩
  have hfails : Fails w (.posixMemalign 1 4112 64 100000 [none]) := by
    show ((w.enter [none]).posixMemalign 1 4112 64 100000).2 ≠ 0
    rw [hcode]
    decide
  exact ⟨w, w', hw, hstep, failing_call_unchanged hreach hstep hfails⟩

end Aethalloc.Abi
