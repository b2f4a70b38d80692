/-
Magazine caching keeps the contract of the C interface.

The invariant of the mode is all that is needed: a call keeps it, leaves the bytes of
what is live alone, and writes its headers beside them.  So the mode is sound, and
its runs, seen by a client, are runs of the contract.
-/
import Aethalloc.Proofs.Abi.Addresses
import Aethalloc.Proofs.Abi.Contract

namespace Aethalloc.Abi

open Lib
open Interface (range)

variable {mem : Mem} {foreign : Nat → Bool} {full empty : Nat → List Nat} {h : Heap} {w w' : World}
  {L : List Allocation} {a : Allocation} {t size : Nat}

/-! ### The interface over magazines -/

/-- The state of a run in magazine mode, as one of the interface. -/
def World.generic (w : World) : Interface.World Heap where
  heap := w.heap
  live := w.live

/-- A guarded step, seen as one of the interface. -/
theorem map_guard {c c' : Prop} [Decidable c] [Decidable c'] (hc : c ↔ c') {o : Option World}
    {v : Option (Interface.World Heap)} (hv : v = o.map World.generic) :
    (if c then v else none) = (if c' then o else none).map World.generic := by
  rw [hv]
  by_cases h : c
  · rw [if_pos h, if_pos (hc.mp h)]
  · rw [if_neg h, if_neg fun h' => h (hc.mpr h')]
    rfl

/-- A step in magazine mode is one of the interface over it. -/
theorem step_generic (w : World) (l : Label) :
    Interface.step magazineMode w.generic l = (step w l).map World.generic := by
  cases l with
  | alloc t layout answers => rfl
  | dealloc t ptr answers => exact map_guard Iff.rfl rfl
  | malloc t size answers => exact map_guard Iff.rfl rfl
  | free t ptr answers =>
      have hcall : magazineMode.free (Interface.enter magazineMode w.generic answers) t ptr
          = (w.enter answers).free t ptr := rfl
      refine map_guard Iff.rfl ?_
      rw [hcall]
      rfl
  | calloc t nmemb size answers => exact map_guard Iff.rfl rfl
  | realloc t ptr size answers =>
      refine map_guard Iff.rfl ?_
      have hcall : magazineMode.realloc (Interface.enter magazineMode w.generic answers) t ptr size
          = (w.enter answers).realloc t ptr size := rfl
      rw [hcall]
      rcases (w.enter answers).realloc t ptr size with ⟨heap, _ | newPtr⟩
      · by_cases hsize : size = 0
        · simp only [if_pos hsize]
          rfl
        · simp only [if_neg hsize]
          rfl
      · rfl
  | alignedAlloc t alignment size answers => exact map_guard Iff.rfl rfl
  | posixMemalign t memptr alignment size answers =>
      refine map_guard Iff.rfl ?_
      rw [apply_ite (Option.map World.generic)]
      rfl
  | write addr byte => exact map_guard Iff.rfl rfl
  | foreign page mapped => exact map_guard Iff.rfl rfl

/-! ### Soundness -/

/-- What is live on the ground is apart, and inside the address space. -/
theorem Ground.tidy {k : Arena} (hground : Ground k L) : Tidy L := by
  have hbounds : ∀ a ∈ L, a.ptr ≠ 0 ∧ a.ptr + a.size ≤ 2 ^ 64 := by
    intro a ha
    have hpos := hground.lives.pos a ha
    have hfirst : a.InRange a.ptr := ⟨Nat.le_refl _, by omega⟩
    have hlast : a.InRange (a.ptr + a.size - 1) := by
      unfold Allocation.InRange
      omega
    obtain ⟨r, hr, hhas⟩ := hground.footprint_region ha (hground.range_footprint ha hfirst)
    obtain ⟨r', hr', hhas'⟩ := hground.footprint_region ha (hground.range_footprint ha hlast)
    obtain ⟨hnz, -, -, -⟩ := hground.regions.page r hr
    obtain ⟨-, -, -, hend⟩ := hground.regions.page r' hr'
    unfold Region.Has at hhas hhas'
    omega
  exact {
    ptrs := hground.lives.ptrs
    apart := fun a ha a' ha' x hx hx' => hground.footprint_unique ha ha'
      (hground.range_footprint ha hx) (hground.range_footprint ha' hx')
    pos := hground.lives.pos
    notNull := fun a ha => (hbounds a ha).1
    inSpace := fun a ha => (hbounds a ha).2 }

/-- A pointer of the small path is a header past a carved block. -/
theorem Ground.small_dvd {k : Arena} (hground : Ground k L) (ha : a ∈ L) (hs : a.Small) :
    16 ∣ a.ptr := by
  obtain ⟨c, -, -, -, hcarved, hptr, -⟩ := hground.small_block ha hs
  have hdvd := hcarved.dvd fun r hr => (hground.regions.page r hr).2.1
  unfold CACHE_HEADER_SIZE at hptr hdvd
  omega

/-- What is live is not the rest of the process'. -/
theorem Ground.covers_own {k : Arena} (hground : Ground k L) {x : Nat} (hx : Covers L x) :
    k.foreign (x / PAGE_SIZE) = false := by
  obtain ⟨a, ha, hin⟩ := covers_iff.mp hx
  exact hground.regions.own _ (hground.footprint_mapped ha (hground.range_footprint ha hin))

/-- Where memory is the client's or the rest of the process', there is no header. -/
theorem Ground.header_kept {k : Arena} {mem : Mem} (hground : Ground k L)
    (hmem : ∀ x, ¬ Covers L x → k.foreign (x / PAGE_SIZE) = false → mem x = k.mem x) :
    ∀ a ∈ L, ∀ x, Header k.regions a x → mem x = k.mem x := by
  intro a ha x hx
  refine hmem x (fun hc => ?_) ?_
  · obtain ⟨a', ha', hin⟩ := covers_iff.mp hc
    exact hground.range_no_header ha' hin ha hx
  · cases hforeign : k.foreign (x / PAGE_SIZE) with
    | false => rfl
    | true => exact absurd hx (hground.foreign_no_header hforeign ha)

/-- The invariant of the mode. -/
def Heap.Good (h : Heap) (L : List Allocation) : Prop := ∃ full empty, Inv full empty h.core L

theorem magazineMode_dealloc : magazineMode.dealloc = Heap.dealloc := rfl

theorem magazineMode_getAllocSize : magazineMode.getAllocSize = Heap.getAllocSize := rfl

theorem magazineMode_sound : Sound magazineMode Heap.Good where
  sys_setSys _ _ := rfl
  sys_ensureInit _ := rfl
  ensureInit hinv := hinv
  tidy := by
    rintro h L ⟨full, empty, hinv⟩
    exact hinv.ground.tidy
  own := by
    rintro h L x ⟨full, empty, hinv⟩ hx
    exact hinv.ground.covers_own hx
  alloc := by
    rintro h L t layout ⟨full, empty, hinv⟩
    have hret := Heap.alloc_returns (t := t) hinv layout
    exact {
      inv := hret.follows.inv
      spares := ⟨fun x hx => hret.follows.bytes x (covers_iff.mp hx), hret.follows.foreign⟩
      aligned := fun p hp => Heap.alloc_dvd hinv hp }
  deallocNull _ _ := rfl
  dealloc := by
    rintro h L a t ⟨full, empty, hinv⟩ ha
    have hfollows := Heap.dealloc_follows (t := t) hinv ha
    rw [magazineMode_dealloc]
    exact ⟨hfollows.inv, fun x hx => hfollows.bytes x (covers_iff.mp hx), hfollows.foreign⟩
  getAllocSize := by
    rintro h L a ⟨full, empty, hinv⟩ ha
    rw [magazineMode_getAllocSize]
    exact Heap.getAllocSize_eq hinv ha
  setMem := by
    rintro h L mem ⟨full, empty, hinv⟩ hmem
    exact ⟨full, empty, hinv.setMem mem (hinv.ground.header_kept hmem)⟩
  setAnswers _ hinv := hinv
  setForeign := by
    rintro h L page mapped ⟨full, empty, hinv⟩ hunmapped
    exact ⟨full, empty, hinv.setForeign mapped hunmapped⟩

/-! ### Whole runs -/

/-- The call of a step and its reply. -/
def shown (w : World) (l : Label) : Call × Reply := Interface.shown magazineMode w.generic l

/-- What the client holds. -/
def World.view (w : World) : Store := Interface.view magazineMode w.generic

/--
**Magazine caching refines the contract.**  In every run, whatever threads call,
whatever the kernel answers and whatever the client writes, the calls and their
replies are allowed by the contract one after the other, and the bytes the client
finds at the pointers it holds are those the contract says.
-/
theorem magazine_refines {ls : List Label}
    (hrun : (machine mem foreign).exec (machine mem foreign).init ls = some w) :
    Runs Allows Store.empty ((machine mem foreign).trace shown (machine mem foreign).init ls)
      w.view := by
  have hstep : ∀ w l w', Good w → (machine mem foreign).step w l = some w' →
      Good w' ∧ Allows w.view (shown w l) w'.view := by
    intro w l w' hinv hstep
    have hgeneric : Interface.step magazineMode w.generic l = some w'.generic := by
      rw [step_generic]
      exact congrArg (Option.map World.generic) hstep
    exact Interface.step_allows magazineMode_sound (w := w.generic) hinv hgeneric
  exact Machine.exec_refines hstep ls (machine mem foreign).init w ⟨_, _, Inv.start⟩ hrun

/-- Eight bytes, the first of them written, are shrunk to three. -/
theorem magazine_refines_shrink : ∃ w, bare.exec bare.init
      [.malloc 0 8 [some 4096], .write 4112 7, .realloc 0 (some 4112) 3 []] = some w ∧
    w.view 4112 = none ∧ w.view 6160 = some [7, 0, 0] ∧
    Runs Allows Store.empty [(.alloc 8 8, .pointer (some 4112)), (.write 4112 7, .done),
      (.realloc (some 4112) 3, .pointer (some 6160))] w.view := by
  have hrun : (bare.exec bare.init
      [.malloc 0 8 [some 4096], .write 4112 7, .realloc 0 (some 4112) 3 []]).map
        (fun w => (w.view 4112, w.view 6160)) = some (none, some [7, 0, 0]) := by decide +kernel
  obtain ⟨w, hw, hview⟩ := Option.map_eq_some_iff.mp hrun
  obtain ⟨hold, hnew⟩ := Prod.mk.inj hview
  have htrace : bare.trace shown bare.init
      [.malloc 0 8 [some 4096], .write 4112 7, .realloc 0 (some 4112) 3 []]
        = [(.alloc 8 8, .pointer (some 4112)), (.write 4112 7, .done),
          (.realloc (some 4112) 3, .pointer (some 6160))] := by decide +kernel
  refine ⟨w, hw, hold, hnew, ?_⟩
  rw [← htrace]
  exact magazine_refines hw

end Aethalloc.Abi
