/-
An allocator that is sound keeps the promises of the C interface.

`Sound` collects what the exported functions rely on in the allocator below them,
in terms of an invariant that the allocator brings along: what is live is apart and
keeps its bytes through every call, a returned block is fresh and aligned, and the
size of a live block can be read back.  From that alone, every step of a run is one
that `Allows` allows, so the client cannot tell the allocator from its purpose.
The two modes of the allocator are shown to be sound elsewhere, each by its own
invariant.
-/
import Aethalloc.Abi.Contract
import Aethalloc.Proofs.Abi.Holdings

namespace Aethalloc.Abi

open Lib
open Interface (range enter Writable)

variable {σ : Type} {A : Allocator σ} {I : σ → List Allocation → Prop} {h h' : σ}
  {L : List Allocation} {a : Allocation} {t size align : Nat}

/-- The address is in the range of one of the allocations. -/
def Covers (L : List Allocation) (x : Nat) : Prop := Store.Covered (L.map range) x

theorem covers_iff {x : Nat} : Covers L x ↔ ∃ a ∈ L, a.InRange x := by
  unfold Covers Store.Covered
  simp only [List.mem_map, exists_exists_and_eq_and]
  rfl

/-- What the client holds is apart, and inside the address space. -/
structure Tidy (L : List Allocation) : Prop where
  ptrs : (L.map Allocation.ptr).Nodup
  apart : ∀ a ∈ L, ∀ a' ∈ L, ∀ x, a.InRange x → a'.InRange x → a = a'
  pos : ∀ a ∈ L, 0 < a.size
  notNull : ∀ a ∈ L, a.ptr ≠ 0
  inSpace : ∀ a ∈ L, a.ptr + a.size ≤ 2 ^ 64

/-- The bytes of `P` are as they were, and so are the pages of the rest of the process. -/
structure Allocator.Spares (A : Allocator σ) (P : Nat → Prop) (h h' : σ) : Prop where
  bytes : ∀ x, P x → A.mem h' x = A.mem h x
  foreign : (A.sys h').foreign = (A.sys h).foreign

/-- A call returned null, or an aligned block of its own. -/
structure Grants (A : Allocator σ) (I : σ → List Allocation → Prop) (h : σ) (L : List Allocation)
    (size align : Nat) (r : σ × Option Nat) : Prop where
  inv : I r.1 (grow L r.2 size align)
  spares : A.Spares (Covers L) h r.1
  aligned : ∀ p, r.2 = some p → max 16 align ∣ p

/-- What the exported functions rely on in an allocator. -/
structure Sound (A : Allocator σ) (I : σ → List Allocation → Prop) : Prop where
  sys_setSys : ∀ h s, A.sys (A.setSys h s) = s
  sys_ensureInit : ∀ h, A.sys (A.ensureInit h) = A.sys h
  ensureInit : ∀ {h L}, I h L → I (A.ensureInit h) L
  tidy : ∀ {h L}, I h L → Tidy L
  own : ∀ {h L x}, I h L → Covers L x → (A.sys h).foreign (x / PAGE_SIZE) = false
  alloc : ∀ {h L} (t : Nat) (layout : Layout), I h L →
    Grants A I h L layout.size layout.align (A.alloc h t layout)
  deallocNull : ∀ h t, A.dealloc h t none = h
  dealloc : ∀ {h L a} (t : Nat), I h L → a ∈ L →
    I (A.dealloc h t (some a.ptr)) (drop L (some a.ptr)) ∧
      A.Spares (Covers (drop L (some a.ptr))) h (A.dealloc h t (some a.ptr))
  getAllocSize : ∀ {h L a}, I h L → a ∈ L → A.getAllocSize h (some a.ptr) = a.size
  /-- Memory may change wherever it is the client's or the rest of the process'. -/
  setMem : ∀ {h L mem}, I h L →
    (∀ x, ¬ Covers L x → (A.sys h).foreign (x / PAGE_SIZE) = false → mem x = A.mem h x) →
    I (A.setMem h mem) L
  setAnswers : ∀ {h L} (answers : List (Option Nat)), I h L →
    I (A.setSys h { A.sys h with answers := answers }) L
  setForeign : ∀ {h L page} (mapped : Bool), I h L → (A.sys h).mapped page = false →
    I (A.setSys h { A.sys h with
      foreign := Function.update (A.sys h).foreign page mapped }) L

/-! ### What the client holds -/

theorem Tidy.distinct (hL : Tidy L) : Store.Distinct (L.map range) := by
  unfold Store.Distinct
  rw [List.map_map]
  exact hL.ptrs

theorem ranges_drop {p : Nat} :
    (drop L (some p)).map range = (L.map range).filter (·.ptr ≠ p) := by
  unfold drop
  rw [List.filter_map]
  congr 1
  refine List.filter_congr fun a _ => decide_eq_decide.mpr ?_
  simp [range]

theorem Covers.of_mem {x : Nat} (ha : a ∈ L) (hx : a.InRange x) : Covers L x :=
  covers_iff.mpr ⟨a, ha, hx⟩

namespace Sound

theorem mem_setMem (hA : Sound A I) (mem : Mem) : A.mem (A.setMem h mem) = mem := by
  unfold Allocator.mem Allocator.setMem
  rw [hA.sys_setSys]

theorem foreign_setMem (hA : Sound A I) (mem : Mem) :
    (A.sys (A.setMem h mem)).foreign = (A.sys h).foreign := by
  unfold Allocator.setMem
  rw [hA.sys_setSys]

theorem mem_enter (hA : Sound A I) {w : Interface.World σ} {answers : List (Option Nat)} :
    A.mem (enter A w answers) = A.mem w.heap := by
  unfold Allocator.mem enter
  rw [hA.sys_setSys]

theorem foreign_enter (hA : Sound A I) {w : Interface.World σ} {answers : List (Option Nat)} :
    (A.sys (enter A w answers)).foreign = (A.sys w.heap).foreign := by
  unfold enter
  rw [hA.sys_setSys]

/-! ### Calls that allocate -/

theorem grants_null (hinv : I h' L) (hsys : A.sys h' = A.sys h) :
    Grants A I h L size align (h', none) where
  inv := hinv
  spares := ⟨fun x _ => by unfold Allocator.mem; rw [hsys], by rw [hsys]⟩
  aligned p hp := absurd hp (by simp)

theorem allocLayout (hA : Sound A I) (t size align : Nat) (hinv : I h L) :
    Grants A I h L size align (A.allocLayout h t (Layout.fromSizeAlign size align)) := by
  unfold Layout.fromSizeAlign
  split
  · rename_i hlayout
    exact hA.alloc t ⟨size, align, hlayout.1, hlayout.2⟩ hinv
  · exact grants_null hinv rfl

theorem malloc (hA : Sound A I) (t size : Nat) (hinv : I h L) :
    Grants A I h L size 8 (A.malloc h t size) := by
  have hinit := hA.ensureInit hinv
  have hsys := hA.sys_ensureInit h
  unfold Allocator.malloc
  simp only
  split
  · exact grants_null hinit hsys
  · have hg := hA.allocLayout t size 8 hinit
    refine ⟨hg.inv, ⟨fun x hx => ?_, ?_⟩, hg.aligned⟩
    · rw [hg.spares.bytes x hx]
      unfold Allocator.mem
      rw [hsys]
    · rw [hg.spares.foreign, hsys]

theorem alignedAlloc (hA : Sound A I) (t align size : Nat) (hinv : I h L) :
    Grants A I h L (max size 1) align (A.alignedAlloc h t align size) := by
  unfold Allocator.alignedAlloc
  split
  · exact grants_null hinv rfl
  · exact hA.allocLayout t (max size 1) align hinv

end Sound

/-- A fresh block has nothing in common with what was held. -/
theorem Tidy.fresh {p : Nat} (hL : Tidy (⟨p, size, align⟩ :: L)) (x : Nat) (hlow : p ≤ x)
    (hhigh : x < p + size) : ¬ Covers L x := by
  intro hx
  obtain ⟨a, ha, hin⟩ := covers_iff.mp hx
  have heq := hL.apart a (List.mem_cons_of_mem _ ha) _ (List.mem_cons_self ..) x hin ⟨hlow, hhigh⟩
  refine (List.nodup_cons.mp hL.ptrs).1 ?_
  rw [← heq]
  exact List.mem_map_of_mem ha

/-- The client may write inside the block it was granted. -/
theorem Grants.fill (hA : Sound A I) {p : Nat} {mem : Mem}
    (hg : Grants A I h L size align (h', some p))
    (hmem : ∀ x, ¬ (p ≤ x ∧ x < p + size) → mem x = A.mem h' x) :
    Grants A I h L size align (A.setMem h' mem, some p) := by
  have hself : ∀ x, p ≤ x ∧ x < p + size → Covers (grow L (some p) size align) x :=
    fun x hx => Covers.of_mem (List.mem_cons_self ..) hx
  refine ⟨hA.setMem hg.inv fun x hx _ => hmem x fun hc => hx (hself x hc), ⟨fun x hx => ?_, ?_⟩,
    hg.aligned⟩
  · rw [hA.mem_setMem, hmem x fun hc => (hA.tidy hg.inv).fresh x hc.1 hc.2 hx]
    exact hg.spares.bytes x hx
  · rw [hA.foreign_setMem]
    exact hg.spares.foreign

/-- What a call that allocates is to the client. -/
theorem Grants.allowed (hA : Sound A I) (hinv : I h L) {r : σ × Option Nat}
    (hg : Grants A I h L size align r) {ok : List UInt8 → Prop}
    (hok : ∀ p, r.2 = some p → ok (Store.bytesAt (A.mem r.1) p size)) :
    (Store.view (A.mem h) (L.map range)).Alloc (max 16 align) size ok r.2
      (Store.view (A.mem r.1) ((grow L r.2 size align).map range)) := by
  rcases r with ⟨h', _ | p⟩
  · have hsame : Store.view (A.mem h') (L.map range) = Store.view (A.mem h) (L.map range) :=
      Store.view_congr hg.spares.bytes
    show Store.Alloc _ _ _ _ none (Store.view (A.mem h') (L.map range))
    rw [hsame]
    exact .refused
  · have hL := hA.tidy hg.inv
    have hself : (⟨p, size, align⟩ : Allocation) ∈ grow L (some p) size align :=
      List.mem_cons_self ..
    exact Store.alloc_view (hA.tidy hinv).distinct (hL.pos _ hself) (hL.notNull _ hself)
      (hg.aligned p rfl) (hL.inSpace _ hself) (fun x hlow hhigh => hL.fresh x hlow hhigh)
      hg.spares.bytes (hok p rfl)

/-! ### The other calls -/

namespace Sound

theorem calloc (hA : Sound A I) (t nmemb size : Nat) (hinv : I h L) :
    Grants A I h L (nmemb * size) 8 (A.calloc h t nmemb size) ∧
      ∀ p, (A.calloc h t nmemb size).2 = some p →
        ∀ b ∈ Store.bytesAt (A.mem (A.calloc h t nmemb size).1) p (nmemb * size), b = 0 := by
  have hmalloc := hA.malloc t (nmemb * size) hinv
  unfold Allocator.calloc
  split
  · rcases hm : A.malloc h t (nmemb * size) with ⟨h', _ | p⟩
    · rw [hm] at hmalloc
      exact ⟨hmalloc, fun p hp => absurd hp (by simp)⟩
    · rw [hm] at hmalloc
      refine ⟨hmalloc.fill hA fun x hx => Mem.fill_outside hx, ?_⟩
      rintro q ⟨⟩ b hb
      obtain ⟨i, hi, rfl⟩ := List.mem_map.mp hb
      have hlt := List.mem_range.mp hi
      rw [hA.mem_setMem]
      exact if_pos ⟨Nat.le_add_right _ _, Nat.add_lt_add_left hlt _⟩
  · exact ⟨grants_null hinv rfl, fun p hp => absurd hp (by simp)⟩

/-- `realloc` of what is held to a size that is not zero is refused, or copies the bytes that fit
to a fresh block and frees the old one. -/
theorem realloc (hA : Sound A I) (t : Nat) (hinv : I h L) (ha : a ∈ L) (hsize : size ≠ 0) :
    (∃ h', A.realloc h t (some a.ptr) size = (h', none) ∧ Grants A I h L size 8 (h', none)) ∨
      ∃ h₁ h' p, A.realloc h t (some a.ptr) size = (h', some p) ∧
        Grants A I h L size 8 (h₁, some p) ∧
        (Store.bytesAt (A.mem h₁) p size).take a.size
          = (Store.bytesAt (A.mem h) a.ptr a.size).take size ∧
        I h' (drop (grow L (some p) size 8) (some a.ptr)) ∧
        A.Spares (Covers (drop (grow L (some p) size 8) (some a.ptr))) h₁ h' := by
  have hmalloc := hA.malloc t size hinv
  unfold Allocator.realloc
  simp only [if_neg hsize]
  rcases hm : A.malloc h t size with ⟨h₀, _ | p⟩
  · rw [hm] at hmalloc
    exact Or.inl ⟨h₀, rfl, hmalloc⟩
  · rw [hm] at hmalloc
    simp only [hA.getAllocSize hinv ha]
    have hcopied : Grants A I h L size 8
        (A.setMem h₀ ((A.mem h₀).copy a.ptr p (min a.size size)), some p) :=
      hmalloc.fill hA fun x hx => Mem.copy_outside (by omega)
    have hmem : a ∈ grow L (some p) size 8 := List.mem_cons_of_mem _ ha
    obtain ⟨hfreed, hspares⟩ := hA.dealloc t hcopied.inv hmem
    refine Or.inr ⟨_, _, p, rfl, hcopied, ?_, hfreed, hspares⟩
    rw [Store.bytesAt_take, Store.bytesAt_take, hA.mem_setMem, Nat.min_comm size]
    unfold Store.bytesAt
    refine List.map_congr_left fun i hi => ?_
    have hlt := List.mem_range.mp hi
    rw [Mem.copy_inside ⟨Nat.le_add_right _ _, Nat.add_lt_add_left hlt _⟩, Nat.add_sub_cancel_left]
    -- allocating left the old bytes alone
    have hin : a.InRange (a.ptr + i) := by
      unfold Allocation.InRange
      omega
    exact hmalloc.spares.bytes _ (Covers.of_mem ha hin)

/-- `posix_memalign` refuses, or stores what `aligned_alloc` returned. -/
theorem posixMemalign {memptr code : Nat}
    (heq : A.posixMemalign h t memptr align size = (h', code)) :
    (¬ ValidAlignment align ∧ code = EINVAL ∧ h' = h) ∨
      (ValidAlignment align ∧ size ≠ 0 ∧ code = ENOMEM ∧
        A.alignedAlloc h t align size = (h', none)) ∨
      ∃ h₁ p, ValidAlignment align ∧ code = 0 ∧ (p = none → size = 0) ∧
        A.alignedAlloc h t align size = (h₁, p) ∧
        h' = A.setMem h₁ ((A.mem h₁).write memptr 8 (toPtr p)) := by
  unfold Allocator.posixMemalign at heq
  by_cases hvalid : align = 0 ∨ ¬ align.isPowerOfTwo ∨ align % 8 ≠ 0
  · rw [if_pos hvalid] at heq
    obtain ⟨rfl, rfl⟩ := Prod.mk.inj heq
    refine Or.inl ⟨fun hc => ?_, rfl, rfl⟩
    rcases hvalid with hz | hp | hm
    · exact hc.1 hz
    · exact hp hc.2.1
    · exact hm hc.2.2
  · rw [if_neg hvalid] at heq
    have hok : ValidAlignment align := by
      refine ⟨fun hc => hvalid (Or.inl hc), ?_, ?_⟩
      · by_contra hc
        exact hvalid (Or.inr (Or.inl hc))
      · by_contra hc
        exact hvalid (Or.inr (Or.inr hc))
    rcases ha : A.alignedAlloc h t align size with ⟨h₁, p⟩
    rw [ha] at heq
    simp only at heq
    split at heq
    · rename_i hnone
      obtain ⟨rfl, hsize⟩ := hnone
      obtain ⟨rfl, rfl⟩ := Prod.mk.inj heq
      exact Or.inr (Or.inl ⟨hok, hsize, rfl, rfl⟩)
    · rename_i hsome
      obtain ⟨rfl, rfl⟩ := Prod.mk.inj heq
      refine Or.inr (Or.inr ⟨h₁, p, hok, rfl, fun hp => ?_, rfl, rfl⟩)
      by_contra hsize
      exact hsome ⟨hp, hsize⟩

end Sound

/-- A fresh block stays when another one is freed. -/
theorem Tidy.drop_grow {p : Nat} (hL : Tidy (grow L (some p) size align)) (ha : a ∈ L) :
    drop (grow L (some p) size align) (some a.ptr)
      = { ptr := p, size := size, align := align } :: drop L (some a.ptr) := by
  have hne : p ≠ a.ptr := by
    intro hc
    refine (List.nodup_cons.mp hL.ptrs).1 ?_
    exact List.mem_map.mpr ⟨a, ha, hc.symm⟩
  unfold drop grow
  rw [List.filter_cons_of_pos (by simp [hne])]

/-! ### One step -/

namespace Interface

variable {w w' : World σ} {l : Label} {answers : List (Option Nat)}

theorem isSome_view {mem : Mem} (hL : Tidy L) (ha : a ∈ L) :
    (Store.view mem (L.map range) a.ptr).isSome := by
  have hsome := Store.view_some mem hL.distinct (List.mem_map_of_mem (f := range) ha)
  exact Option.isSome_iff_exists.mpr ⟨_, hsome⟩

/-- The heap a call finds shows what the client holds. -/
theorem view_enter (hA : Sound A I) (answers : List (Option Nat)) :
    Store.view (A.mem (enter A w answers)) (w.live.map range) = view A w := by
  rw [hA.mem_enter]
  rfl

theorem inv_enter (hA : Sound A I) (answers : List (Option Nat)) (hinv : I w.heap w.live) :
    I (enter A w answers) w.live := hA.setAnswers answers hinv

/-- The step led to a state of the invariant, and the contract allows it. -/
def Kept (A : Allocator σ) (I : σ → List Allocation → Prop) (w : World σ) (e : Call × Reply)
    (w' : World σ) : Prop := I w'.heap w'.live ∧ Allows (view A w) e (view A w')

/-- A call that only allocates. -/
theorem view_gain (hA : Sound A I) (hinv : I w.heap w.live) {r : σ × Option Nat}
    (hg : Grants A I (enter A w answers) w.live size align r) {ok : List UInt8 → Prop}
    (hok : ∀ p, r.2 = some p → ok (Store.bytesAt (A.mem r.1) p size)) :
    (view A w).Alloc (max 16 align) size ok r.2 (view A (w.gain r size align)) := by
  rw [← view_enter hA answers]
  exact hg.allowed hA (inv_enter hA answers hinv) hok

/-- A call that only frees. -/
theorem view_lose (hA : Sound A I) (hinv : I w.heap w.live) (ha : a ∈ w.live) :
    view A (w.lose (A.dealloc (enter A w answers) t (some a.ptr)) (some a.ptr))
      = (view A w).remove a.ptr := by
  obtain ⟨-, hspares⟩ := hA.dealloc t (inv_enter hA answers hinv) ha
  have hsame := Store.view_congr hspares.bytes
  rw [hA.mem_enter] at hsame
  refine hsame.trans ?_
  rw [ranges_drop, Store.view_filter]
  rfl

theorem step_free (hA : Sound A I) (hinv : I w.heap w.live) {ptr : Option Nat}
    (hholds : w.Holds ptr) :
    Kept A I w (.free ptr, .done) (w.lose (A.dealloc (enter A w answers) t ptr) ptr) := by
  cases ptr with
  | none =>
      have hsame : w.lose (A.dealloc (enter A w answers) t none) none
          = { w with heap := enter A w answers } := by
        unfold World.lose
        rw [hA.deallocNull]
        congr 1
        exact drop_none
      rw [hsame]
      refine ⟨inv_enter hA answers hinv, ?_⟩
      have hview : view A { w with heap := enter A w answers } = view A w := view_enter hA answers
      rw [hview]
      exact .freeNull
  | some p =>
      obtain ⟨a, ha, rfl⟩ := hholds
      refine ⟨(hA.dealloc t (inv_enter hA answers hinv) ha).1, ?_⟩
      rw [view_lose hA hinv ha]
      exact .free (isSome_view (hA.tidy hinv) ha)

/-- `realloc` of null is `malloc`. -/
theorem step_reallocNull (hA : Sound A I) (hinv : I w.heap w.live)
    (hstep : step A w (.realloc t none size answers) = some w') :
    Kept A I w (.realloc none size, .pointer (A.malloc (enter A w answers) t size).2) w' := by
  have hg := hA.malloc t size (inv_enter hA answers hinv)
  have hw' : w' = w.gain (A.malloc (enter A w answers) t size) size 8 := by
    have hlose : ∀ heap, w.lose heap none = { w with heap := heap } := by
      intro heap
      unfold World.lose
      congr 1
      exact drop_none
    have heq : A.realloc (enter A w answers) t none size
        = A.malloc (enter A w answers) t size := rfl
    obtain ⟨-, hsome⟩ := Option.ite_none_right_eq_some.mp hstep
    rw [heq] at hsome
    rcases hm : A.malloc (enter A w answers) t size with ⟨heap, _ | p⟩
    · rw [hm] at hsome
      simp only [hlose, ite_self] at hsome
      exact (Option.some.inj hsome).symm
    · rw [hm] at hsome
      simp only [hlose] at hsome
      exact (Option.some.inj hsome).symm
  rw [hw']
  exact ⟨hg.inv, .reallocNull (view_gain hA hinv hg fun _ _ => trivial)⟩

theorem step_realloc (hA : Sound A I) (hinv : I w.heap w.live) (ha : a ∈ w.live)
    (hstep : step A w (.realloc t (some a.ptr) size answers) = some w') :
    Kept A I w (.realloc (some a.ptr) size,
      .pointer (A.realloc (enter A w answers) t (some a.ptr) size).2) w' := by
  have hin : I (enter A w answers) w.live := inv_enter hA answers hinv
  obtain ⟨-, hsome⟩ := Option.ite_none_right_eq_some.mp hstep
  by_cases hsize : size = 0
  · subst hsize
    have heq : A.realloc (enter A w answers) t (some a.ptr) 0
        = (A.dealloc (enter A w answers) t (some a.ptr), none) := rfl
    rw [heq] at hsome ⊢
    simp only [if_true] at hsome
    obtain rfl := Option.some.inj hsome
    refine ⟨(hA.dealloc t hin ha).1, ?_⟩
    rw [view_lose hA hinv ha]
    exact .reallocFree (isSome_view (hA.tidy hinv) ha)
  · rcases hA.realloc t hin ha hsize with
      ⟨heap, heq, hg⟩ | ⟨h₁, heap, q, heq, hg, hbytes, hfreed, hspares⟩
    · rw [heq] at hsome ⊢
      simp only [if_neg hsize] at hsome
      obtain rfl := Option.some.inj hsome
      have hview : view A { w with heap := heap } = view A w :=
        (Store.view_congr hg.spares.bytes).trans (view_enter hA answers)
      refine ⟨hg.inv, ?_⟩
      rw [hview]
      exact .reallocRefused (isSome_view (hA.tidy hinv) ha) hsize
    · rw [heq] at hsome ⊢
      obtain rfl := Option.some.inj hsome
      have hdrop := (hA.tidy hg.inv).drop_grow ha
      have hview : view A ((w.lose heap (some a.ptr)).gain (heap, some q) size 8)
          = (view A (w.gain (h₁, some q) size 8)).remove a.ptr := by
        have hsame := Store.view_congr hspares.bytes
        have hcut : Store.view (A.mem h₁)
            ((drop (grow w.live (some q) size 8) (some a.ptr)).map range)
              = (view A (w.gain (h₁, some q) size 8)).remove a.ptr := by
          rw [ranges_drop, Store.view_filter]
          rfl
        rw [hdrop] at hsame hcut
        exact hsame.trans hcut
      rw [hdrop] at hfreed
      refine ⟨hfreed, ?_⟩
      rw [hview]
      have hold : view A w a.ptr = some (Store.bytesAt (A.mem w.heap) a.ptr a.size) :=
        Store.view_some _ (hA.tidy hinv).distinct (List.mem_map_of_mem (f := range) ha)
      refine .reallocMoved hold (view_gain hA hinv hg fun p hp => ?_)
      obtain rfl := Option.some.inj hp
      rw [hA.mem_enter] at hbytes
      rw [Store.bytesAt_length]
      exact hbytes

/-- What is written through a pointer the client owns, it wrote itself. -/
theorem step_store (hA : Sound A I) (hinv : I h L) {memptr v : Nat}
    (hown : ∀ i < 8, Covers L (memptr + i) ∨
      (A.sys h).foreign ((memptr + i) / PAGE_SIZE) = true) :
    I (A.setMem h ((A.mem h).write memptr 8 v)) L := by
  refine hA.setMem hinv fun x hx hforeign => Mem.write_outside fun hc => ?_
  have hat := hown (x - memptr) (by omega)
  rw [Nat.add_sub_cancel' hc.1] at hat
  rcases hat with hat | hat
  · exact hx hat
  · rw [hforeign] at hat
    exact absurd hat (by decide)

theorem covers_grow {p : Option Nat} {x : Nat} (hx : Covers L x) :
    Covers (grow L p size align) x := by
  cases p with
  | none => exact hx
  | some p =>
      obtain ⟨a, ha, hin⟩ := covers_iff.mp hx
      exact Covers.of_mem (List.mem_cons_of_mem _ ha) hin

/-- What a `posix_memalign` that left the heap and returned the code is to the client. -/
def memalignReply (A : Allocator σ) (heap : σ) (memptr code : Nat) : Reply :=
  .stored code (if code = 0 ∧ (A.mem heap).read memptr 8 ≠ 0 then
    some ((A.mem heap).read memptr 8) else none)

def memalignWorld (A : Allocator σ) (w : World σ) (heap : σ) (memptr alignment size code : Nat) :
    World σ :=
  if code = 0 ∧ (A.mem heap).read memptr 8 ≠ 0 then
    w.gain (heap, some ((A.mem heap).read memptr 8)) (max size 1) alignment
  else
    { w with heap := heap }

/-- `posix_memalign` stores what it was granted. -/
theorem memalign_stored (hA : Sound A I) (hinv : I w.heap w.live) {memptr alignment : Nat}
    {p : Option Nat} (hvalid : ValidAlignment alignment) (hnull : p = none → size = 0)
    (hwritable : ∀ i < 8, Writable A w (memptr + i))
    (hg : Grants A I (enter A w answers) w.live (max size 1) alignment (h, p))
    (hheap : A.setMem h ((A.mem h).write memptr 8 (toPtr p)) = h') :
    Kept A I w (.posixMemalign memptr alignment size, memalignReply A h' memptr 0)
      (memalignWorld A w h' memptr alignment size 0) := by
  have hmem : A.mem h' = (A.mem h).write memptr 8 (toPtr p) := by
    rw [← hheap, hA.mem_setMem]
  have hown : ∀ i < 8, Covers (grow w.live p (max size 1) alignment) (memptr + i) ∨
      (A.sys h).foreign ((memptr + i) / PAGE_SIZE) = true := by
    intro i hi
    rw [hg.spares.foreign, hA.foreign_enter]
    exact (hwritable i hi).imp (fun hc => covers_grow (covers_iff.mpr hc)) id
  have hstored := step_store hA (v := toPtr p) hg.inv hown
  rw [hheap] at hstored
  unfold memalignReply memalignWorld
  cases p with
  | none =>
      obtain rfl := hnull rfl
      have hread : (A.mem h').read memptr 8 = 0 := by
        rw [hmem]
        exact Mem.read_write (by decide)
      have hview : view A { w with heap := h' } = (view A w).write memptr 8 0 := by
        unfold view
        rw [hmem, Store.view_write, Store.view_congr hg.spares.bytes, hA.mem_enter]
        rfl
      rw [if_neg fun hc => hc.2 hread, if_neg fun hc => hc.2 hread]
      refine ⟨hstored, ?_⟩
      rw [hview]
      exact .memalignNull hvalid
  | some q =>
      have hL := hA.tidy hg.inv
      have hself : (⟨q, max size 1, alignment⟩ : Allocation) ∈
        grow w.live (some q) (max size 1) alignment := List.mem_cons_self ..
      have hnz : q ≠ 0 := hL.notNull _ hself
      have hend : q + max size 1 ≤ 2 ^ 64 := hL.inSpace _ hself
      have hread : (A.mem h').read memptr 8 = q := by
        rw [hmem]
        exact Mem.read_write (by omega : q < 256 ^ 8)
      have hview : view A (w.gain (h', some q) (max size 1) alignment)
          = (view A (w.gain (h, some q) (max size 1) alignment)).write memptr 8 q := by
        unfold view
        show Store.view (A.mem h') _ = _
        rw [hmem, Store.view_write]
        rfl
      rw [hread, if_pos ⟨rfl, hnz⟩, if_pos ⟨rfl, hnz⟩]
      refine ⟨hstored, ?_⟩
      rw [hview]
      exact .memalign hvalid (view_gain hA hinv hg fun _ _ => trivial)

/-- `posix_memalign` refuses. -/
theorem memalign_refused {memptr alignment code : Nat} (hcode : code ≠ 0) (hinv : I h w.live)
    (hview : view A { w with heap := h } = view A w)
    (hallows : Allows (view A w) (.posixMemalign memptr alignment size, .stored code none)
      (view A w)) :
    Kept A I w (.posixMemalign memptr alignment size, memalignReply A h memptr code)
      (memalignWorld A w h memptr alignment size code) := by
  unfold memalignReply memalignWorld
  rw [if_neg fun hc => hcode hc.1, if_neg fun hc => hcode hc.1]
  refine ⟨hinv, ?_⟩
  rw [hview]
  exact hallows

theorem step_posixMemalign (hA : Sound A I) (hinv : I w.heap w.live) {memptr alignment : Nat}
    (hstep : step A w (.posixMemalign t memptr alignment size answers) = some w') :
    Kept A I w (.posixMemalign memptr alignment size,
      reply A w (.posixMemalign t memptr alignment size answers)) w' := by
  have hin : I (enter A w answers) w.live := inv_enter hA answers hinv
  unfold step at hstep
  obtain ⟨⟨-, -, -, hwritable⟩, hsome⟩ := Option.ite_none_right_eq_some.mp hstep
  rcases hm : A.posixMemalign (enter A w answers) t memptr alignment size with ⟨heap, code⟩
  have hreply : reply A w (.posixMemalign t memptr alignment size answers)
      = memalignReply A heap memptr code := by
    unfold reply memalignReply
    simp only [hm]
  have hworld : w' = memalignWorld A w heap memptr alignment size code := by
    rw [hm] at hsome
    simp only at hsome
    rw [← apply_ite some] at hsome
    exact (Option.some.inj hsome).symm
  rw [hreply, hworld]
  have hg := hA.alignedAlloc t alignment size hin
  rcases Sound.posixMemalign hm with ⟨hvalid, rfl, rfl⟩ | ⟨hvalid, hsize, rfl, halloc⟩ |
    ⟨h₁, p, hvalid, rfl, hnull, halloc, hheap⟩
  · exact memalign_refused (by decide) hin (view_enter hA answers) (.memalignInvalid hvalid)
  · rw [halloc] at hg
    exact memalign_refused (by decide) hg.inv
      ((Store.view_congr hg.spares.bytes).trans (view_enter hA answers))
      (.memalignRefused hvalid hsize)
  · rw [halloc] at hg
    exact memalign_stored hA hinv hvalid hnull hwritable hg hheap.symm

/-- Every step keeps the allocator's invariant, and the contract allows what it shows. -/
theorem step_allows (hA : Sound A I) (hinv : I w.heap w.live) (hstep : step A w l = some w') :
    Kept A I w (shown A w l) w' := by
  have hin : ∀ answers, I (enter A w answers) w.live := fun answers => inv_enter hA answers hinv
  unfold shown
  cases l with
  | alloc t layout answers =>
      obtain rfl := Option.some.inj hstep
      have hg := hA.alloc t layout (hin answers)
      exact ⟨hg.inv, .alloc (view_gain hA hinv hg fun _ _ => trivial)⟩
  | dealloc t ptr answers =>
      obtain ⟨hholds, hsome⟩ := Option.ite_none_right_eq_some.mp hstep
      obtain rfl := Option.some.inj hsome
      exact step_free hA hinv hholds
  | malloc t size answers =>
      obtain ⟨-, hsome⟩ := Option.ite_none_right_eq_some.mp hstep
      obtain rfl := Option.some.inj hsome
      have hg := hA.malloc t size (hin answers)
      exact ⟨hg.inv, .alloc (view_gain hA hinv hg fun _ _ => trivial)⟩
  | free t ptr answers =>
      obtain ⟨hholds, hsome⟩ := Option.ite_none_right_eq_some.mp hstep
      obtain rfl := Option.some.inj hsome
      exact step_free hA hinv hholds
  | calloc t nmemb size answers =>
      obtain ⟨-, hsome⟩ := Option.ite_none_right_eq_some.mp hstep
      obtain rfl := Option.some.inj hsome
      obtain ⟨hg, hzero⟩ := hA.calloc t nmemb size (hin answers)
      exact ⟨hg.inv, .calloc (view_gain hA hinv hg hzero)⟩
  | realloc t ptr size answers =>
      cases ptr with
      | none => exact step_reallocNull hA hinv hstep
      | some p =>
          obtain ⟨⟨⟨a, ha, rfl⟩, -⟩, -⟩ := Option.ite_none_right_eq_some.mp hstep
          exact step_realloc hA hinv ha hstep
  | alignedAlloc t alignment size answers =>
      obtain ⟨-, hsome⟩ := Option.ite_none_right_eq_some.mp hstep
      obtain rfl := Option.some.inj hsome
      have hg := hA.alignedAlloc t alignment size (hin answers)
      refine ⟨hg.inv, ?_⟩
      by_cases hvalid : alignment = 0 ∨ ¬ alignment.isPowerOfTwo
      · have heq : A.alignedAlloc (enter A w answers) t alignment size
            = (enter A w answers, none) := if_pos hvalid
        unfold reply
        simp only
        rw [heq]
        have hview : view A (w.gain (enter A w answers, none) (max size 1) alignment) = view A w :=
          view_enter hA answers
        rw [hview]
        exact .alignedInvalid hvalid
      · exact .aligned hvalid (view_gain hA hinv hg fun _ _ => trivial)
  | posixMemalign t memptr alignment size answers => exact step_posixMemalign hA hinv hstep
  | write addr byte =>
      obtain ⟨hwritable, hsome⟩ := Option.ite_none_right_eq_some.mp hstep
      obtain rfl := Option.some.inj hsome
      refine ⟨hA.setMem hinv fun x hx hforeign => Function.update_of_ne (fun hc => ?_) _ _, ?_⟩
      · subst hc
        rcases hwritable with hat | hat
        · exact hx (covers_iff.mpr hat)
        · rw [hforeign] at hat
          exact absurd hat (by decide)
      · have hview : view A { w with
            heap := A.setMem w.heap (Function.update (A.mem w.heap) addr byte) }
              = (view A w).poke addr byte := by
          unfold view
          rw [hA.mem_setMem, Store.view_poke]
        rw [hview]
        exact .write
  | foreign page mapped =>
      obtain ⟨hunmapped, hsome⟩ := Option.ite_none_right_eq_some.mp hstep
      obtain rfl := Option.some.inj hsome
      refine ⟨hA.setForeign mapped hinv hunmapped, ?_⟩
      have hview : view A { w with heap := A.setSys w.heap { A.sys w.heap with
          foreign := Function.update (A.sys w.heap).foreign page mapped } } = view A w := by
        unfold view Allocator.mem
        rw [hA.sys_setSys]
      rw [hview]
      exact .idle

/-! ### Whole runs -/

/-- From a heap of the invariant on which nothing is live, every run shows calls and replies that
the contract allows, one after the other, and leaves the client with what it says. -/
theorem exec_allows (hA : Sound A I) (hstart : I h []) {ls : List Label}
    (hrun : (machine A h).exec (machine A h).init ls = some w) :
    Runs Allows Store.empty ((machine A h).trace (shown A) (machine A h).init ls) (view A w) := by
  have hstep : ∀ w l w', I w.heap w.live → (machine A h).step w l = some w' →
      I w'.heap w'.live ∧ Allows (view A w) (shown A w l) (view A w') :=
    fun w l w' hinv hstep => step_allows hA hinv hstep
  exact Machine.exec_refines hstep ls (machine A h).init w hstart hrun

end Interface

end Aethalloc.Abi
