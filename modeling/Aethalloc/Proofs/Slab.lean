/-
A slab keeps its slots apart.

Every slot ever handed out was taken fresh from a page, at a multiple of the slot
size, and is now either live or on the free list.  The invariant keeps three lists
beside the state: the pages in the order they were mapped, the free list, and the
slots taken so far.  The links of the free list lie in slots that are not live, so
whatever the client writes, the list stays what it is.
-/
import Aethalloc.Core.Slab
import Aethalloc.Proofs.Page

namespace Aethalloc.Slab

open Lib

variable {S n : Nat} {ps F : List Nat} {w w' : World} {ptr ptr' page : Nat} {st : State}

/-! ### Slots on pages -/

/-- The slot sizes that divide a page and hold a link. -/
def SlotSize (S : Nat) : Prop := S.isPowerOfTwo ∧ 16 ≤ S ∧ S ≤ PAGE_SIZE

theorem SlotSize.dvd (h : SlotSize S) : S ∣ PAGE_SIZE := by
  obtain ⟨⟨k, rfl⟩, -, hle⟩ := h
  have hpow : PAGE_SIZE = 2 ^ 12 := by decide
  rw [hpow] at hle ⊢
  exact Nat.pow_dvd_pow 2 ((Nat.pow_le_pow_iff_right (by decide)).mp hle)

theorem SlotSize.mul_div (h : SlotSize S) : PAGE_SIZE / S * S = PAGE_SIZE :=
  Nat.div_mul_cancel h.dvd

theorem SlotSize.pos (h : SlotSize S) : 0 < PAGE_SIZE / S :=
  Nat.div_pos h.2.2 (by have := h.2.1; omega)

/-- The slot was taken from one of the pages, of the newest of which `n` slots are taken. -/
def Taken (S : Nat) (ps : List Nat) (n ptr : Nat) : Prop :=
  ∃ i page j, ps[i]? = some page ∧ ptr = page + j * S ∧ j < PAGE_SIZE / S ∧
    (i + 1 = ps.length → j < n)

/-- Distinct multiples of the slot size are that far apart. -/
theorem apart_of_dvd (h : S ∣ ptr) (h' : S ∣ ptr') (hne : ptr ≠ ptr') :
    ptr + S ≤ ptr' ∨ ptr' + S ≤ ptr := by
  obtain ⟨i, rfl⟩ := h
  obtain ⟨j, rfl⟩ := h'
  rcases Nat.lt_trichotomy i j with hlt | heq | hlt
  · left
    calc S * i + S = S * (i + 1) := by ring
      _ ≤ S * j := Nat.mul_le_mul_left S hlt
  · exact absurd (by rw [heq]) hne
  · right
    calc S * j + S = S * (j + 1) := by ring
      _ ≤ S * i := Nat.mul_le_mul_left S hlt

/-- A slot is aligned and lies in its page. -/
theorem Taken.inside (hS : SlotSize S) (hal : ∀ page ∈ ps, page % PAGE_SIZE = 0)
    (h : Taken S ps n ptr) :
    S ∣ ptr ∧ ∃ page ∈ ps, page ≤ ptr ∧ ptr + S ≤ page + PAGE_SIZE := by
  obtain ⟨i, page, j, hi, rfl, hj, -⟩ := h
  have hmem : page ∈ ps := List.mem_of_getElem? hi
  have hpage : S ∣ page := hS.dvd.trans (Nat.dvd_of_mod_eq_zero (hal page hmem))
  refine ⟨(Nat.dvd_add_right hpage).mpr ⟨j, Nat.mul_comm j S⟩, page, hmem, Nat.le_add_right _ _, ?_⟩
  calc page + j * S + S = page + (j + 1) * S := by ring
    _ ≤ page + PAGE_SIZE / S * S := Nat.add_le_add_left (Nat.mul_le_mul_right S hj) page
    _ = page + PAGE_SIZE := by rw [hS.mul_div]

/-- The page of an address that lies in one of the aligned pages. -/
theorem page_div (hal : page % PAGE_SIZE = 0) (h1 : page ≤ ptr) (h2 : ptr < page + PAGE_SIZE) :
    ptr / PAGE_SIZE = page / PAGE_SIZE := by
  unfold PAGE_SIZE at *
  omega

/-- The slots of an aligned page are in it. -/
theorem slot_div (hS : SlotSize S) {j : Nat} (hal : page % PAGE_SIZE = 0)
    (hj : j < PAGE_SIZE / S) : (page + j * S) / PAGE_SIZE = page / PAGE_SIZE := by
  have hpos := hS.2.1
  have hend : j * S + S ≤ PAGE_SIZE := by
    calc j * S + S = (j + 1) * S := by ring
      _ ≤ PAGE_SIZE / S * S := Nat.mul_le_mul_right S hj
      _ = PAGE_SIZE := hS.mul_div
  exact page_div hal (Nat.le_add_right _ _) (by omega)

/-- Nothing is taken of a fresh page, and everything of the one before it. -/
theorem taken_fresh (hfull : ps ≠ [] → n = PAGE_SIZE / S) :
    Taken S (ps ++ [page]) 0 ptr ↔ Taken S ps n ptr := by
  have hlen : (ps ++ [page]).length = ps.length + 1 := by simp
  constructor
  · rintro ⟨i, q, j, hi, heq, hj, hlast⟩
    have hlt : i < ps.length := by
      by_contra hge
      have hle : i < (ps ++ [page]).length := (List.getElem?_eq_some_iff.mp hi).1
      exact absurd (hlast (by omega)) (Nat.not_lt_zero j)
    rw [List.getElem?_append_left hlt] at hi
    refine ⟨i, q, j, hi, heq, hj, fun hc => ?_⟩
    rw [hfull (List.ne_nil_of_length_pos (by omega))]
    exact hj
  · rintro ⟨i, q, j, hi, heq, hj, -⟩
    have hlt : i < ps.length := (List.getElem?_eq_some_iff.mp hi).1
    refine ⟨i, q, j, (List.getElem?_append_left hlt).trans hi, heq, hj, fun hc => ?_⟩
    omega

/-- One more slot of the newest page is taken. -/
theorem taken_next (hn : n < PAGE_SIZE / S) :
    Taken S (ps ++ [page]) (n + 1) ptr ↔ ptr = page + n * S ∨ Taken S (ps ++ [page]) n ptr := by
  have hlast : (ps ++ [page])[ps.length]? = some page := by simp
  have hlen : (ps ++ [page]).length = ps.length + 1 := by simp
  constructor
  · rintro ⟨i, page', j, hi, heq, hj, hlt⟩
    by_cases hc : i + 1 = (ps ++ [page]).length ∧ j = n
    · obtain ⟨hil, rfl⟩ := hc
      obtain rfl : i = ps.length := by omega
      rw [hlast] at hi
      obtain rfl := Option.some.inj hi
      exact Or.inl heq
    · refine Or.inr ⟨i, page', j, hi, heq, hj, fun hil => ?_⟩
      have hle := hlt hil
      have hne : j ≠ n := fun hj => hc ⟨hil, hj⟩
      omega
  · rintro (rfl | ⟨i, page', j, hi, heq, hj, hlt⟩)
    · exact ⟨ps.length, page, n, hlast, rfl, hn, fun _ => Nat.lt_succ_self _⟩
    · exact ⟨i, page', j, hi, heq, hj, fun hc => Nat.lt_succ_of_lt (hlt hc)⟩

/-- It was not taken before: its page and its index can be told from its address. -/
theorem not_taken_next (hS : SlotSize S) (hal : ∀ q ∈ ps ++ [page], q % PAGE_SIZE = 0)
    (hdistinct : (ps ++ [page]).Nodup) (hn : n < PAGE_SIZE / S) :
    ¬ Taken S (ps ++ [page]) n (page + n * S) := by
  rintro ⟨i, page', j, hi, heq, hj, hlt⟩
  have hpos : 0 < S := Nat.lt_of_lt_of_le (by decide) hS.2.1
  have hal' := hal page' (List.mem_of_getElem? hi)
  have halp := hal page (by simp)
  have hpage : page' = page := by
    have hdiv := slot_div hS halp hn
    rw [heq, slot_div hS hal' hj] at hdiv
    unfold PAGE_SIZE at hdiv hal' halp
    omega
  subst hpage
  have hlast : (ps ++ [page'])[ps.length]? = some page' := by simp
  have hlen : (ps ++ [page']).length = ps.length + 1 := by simp
  have hi' := (List.getElem?_inj (by omega) hdistinct).mp (hlast.trans hi.symm)
  have hj' := Nat.eq_of_mul_eq_mul_right hpos (Nat.add_left_cancel heq)
  have hnj : j < n := hlt (by omega)
  omega

/-! ### The invariant -/

structure Inv (S : Nat) (ps F : List Nat) (w : World) : Prop where
  slotSize : w.slab.slotSize = S
  slotsPerPage : w.slab.slotsPerPage = PAGE_SIZE / S
  pages : ∀ i, w.slab.page i = ps[i]?
  numPages : w.slab.numPages = ps.length
  atMost : ps.length ≤ MAX_SLAB_PAGES
  nextSlot : w.slab.nextSlot ≤ PAGE_SIZE / S
  started : ps = [] → w.slab.nextSlot = 0
  aligned : ∀ page ∈ ps, page % PAGE_SIZE = 0
  bound : ∀ page ∈ ps, page + PAGE_SIZE ≤ 2 ^ 64
  mapped : ∀ page ∈ ps, w.sys.mapped (page / PAGE_SIZE) = true
  distinct : ps.Nodup
  own : ∀ page, w.sys.mapped page = true → w.sys.foreign page = false
  taken : ∀ ptr, ptr ∈ w.bumped ↔ Taken S ps w.slab.nextSlot ptr
  once : w.bumped.Nodup
  length : w.bumped.length = (ps.length - 1) * (PAGE_SIZE / S) + w.slab.nextSlot
  chain : Chain (Link.tagged.read w.sys.mem) w.slab.freeHead F
  split : w.bumped.Perm (F ++ w.live)
  allocated : w.slab.allocated = w.live.length

namespace Inv

theorem nodup (h : Inv S ps F w) : (F ++ w.live).Nodup := h.split.nodup_iff.mp h.once

theorem free_taken (h : Inv S ps F w) (hptr : ptr ∈ F) : Taken S ps w.slab.nextSlot ptr :=
  (h.taken ptr).mp (h.split.mem_iff.mpr (List.mem_append_left _ hptr))

theorem live_taken (h : Inv S ps F w) (hptr : ptr ∈ w.live) : Taken S ps w.slab.nextSlot ptr :=
  (h.taken ptr).mp (h.split.mem_iff.mpr (List.mem_append_right _ hptr))

/-- A slot lies in a mapped page below the end of the address space. -/
theorem slot (hS : SlotSize S) (h : Inv S ps F w) (htaken : Taken S ps w.slab.nextSlot ptr) :
    S ∣ ptr ∧ ptr + S ≤ 2 ^ 64 ∧ ∃ page ∈ ps, page ≤ ptr ∧ ptr + S ≤ page + PAGE_SIZE ∧
      ∀ x, ptr ≤ x → x < ptr + S → x / PAGE_SIZE = page / PAGE_SIZE := by
  obtain ⟨hdvd, page, hmem, h1, h2⟩ := htaken.inside hS h.aligned
  have hbound := h.bound page hmem
  refine ⟨hdvd, by omega, page, hmem, h1, h2, fun x hx hx' => ?_⟩
  exact page_div (h.aligned page hmem) (by omega) (by omega)

/-- Two different slots do not overlap. -/
theorem apart (hS : SlotSize S) (h : Inv S ps F w) (htaken : Taken S ps w.slab.nextSlot ptr)
    (htaken' : Taken S ps w.slab.nextSlot ptr') (hne : ptr ≠ ptr') :
    ptr + S ≤ ptr' ∨ ptr' + S ≤ ptr :=
  apart_of_dvd (h.slot hS htaken).1 (h.slot hS htaken').1 hne

/-- Memory may change where no free slot has its link. -/
theorem setMem (h : Inv S ps F w) (mem : Mem)
    (hmem : ∀ p ∈ F, ∀ x, p ≤ x → x < p + 16 → mem x = w.sys.mem x) :
    Inv S ps F { w with sys := { w.sys with mem := mem } } :=
  { h with chain := Link.chain_congr h.chain (by rw [Link.tagged_width]; exact hmem) }

/-- The first free slot becomes live. -/
theorem pop {rest : List Nat} (h : Inv S ps (ptr :: rest) w) :
    Inv S ps rest { w with
      slab := { w.slab with
        freeHead := Link.tagged.read w.sys.mem ptr
        allocated := w.slab.allocated + 1 }
      live := ptr :: w.live } := by
  have hchain : Chain (Link.tagged.read w.sys.mem) (Link.tagged.read w.sys.mem ptr) rest :=
    h.chain.2
  have hsplit : w.bumped.Perm (rest ++ ptr :: w.live) := h.split.trans List.perm_middle.symm
  have hallocated : w.slab.allocated + 1 = w.live.length + 1 := congrArg (· + 1) h.allocated
  exact { h with chain := hchain, split := hsplit, allocated := hallocated }

/-- A live slot becomes the first free one. -/
theorem push (hS : SlotSize S) (h : Inv S ps F w) (hptr : ptr ∈ w.live) :
    Inv S ps (ptr :: F) { w with
      slab := { w.slab with
        freeHead := some ptr
        allocated := w.slab.allocated - 1 }
      sys := { w.sys with mem := Link.tagged.write w.sys.mem ptr w.slab.freeHead }
      live := w.live.erase ptr } := by
  have hlive := h.live_taken hptr
  have hsize := hS.2.1
  refine { h with chain := ?_, split := ?_, allocated := ?_ }
  · refine Link.chain_push h.chain (Link.tagged_fits.mpr fun v hv => ?_) fun b hb => ?_
    · -- the old head is the first free slot
      obtain ⟨rest, hF, -⟩ : ∃ rest, F = v :: rest ∧ _ := by
        have hchain := h.chain
        rw [Option.mem_def.mp hv] at hchain
        exact hchain.exists_cons_of_some
      obtain ⟨-, hbound, -⟩ := h.slot hS (h.free_taken (hF ▸ List.mem_cons_self ..))
      omega
    · have hne : b ≠ ptr := by
        rintro rfl
        exact (List.nodup_append.mp h.nodup).2.2 b hb b hptr rfl
      have hapart := h.apart hS (h.free_taken hb) hlive hne
      rw [Link.tagged_width]
      omega
  · have hperm : (F ++ w.live).Perm (F ++ ptr :: w.live.erase ptr) :=
      (List.perm_cons_erase hptr).append_left F
    exact h.split.trans (hperm.trans List.perm_middle)
  · show w.slab.allocated - 1 = (w.live.erase ptr).length
    rw [h.allocated, List.length_erase_of_mem hptr]

/-- The next slot of the newest page becomes live. -/
theorem bump (hS : SlotSize S) (h : Inv S (ps ++ [page]) F w)
    (hroom : w.slab.nextSlot < PAGE_SIZE / S) :
    Inv S (ps ++ [page]) F { w with
      slab := { w.slab with
        nextSlot := w.slab.nextSlot + 1
        allocated := w.slab.allocated + 1 }
      live := (page + w.slab.nextSlot * S) :: w.live
      bumped := (page + w.slab.nextSlot * S) :: w.bumped } := by
  have hnew : page + w.slab.nextSlot * S ∉ w.bumped := fun hmem =>
    not_taken_next hS h.aligned h.distinct hroom ((h.taken _).mp hmem)
  refine { h with
    nextSlot := hroom
    started := fun hc => absurd hc (by simp)
    taken := fun ptr => ?_
    once := List.nodup_cons.mpr ⟨hnew, h.once⟩
    length := ?_
    split := (h.split.cons _).trans List.perm_middle.symm
    allocated := congrArg (· + 1) h.allocated }
  · rw [List.mem_cons, h.taken ptr]
    exact (taken_next hroom).symm
  · have hlength := h.length
    show w.bumped.length + 1 = ((ps ++ [page]).length - 1) * (PAGE_SIZE / S)
      + (w.slab.nextSlot + 1)
    omega

/-- A free slot's link is not in a page that is about to be mapped. -/
theorem link_not_fresh (hS : SlotSize S) (h : Inv S ps F w) (hfree : w.sys.FreePages page 1)
    (hptr : ptr ∈ F) {x : Nat} (h1 : ptr ≤ x) (h2 : x < ptr + 16) :
    ¬ (page ≤ x ∧ x < page + PAGE_SIZE) := by
  rintro ⟨hx, hx'⟩
  have hsize := hS.2.1
  obtain ⟨-, -, page', hmem', -, -, hdiv⟩ := h.slot hS (h.free_taken hptr)
  have hdiv' := hdiv x h1 (by omega)
  have hmapped := h.mapped page' hmem'
  rw [← hdiv'] at hmapped
  have hunmapped := hfree.fresh_byte hx (by rw [Nat.one_mul]; exact hx')
  rw [hmapped] at hunmapped
  exact absurd hunmapped (by decide)

/-- A fresh page becomes the newest one. -/
theorem mapPage (hS : SlotSize S) (h : Inv S ps F w) (rest : List (Option Nat))
    (hfull : ps ≠ [] → w.slab.nextSlot = PAGE_SIZE / S) (hroom : ps.length < MAX_SLAB_PAGES)
    (hfree : w.sys.FreePages page 1) :
    Inv S (ps ++ [page]) F { w with
      slab := { w.slab with
        pages := w.slab.pages.setIfInBounds w.slab.numPages (some page)
        numPages := w.slab.numPages + 1
        nextSlot := 0 }
      sys := { w.sys with
        mem := w.sys.mem.fill page (1 * PAGE_SIZE) 0
        mapped := w.sys.setPages page 1 true
        answers := rest } } := by
  obtain ⟨-, hal, hbound, -⟩ := id hfree
  rw [Nat.one_mul] at hbound
  have hpage : page / PAGE_SIZE ≤ page / PAGE_SIZE ∧ page / PAGE_SIZE < page / PAGE_SIZE + 1 := by
    omega
  have hnew : page ∉ ps := by
    intro hmem
    have hmapped := (hfree.fresh hpage).1
    rw [h.mapped page hmem] at hmapped
    exact absurd hmapped (by decide)
  refine { h with
    pages := fun i => ?_
    numPages := ?_
    atMost := ?_
    nextSlot := Nat.zero_le _
    started := fun _ => rfl
    aligned := List.forall_mem_append.mpr ⟨h.aligned, List.forall_mem_singleton.mpr hal⟩
    bound := List.forall_mem_append.mpr ⟨h.bound, List.forall_mem_singleton.mpr hbound⟩
    mapped := List.forall_mem_append.mpr ⟨fun q hq => ?_, List.forall_mem_singleton.mpr ?_⟩
    distinct := h.distinct.append (List.nodup_singleton _)
      (List.disjoint_singleton.mpr hnew)
    own := hfree.own h.own
    taken := fun ptr => (h.taken ptr).trans (taken_fresh hfull).symm
    length := ?_
    chain := ?_ }
  · show (w.slab.pages.setIfInBounds w.slab.numPages (some page))[i]?.join = _
    rw [Vector.getElem?_setIfInBounds, h.numPages, List.getElem?_append]
    have hpage : w.slab.pages[i]?.join = ps[i]? := h.pages i
    by_cases hi : ps.length = i
    · subst hi
      simp [hroom]
    · rw [if_neg hi, hpage]
      split
      · rfl
      · rename_i hlt
        rw [List.getElem?_eq_none (Nat.le_of_not_lt hlt), List.getElem?_eq_none]
        simp only [List.length_singleton]
        omega
  · rw [List.length_append, ← h.numPages]
    rfl
  · rw [List.length_append]
    exact hroom
  · exact System.setPages_true_iff.mpr (Or.inr (h.mapped q hq))
  · exact System.setPages_true_iff.mpr (Or.inl hpage)
  · show w.bumped.length = ((ps ++ [page]).length - 1) * (PAGE_SIZE / S) + 0
    rw [h.length, List.length_append, List.length_singleton, Nat.add_sub_cancel, Nat.add_zero]
    by_cases hnil : ps = []
    · rw [h.started hnil, hnil]
      simp
    · have hpos := List.length_pos_iff.mpr hnil
      rw [hfull hnil]
      calc (ps.length - 1) * (PAGE_SIZE / S) + PAGE_SIZE / S
          = (ps.length - 1 + 1) * (PAGE_SIZE / S) := by ring
        _ = ps.length * (PAGE_SIZE / S) := by rw [Nat.sub_add_cancel hpos]
  · refine Link.chain_congr h.chain fun b hb x h1 h2 => Mem.fill_outside ?_
    rw [Nat.one_mul]
    rw [Link.tagged_width] at h2
    exact h.link_not_fresh hS hfree hb h1 h2

end Inv

/-! ### The operations -/

/-- The kernel refuses the next page. -/
def Refused (st : State) : Prop := (PageAllocator.alloc st.sys 1).2 = none

/-- Nothing but what the kernel will answer is different. -/
structure Unchanged (st st' : State) : Prop where
  slab : st'.slab = st.slab
  mem : st'.sys.mem = st.sys.mem
  mapped : st'.sys.mapped = st.sys.mapped
  foreign : st'.sys.foreign = st.sys.foreign

theorem Inv.of_unchanged (h : Inv S ps F w) (hsame : Unchanged w.toState st) :
    Inv S ps F { w with toState := st } := by
  obtain ⟨slab, sys⟩ := st
  obtain ⟨rfl, hmem, hmapped, hforeign⟩ := hsame
  refine { h with mapped := fun page hpage => ?_, own := fun page hpage => ?_, chain := ?_ }
  · show sys.mapped (page / PAGE_SIZE) = true
    rw [hmapped]
    exact h.mapped page hpage
  · have hpage' : sys.mapped page = true := hpage
    rw [hmapped] at hpage'
    show sys.foreign page = false
    rw [hforeign]
    exact h.own page hpage'
  · show Chain (Link.tagged.read sys.mem) w.slab.freeHead F
    rw [hmem]
    exact h.chain

namespace State

/-- A page is refused and nothing changes, or becomes the newest one. -/
theorem allocNewPage_cases (hS : SlotSize S) (h : Inv S ps F w)
    (hfull : ps ≠ [] → w.slab.nextSlot = PAGE_SIZE / S) (hroom : ps.length < MAX_SLAB_PAGES) :
    (∃ st, w.toState.allocNewPage = (st, false) ∧ Unchanged w.toState st ∧ Refused w.toState) ∨
      ∃ st page, w.toState.allocNewPage = (st, true) ∧
        Inv S (ps ++ [page]) F { w with toState := st } ∧ st.slab.nextSlot = 0 := by
  unfold allocNewPage
  rcases PageAllocator.alloc_cases w.sys 1 (by decide) (by decide) with
    ⟨rest, heq⟩ | ⟨page, rest, hfree, heq⟩
  · rw [heq]
    exact Or.inl ⟨_, rfl, ⟨rfl, rfl, rfl, rfl⟩, by unfold Refused; rw [heq]⟩
  · rw [heq]
    exact Or.inr ⟨_, page, rfl, h.mapPage hS rest hfull hroom hfree, rfl⟩

/-- With room on the newest page, its next slot is taken. -/
theorem bump_spec (hS : SlotSize S) (h : Inv S (ps ++ [page]) F w)
    (hroom : w.slab.nextSlot < PAGE_SIZE / S) :
    ∃ st ptr, w.toState.bump = (st, some ptr) ∧ Inv S (ps ++ [page]) F
      { toState := st, live := ptr :: w.live, bumped := ptr :: w.bumped } := by
  have hlast : w.slab.page (w.slab.numPages - 1) = some page := by
    rw [h.pages, h.numPages]
    simp
  have hinv := h.bump hS hroom
  unfold bump
  rw [hlast]
  refine ⟨_, _, rfl, ?_⟩
  rw [h.slotSize]
  exact hinv

theorem allocFresh_of_room (hS : SlotSize S) (h : Inv S (ps ++ [page]) F w)
    (hroom : w.slab.nextSlot < PAGE_SIZE / S) :
    ∃ st ptr, w.toState.allocFresh = (st, some ptr) ∧ Inv S (ps ++ [page]) F
      { toState := st, live := ptr :: w.live, bumped := ptr :: w.bumped } := by
  unfold allocFresh
  rw [if_neg (by rw [h.slotsPerPage]; omega)]
  exact bump_spec hS h hroom

/-- Fresh slots run out when four pages are used up or a page is refused. -/
theorem allocFresh_cases (hS : SlotSize S) (h : Inv S ps F w) (hstarted : ps ≠ []) :
    (∃ st, w.toState.allocFresh = (st, none) ∧ Unchanged w.toState st ∧
      (w.bumped.length = MAX_SLAB_PAGES * (PAGE_SIZE / S) ∨ Refused w.toState)) ∨
    ∃ st ptr ps', w.toState.allocFresh = (st, some ptr) ∧ Inv S ps' F
      { toState := st, live := ptr :: w.live, bumped := ptr :: w.bumped } := by
  by_cases hroom : w.slab.nextSlot < PAGE_SIZE / S
  · right
    obtain ⟨init, page, rfl⟩ : ∃ init page, ps = init ++ [page] :=
      ⟨_, _, (List.dropLast_append_getLast hstarted).symm⟩
    obtain ⟨st, ptr, heq, hinv⟩ := allocFresh_of_room hS h hroom
    exact ⟨st, ptr, _, heq, hinv⟩
  · have hfull : w.slab.nextSlot = PAGE_SIZE / S :=
      Nat.le_antisymm h.nextSlot (Nat.le_of_not_lt hroom)
    unfold allocFresh
    rw [if_pos (by rw [h.slotsPerPage]; omega)]
    split
    · rename_i hmax
      rw [h.numPages] at hmax
      refine Or.inl ⟨_, rfl, ⟨rfl, rfl, rfl, rfl⟩, Or.inl ?_⟩
      have hfour : ps.length = MAX_SLAB_PAGES := Nat.le_antisymm h.atMost hmax
      rw [h.length, hfull, hfour]
      unfold MAX_SLAB_PAGES
      omega
    · rename_i hmax
      rw [h.numPages] at hmax
      rcases allocNewPage_cases hS h (fun _ => hfull) (Nat.lt_of_not_le hmax) with
        ⟨st, heq, hsame, hrefused⟩ | ⟨st, page, heq, hinv, hzero⟩
      · rw [heq]
        exact Or.inl ⟨st, rfl, hsame, Or.inr hrefused⟩
      · rw [heq]
        obtain ⟨st', ptr, hbump, hinv'⟩ := bump_spec hS hinv (by rw [hzero]; exact hS.pos)
        exact Or.inr ⟨st', ptr, _, hbump, hinv'⟩

/-- A slot is handed out, or none is left and nothing changes. -/
theorem alloc_cases (hS : SlotSize S) (h : Inv S ps F w) :
    (∃ st, w.toState.alloc = (st, none) ∧ Unchanged w.toState st ∧
      (w.live.length = MAX_SLAB_PAGES * (PAGE_SIZE / S) ∨ Refused w.toState)) ∨
    ∃ st ptr ps' F', w.toState.alloc = (st, some ptr) ∧ Inv S ps' F' {
      toState := st
      live := ptr :: w.live
      bumped := if w.slab.freeHead = none then ptr :: w.bumped else w.bumped } := by
  have hchain := h.chain
  unfold alloc
  cases hhead : w.slab.freeHead with
  | some freePtr =>
      rw [hhead] at hchain
      obtain ⟨rest, rfl, -⟩ := hchain.exists_cons_of_some
      exact Or.inr ⟨_, freePtr, ps, rest, rfl, h.pop⟩
  | none =>
      rw [hhead] at hchain
      obtain rfl := hchain.eq_nil_of_none
      have hlength : w.bumped.length = w.live.length := h.split.length_eq
      simp only [if_true]
      by_cases hzero : w.slab.numPages = 0
      · -- the first page
        have hnil : ps = [] := List.length_eq_zero_iff.mp (h.numPages.symm.trans hzero)
        subst hnil
        rw [if_pos hzero]
        rcases allocNewPage_cases hS h (fun hc => absurd rfl hc) (by decide) with
          ⟨st, heq, hsame, hrefused⟩ | ⟨st, page, heq, hinv, hnext⟩
        · rw [heq]
          exact Or.inl ⟨st, rfl, hsame, Or.inr hrefused⟩
        · rw [heq]
          obtain ⟨st', ptr, hfresh, hinv'⟩ :=
            allocFresh_of_room hS hinv (by rw [hnext]; exact hS.pos)
          exact Or.inr ⟨st', ptr, _, _, hfresh, hinv'⟩
      · rw [if_neg hzero]
        have hstarted : ps ≠ [] := by
          intro hc
          rw [hc] at h
          exact hzero h.numPages
        rcases allocFresh_cases hS h hstarted with
          ⟨st, heq, hsame, hwhy⟩ | ⟨st, ptr, ps', heq, hinv⟩
        · rw [hlength] at hwhy
          exact Or.inl ⟨st, heq, hsame, hwhy⟩
        · exact Or.inr ⟨st, ptr, ps', [], heq, hinv⟩

/-- A live slot is found in its page. -/
theorem found_live (hS : SlotSize S) (h : Inv S ps F w) (hptr : ptr ∈ w.live) :
    found w.slab ptr = true := by
  obtain ⟨-, -, page, hmem, h1, h2, -⟩ := h.slot hS (h.live_taken hptr)
  obtain ⟨i, hlt, hi⟩ := List.mem_iff_getElem.mp hmem
  have hsize := hS.2.1
  refine List.any_eq_true.mpr ⟨i, ?_, ?_⟩
  · rw [h.numPages]
    exact List.mem_range.mpr hlt
  · have hpage : w.slab.page i = some page := by
      rw [h.pages, List.getElem?_eq_getElem hlt, hi]
    rw [hpage]
    exact decide_eq_true ⟨h1, by omega⟩

theorem dealloc_eq (hS : SlotSize S) (h : Inv S ps F w) (hptr : ptr ∈ w.live) :
    w.toState.dealloc ptr = {
      slab := { w.slab with
        freeHead := some ptr
        allocated := w.slab.allocated - 1 }
      sys := { w.sys with mem := Link.tagged.write w.sys.mem ptr w.slab.freeHead } } := by
  unfold dealloc
  rw [if_pos (found_live hS h hptr)]

end State

/-! ### Runs -/

/-- The lists exist. -/
def Good (S : Nat) (w : World) : Prop := ∃ ps F, Inv S ps F w

theorem Inv.init (mem : Mem) (foreign : Nat → Bool) :
    Inv S [] [] (machine S mem foreign).init where
  slotSize := rfl
  slotsPerPage := rfl
  pages i := by
    show (Vector.replicate MAX_SLAB_PAGES (none : Option Nat))[i]?.join = none
    rw [Vector.getElem?_replicate]
    split
    · rfl
    · rfl
  numPages := rfl
  atMost := by decide
  nextSlot := Nat.zero_le _
  started _ := rfl
  aligned page hpage := absurd hpage List.not_mem_nil
  bound page hpage := absurd hpage List.not_mem_nil
  mapped page hpage := absurd hpage List.not_mem_nil
  distinct := List.nodup_nil
  own page hpage := absurd hpage (by simp [machine])
  taken ptr := by
    refine iff_of_false List.not_mem_nil ?_
    rintro ⟨i, page, j, hi, -⟩
    exact absurd hi (by simp)
  once := List.nodup_nil
  length := by simp [machine, new]
  chain := rfl
  split := List.Perm.refl _
  allocated := rfl

/-- Free links stay what they are when the client writes where it may. -/
theorem Inv.write (hS : SlotSize S) (h : Inv S ps F w) {addr : Nat} {byte : UInt8}
    (hwritable : w.Writable addr) :
    Inv S ps F { w with sys := { w.sys with mem := Function.update w.sys.mem addr byte } } := by
  have hsize := hS.2.1
  refine h.setMem _ fun p hp x h1 h2 => Function.update_of_ne ?_ _ _
  rintro rfl
  obtain ⟨-, -, page, hpage, -, -, hdiv⟩ := h.slot hS (h.free_taken hp)
  rcases hwritable with ⟨q, hq, hq1, hq2⟩ | hforeign
  · -- a live slot is not a free one
    have hne : p ≠ q := by
      rintro rfl
      exact (List.nodup_append.mp h.nodup).2.2 p hp p hq rfl
    have hapart := h.apart hS (h.free_taken hp) (h.live_taken hq) hne
    rw [h.slotSize] at hq2
    omega
  · have hown := h.own _ (h.mapped page hpage)
    rw [hdiv x h1 (by omega), hown] at hforeign
    exact absurd hforeign (by decide)

theorem step_good (hS : SlotSize S) {l : Label} (hgood : Good S w) (hstep : step w l = some w') :
    Good S w' := by
  obtain ⟨ps, F, h⟩ := hgood
  cases l with
  | alloc answers =>
      have hin : Inv S ps F { w with sys := { w.sys with answers := answers } } := { h with }
      simp only [step] at hstep
      rcases State.alloc_cases hS hin with ⟨st, heq, hsame, -⟩ | ⟨st, ptr, ps', F', heq, hinv⟩
      · have heq' : (w.enter answers).alloc = (st, none) := heq
        rw [heq'] at hstep
        obtain rfl := Option.some.inj hstep
        exact ⟨ps, F, hin.of_unchanged hsame⟩
      · have heq' : (w.enter answers).alloc = (st, some ptr) := heq
        rw [heq'] at hstep
        obtain rfl := Option.some.inj hstep
        exact ⟨ps', F', hinv⟩
  | dealloc ptr =>
      obtain ⟨hptr, hsome⟩ := Option.ite_none_right_eq_some.mp hstep
      obtain rfl := Option.some.inj hsome
      refine ⟨ps, ptr :: F, ?_⟩
      rw [State.dealloc_eq hS h hptr]
      exact h.push hS hptr
  | write addr byte =>
      obtain ⟨hwritable, hsome⟩ := Option.ite_none_right_eq_some.mp hstep
      obtain rfl := Option.some.inj hsome
      exact ⟨ps, F, h.write hS hwritable⟩
  | foreign page mapped =>
      obtain ⟨hunmapped, hsome⟩ := Option.ite_none_right_eq_some.mp hstep
      obtain rfl := Option.some.inj hsome
      refine ⟨ps, F, { h with own := fun q hq => ?_ }⟩
      have hne : q ≠ page := by
        rintro rfl
        have hq' : w.sys.mapped q = true := hq
        rw [hunmapped] at hq'
        exact absurd hq' (by decide)
      show Function.update w.sys.foreign page mapped q = false
      rw [Function.update_of_ne hne]
      exact h.own q hq

theorem reaches_good {mem : Mem} {foreign : Nat → Bool} (hS : SlotSize S)
    (hw : (machine S mem foreign).Reaches w) : Good S w := by
  refine hw.invariant (P := Good S) ⟨[], [], Inv.init mem foreign⟩ ?_
  intro w l w' h hstep
  exact step_good hS h hstep

/-- What a slab promises in a state. -/
structure Sound (w : World) : Prop where
  disjoint : w.live.Pairwise fun p q => p + w.slab.slotSize ≤ q ∨ q + w.slab.slotSize ≤ p
  aligned : ∀ p ∈ w.live, p % w.slab.slotSize = 0
  inside : ∀ p ∈ w.live, ∃ i < w.slab.numPages, ∃ page, w.slab.page i = some page ∧
    page ≤ p ∧ p + w.slab.slotSize ≤ page + PAGE_SIZE
  /-- The free list ends, has no slot twice, and with the live slots is all that was taken. -/
  free : ∃ F, Chain (Link.tagged.read w.sys.mem) w.slab.freeHead F ∧ F.Nodup ∧
    (∀ p ∈ F, p ∉ w.live) ∧ ∀ p, p ∈ w.bumped ↔ p ∈ F ∨ p ∈ w.live
  allocated : w.slab.allocated = w.live.length
  /-- A slot that comes back is the next to be handed out. -/
  reuse : ∀ p ∈ w.live, ∀ answers, ((w.enter answers).dealloc p).alloc.2 = some p
  refuse : ∀ answers, (w.enter answers).alloc.2 = none →
    (w.live.length = MAX_SLAB_PAGES * w.slab.slotsPerPage ∨ Refused (w.enter answers)) ∧
      Unchanged w.toState (w.enter answers).alloc.1

theorem Inv.sound (hS : SlotSize S) (h : Inv S ps F w) : Sound w where
  disjoint := by
    have hnodup : w.live.Nodup := (List.nodup_append.mp h.nodup).2.1
    rw [h.slotSize]
    exact hnodup.imp_of_mem fun hp hq hne => h.apart hS (h.live_taken hp) (h.live_taken hq) hne
  aligned p hp := by
    rw [h.slotSize]
    exact Nat.mod_eq_zero_of_dvd (h.slot hS (h.live_taken hp)).1
  inside p hp := by
    obtain ⟨-, -, page, hmem, h1, h2, -⟩ := h.slot hS (h.live_taken hp)
    obtain ⟨i, hlt, hi⟩ := List.mem_iff_getElem.mp hmem
    rw [h.numPages, h.slotSize]
    refine ⟨i, hlt, page, ?_, h1, h2⟩
    rw [h.pages, List.getElem?_eq_getElem hlt, hi]
  free := by
    obtain ⟨hF, -, hapart⟩ := List.nodup_append.mp h.nodup
    refine ⟨F, h.chain, hF, fun p hp hq => hapart p hp p hq rfl, fun p => ?_⟩
    rw [h.split.mem_iff, List.mem_append]
  allocated := h.allocated
  reuse p hp answers := by
    have hin : Inv S ps F { w with sys := { w.sys with answers := answers } } := { h with }
    have heq := State.dealloc_eq hS hin hp
    have heq' : (w.enter answers).dealloc p = _ := heq
    rw [heq']
    rfl
  refuse answers hnone := by
    have hin : Inv S ps F { w with sys := { w.sys with answers := answers } } := { h with }
    rcases State.alloc_cases hS hin with ⟨st, heq, hsame, hwhy⟩ | ⟨st, ptr, ps', F', heq, -⟩
    · have heq' : (w.enter answers).alloc = (st, none) := heq
      rw [heq', h.slotsPerPage]
      exact ⟨hwhy, hsame.slab, hsame.mem, hsame.mapped, hsame.foreign⟩
    · have heq' : (w.enter answers).alloc = (st, some ptr) := heq
      rw [heq'] at hnone
      exact absurd hnone (by simp)

/-- Every run of a slab whose slot size is a power of two from 16 to a page is sound in every
state. -/
theorem reaches_sound {slotSize : Nat} {mem : Mem} {foreign : Nat → Bool}
    (hpow : slotSize.isPowerOfTwo) (hlow : 16 ≤ slotSize) (hhigh : slotSize ≤ PAGE_SIZE)
    (hw : (machine slotSize mem foreign).Reaches w) : Sound w := by
  have hS : SlotSize slotSize := ⟨hpow, hlow, hhigh⟩
  obtain ⟨ps, F, h⟩ := reaches_good hS hw
  exact h.sound hS

/-- Slots of half a page: three are taken from two pages, and the first one comes back. -/
theorem reaches_sound_halves : ∃ w, (machine 2048 (fun _ => 0) fun _ => false).exec
      (machine 2048 (fun _ => 0) fun _ => false).init
      [.alloc [some 4096], .alloc [], .alloc [some 12288], .write 4096 255, .dealloc 4096]
        = some w ∧
    w.live = [12288, 6144] ∧ w.slab.freeHead = some 4096 ∧ Sound w := by
  have hrun : ((machine 2048 (fun _ => 0) fun _ => false).exec
      (machine 2048 (fun _ => 0) fun _ => false).init
      [.alloc [some 4096], .alloc [], .alloc [some 12288], .write 4096 255, .dealloc 4096]).map
        (fun w => (w.live, w.slab.freeHead)) = some ([12288, 6144], some 4096) := by
    decide +kernel
  obtain ⟨w, hw, hstate⟩ := Option.map_eq_some_iff.mp hrun
  obtain ⟨hlive, hhead⟩ := Prod.mk.inj hstate
  exact ⟨w, hw, hlive, hhead, reaches_sound ⟨11, rfl⟩ (by decide) (by decide) ⟨_, hw⟩⟩

/-! ### Slots larger than a page -/

/-- Every byte of the slot is in memory the slab has mapped. -/
def Mapped (w : World) (p : Nat) : Prop :=
  ∀ x, p ≤ x → x < p + w.slab.slotSize → w.sys.mapped (x / PAGE_SIZE) = true

/-- Whatever the run, the slots handed out lie in mapped memory. -/
def Fits (slotSize : Nat) : Prop :=
  ∀ mem foreign w, (machine slotSize mem foreign).Reaches w → ∀ p ∈ w.live, Mapped w p

theorem Inv.slot_mapped (hS : SlotSize S) (h : Inv S ps F w) (hptr : ptr ∈ w.live) :
    Mapped w ptr := by
  obtain ⟨-, -, page, hmem, -, -, hpage⟩ := h.slot hS (h.live_taken hptr)
  intro x hlow hhigh
  rw [h.slotSize] at hhigh
  rw [hpage x hlow hhigh]
  exact h.mapped page hmem

/-- With no whole slot in a page, `alloc` maps two pages and hands out the second. -/
theorem alloc_oversized {slotSize : Nat} (hbig : PAGE_SIZE < slotSize) :
    ∃ w, step (machine slotSize (fun _ => 0) fun _ => false).init
        (.alloc [some 4096, some 16384]) = some w ∧ w.slab.slotSize = slotSize ∧
      w.live = [16384] ∧ w.sys.mapped 5 = false := by
  have hnone : PAGE_SIZE / slotSize = 0 := Nat.div_eq_of_lt hbig
  have hnew : new slotSize = { new slotSize with slotsPerPage := 0 } := by
    unfold new
    rw [hnone]
  unfold step machine World.enter
  simp only
  rw [hnew]
  refine ⟨_, rfl, rfl, ?_, ?_⟩
  · simp
  · rfl

/-- The slots of a slab lie in the memory it has mapped, in every run, if and only if a slot is no
larger than a page. -/
theorem slots_fit_iff (slotSize : Nat) (hpow : slotSize.isPowerOfTwo) (hlow : 16 ≤ slotSize) :
    Fits slotSize ↔ slotSize ≤ PAGE_SIZE := by
  constructor
  · intro hfits
    by_contra hbig
    obtain ⟨w, hstep, hsize, hlive, hunmapped⟩ := alloc_oversized (Nat.not_le.mp hbig)
    have hreach : (machine slotSize (fun _ => 0) fun _ => false).Reaches w :=
      Machine.reaches_init.step (l := .alloc [some 4096, some 16384]) hstep
    have hmapped := hfits _ _ w hreach 16384 (by rw [hlive]; simp) 20480 (by decide)
      (by rw [hsize]; unfold PAGE_SIZE at hbig; omega)
    exact absurd (hunmapped.symm.trans hmapped) (by decide)
  · intro hhigh mem foreign w hw p hp
    have hS : SlotSize slotSize := ⟨hpow, hlow, hhigh⟩
    obtain ⟨ps, F, h⟩ := reaches_good hS hw
    exact h.slot_mapped hS hp

/-- The largest slots that fit. -/
theorem slots_fit_page : Fits 4096 := (slots_fit_iff 4096 ⟨12, rfl⟩ (by decide)).mpr (by decide)

/-- A slot of 8 KB, handed out at 16384: its second half, from 20480 on, is not mapped. -/
theorem slot_overruns_page : ∃ w, (machine 8192 (fun _ => 0) fun _ => false).exec
      (machine 8192 (fun _ => 0) fun _ => false).init [.alloc [some 4096, some 16384]] = some w ∧
    w.live = [16384] ∧ ¬ Mapped w 16384 := by
  have hrun : ((machine 8192 (fun _ => 0) fun _ => false).exec
      (machine 8192 (fun _ => 0) fun _ => false).init [.alloc [some 4096, some 16384]]).map
        (fun w => (w.live, w.slab.slotSize, w.sys.mapped 5)) = some ([16384], 8192, false) := by
    decide +kernel
  obtain ⟨w, hw, hvals⟩ := Option.map_eq_some_iff.mp hrun
  obtain ⟨hlive, hsize, hunmapped⟩ : _ ∧ _ ∧ _ := by simpa using hvals
  refine ⟨w, hw, hlive, fun hmapped => ?_⟩
  have := hmapped 20480 (by decide) (by rw [hsize]; decide)
  exact absurd (hunmapped.symm.trans this) (by decide)

end Aethalloc.Slab
