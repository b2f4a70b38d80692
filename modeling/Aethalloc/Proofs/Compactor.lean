/-
What is left of a relocation that fails.

Whatever the kernel answers, the pages that are to be relocated are in one of three
conditions when the function gives up: never unmapped, mapped again and filled from
the temporary buffer, or gone.  The last happens in one case only, when they were
unmapped and the mapping that was to replace them is refused.  Then the temporary
buffer, which has the only copy of the data, is unmapped as well.
-/
import Aethalloc.Vmpc.Compactor

namespace Aethalloc.Vmpc

open Lib

variable {k k₁ : Kernel} {src size addr len tempBuf : Nat}

/-! ### System calls -/

namespace Kernel

theorem mmap_cases : (∃ errno, k.mmap len = (k.failed errno, none)) ∨
    ∃ addr, k.Unused addr len ∧ k.mmap len = (k.answered.mapAt addr len, some addr) := by
  unfold mmap
  cases k.answers 0 with
  | fail errno => exact Or.inl ⟨errno, rfl⟩
  | ok addr =>
      simp only
      split
      · rename_i hunused
        exact Or.inr ⟨addr, hunused, rfl⟩
      · exact Or.inl ⟨ENOMEM, rfl⟩

theorem mmapFixed_ok (hal : addr % PAGE_SIZE = 0) (hok : (k.answers 0).isOk = true) :
    k.mmapFixed addr len = (k.answered.mapAt addr len, true) := by
  unfold mmapFixed
  cases hans : k.answers 0 with
  | fail errno => rw [hans] at hok; cases hok
  | ok _ => exact if_pos hal

theorem mmapFixed_fail (hfail : (k.answers 0).isOk = false) :
    ∃ errno, k.mmapFixed addr len = (k.failed errno, false) := by
  unfold mmapFixed
  cases hans : k.answers 0 with
  | fail errno => exact ⟨errno, rfl⟩
  | ok _ => rw [hans] at hfail; cases hfail

theorem munmap_ok (hal : addr % PAGE_SIZE = 0) (hok : (k.answers 0).isOk = true) :
    k.munmap addr len = (k.answered.setMapped addr len false, true) := by
  unfold munmap
  cases hans : k.answers 0 with
  | fail errno => rw [hans] at hok; cases hok
  | ok _ => exact if_pos hal

theorem munmap_fail (hfail : (k.answers 0).isOk = false) :
    ∃ errno, k.munmap addr len = (k.failed errno, false) := by
  unfold munmap
  cases hans : k.answers 0 with
  | fail errno => exact ⟨errno, rfl⟩
  | ok _ => rw [hans] at hfail; cases hfail

/-- Unmapping changes no byte and no other page. -/
theorem munmap_frame (len : Nat) (hal : addr % PAGE_SIZE = 0) :
    (k.munmap addr len).1.mem = k.mem ∧
    (∀ page, ¬ InPages addr len page → (k.munmap addr len).1.mapped page = k.mapped page) ∧
    ((k.answers 0).isOk = true →
      ∀ page, InPages addr len page → (k.munmap addr len).1.mapped page = false) := by
  cases hans : (k.answers 0).isOk with
  | true =>
      rw [munmap_ok hal hans]
      exact ⟨rfl, fun page hpage => if_neg hpage, fun _ page hpage => if_pos hpage⟩
  | false =>
      obtain ⟨errno, heq⟩ : ∃ errno, k.munmap addr len = (k.failed errno, false) :=
        munmap_fail hans
      rw [heq]
      exact ⟨rfl, fun _ _ => rfl, nofun⟩

end Kernel

/-! ### Relocation -/

/-- The pages at `src` are mapped with the bytes they had, and the temporary buffer is not mapped
unless the call that was to unmap it, the fourth wherever there is one, failed. -/
structure Preserved (k k' : Kernel) (src size : Nat) : Prop where
  mapped : ∀ page, InPages src size page → k'.mapped page = true
  bytes : ∀ x, src ≤ x → x < src + size → k'.mem x = k.mem x
  temp : ∀ tempBuf, (k.mmap size).2 = some tempBuf → (k.answers 3).isOk = true →
    ∀ page, InPages tempBuf size page → k'.mapped page = false

/-- There is a temporary buffer, the pages are unmapped, and no new ones are to be had in their
place. -/
def Strands (k : Kernel) (size : Nat) : Prop :=
  (k.mmap size).2.isSome = true ∧ (k.answers 1).isOk = true ∧ (k.answers 2).isOk = false

instance (k : Kernel) (size : Nat) : Decidable (Strands k size) :=
  inferInstanceAs (Decidable (_ ∧ _ ∧ _))

/-- What the caller promises: whole pages that are mapped. -/
structure Relocatable (k : Kernel) (src size : Nat) : Prop where
  aligned : src % PAGE_SIZE = 0
  pos : size ≠ 0
  whole : size % PAGE_SIZE = 0
  mapped : ∀ page, InPages src size page → k.mapped page = true

/-- The temporary buffer shares no page with them. -/
theorem Relocatable.apart (h : Relocatable k src size) (hunused : k.Unused tempBuf size) :
    ∀ page, InPages src size page → ¬ InPages tempBuf size page := by
  intro page hin hin'
  obtain ⟨-, -, -, hfree⟩ := hunused
  have hnot := hfree (page - tempBuf / PAGE_SIZE) (by unfold InPages at hin'; omega)
  rw [Nat.add_sub_cancel' hin'.1, h.mapped page hin] at hnot
  cases hnot

theorem Relocatable.inPages {x : Nat} (h : Relocatable k src size)
    (hx : src ≤ x ∧ x < src + size) : InPages src size (x / PAGE_SIZE) := by
  have hal := h.aligned
  have hwhole := h.whole
  unfold InPages PAGE_SIZE at *
  omega

/-- Nor a byte. -/
theorem Relocatable.outside {x : Nat} (h : Relocatable k src size)
    (hunused : k.Unused tempBuf size) (hx : src ≤ x ∧ x < src + size) :
    ¬ (tempBuf ≤ x ∧ x < tempBuf + size) := by
  intro hin
  have hal := hunused.2.1
  have hwhole := h.whole
  refine h.apart hunused _ (h.inPages hx) ?_
  unfold InPages PAGE_SIZE at *
  omega

/-- The kernel with the contents in the temporary buffer. -/
def saved (k : Kernel) (src tempBuf size : Nat) : Kernel :=
  (k.answered.mapAt tempBuf size).copy src tempBuf size

/-- Filling the buffer changes nothing of the pages. -/
theorem Relocatable.saved (h : Relocatable k src size) (hunused : k.Unused tempBuf size) :
    (∀ page, InPages src size page → (saved k src tempBuf size).mapped page = true) ∧
    ∀ x, src ≤ x → x < src + size → (saved k src tempBuf size).mem x = k.mem x := by
  refine ⟨fun page hpage => ?_, fun x h1 h2 => ?_⟩
  · exact (if_neg (h.apart hunused page hpage)).trans (h.mapped page hpage)
  · have hout := h.outside hunused ⟨h1, h2⟩
    exact (Mem.copy_outside hout).trans (Mem.fill_outside hout)

/-- The pages, mapped anew and filled from the buffer, have their bytes again. -/
theorem Relocatable.refilled (h : Relocatable k src size) (hunused : k.Unused tempBuf size)
    (hmem : k₁.mem = (Vmpc.saved k src tempBuf size).mem) :
    (∀ page, InPages src size page →
      ((k₁.mapAt src size).copy tempBuf src size).mapped page = true) ∧
    ∀ x, src ≤ x → x < src + size →
      ((k₁.mapAt src size).copy tempBuf src size).mem x = k.mem x := by
  refine ⟨fun page hpage => if_pos hpage, fun x h1 h2 => ?_⟩
  have hback : ((k₁.mapAt src size).copy tempBuf src size).mem x
      = (k.mem.fill tempBuf size 0) x := by
    refine Mem.copy_back (fun y hy1 hy2 => ?_) ⟨h1, h2⟩
    have hout : ¬ (src ≤ y ∧ y < src + size) := fun hy => h.outside hunused hy ⟨hy1, hy2⟩
    have hfill : (k₁.mapAt src size).mem y = k₁.mem y := Mem.fill_outside hout
    rw [hfill, hmem]
    rfl
  rw [hback]
  exact Mem.fill_outside (h.outside hunused ⟨h1, h2⟩)

/-- The last call gives up the temporary buffer and touches nothing else. -/
theorem Relocatable.release (h : Relocatable k src size) (hunused : k.Unused tempBuf size)
    (hbuf : (k.mmap size).2 = some tempBuf) (hans : k₁.answers 0 = k.answers 3)
    (hkept : (∀ page, InPages src size page → k₁.mapped page = true) ∧
      ∀ x, src ≤ x → x < src + size → k₁.mem x = k.mem x) :
    Preserved k (k₁.munmap tempBuf size).1 src size := by
  obtain ⟨hmem, hothers, hgone⟩ := k₁.munmap_frame size hunused.2.1
  refine ⟨fun page hpage => ?_, fun x h1 h2 => ?_, fun tempBuf' hbuf' hok => ?_⟩
  · rw [hothers page (h.apart hunused page hpage)]
    exact hkept.1 page hpage
  · rw [hmem]
    exact hkept.2 x h1 h2
  · obtain rfl := Option.some.inj (hbuf.symm.trans hbuf')
    exact hgone (by rw [hans]; exact hok)

/-- Once the pages are gone and not replaced, giving up the buffer does not bring them back. -/
theorem Relocatable.not_preserved {k' : Kernel} (h : Relocatable k src size)
    (hgone : ∀ page, InPages src size page → k'.mapped page = false) :
    ¬ Preserved k k' src size := by
  intro hpreserved
  have hfirst : InPages src size (src / PAGE_SIZE) := by
    have hpos := h.pos
    have hwhole := h.whole
    unfold InPages PAGE_SIZE at *
    omega
  have hmapped := hpreserved.mapped _ hfirst
  rw [hgone _ hfirst] at hmapped
  cases hmapped

theorem Relocatable.guard (h : Relocatable k src size) :
    ¬ (size = 0 ∨ size % PAGE_SIZE ≠ 0) := by
  rintro (hzero | hpart)
  · exact h.pos hzero
  · exact hpart h.whole

/-! ### The ways it goes -/

/-- Without a buffer nothing is done. -/
theorem Relocatable.noBuffer {errno : Int} (h : Relocatable k src size)
    (hmap : k.mmap size = (k.failed errno, none)) :
    Preserved k (tryRelocatePage k src size).1 src size := by
  unfold tryRelocatePage
  rw [if_neg h.guard, hmap]
  refine ⟨h.mapped, fun _ _ _ => rfl, fun tempBuf hbuf => ?_⟩
  rw [hmap] at hbuf
  cases hbuf

section

variable (h : Relocatable k src size) (hunused : k.Unused tempBuf size)
  (hmap : k.mmap size = (k.answered.mapAt tempBuf size, some tempBuf))

include h hunused hmap

/-- Pages that cannot be unmapped stay, or are mapped anew and refilled. -/
theorem Relocatable.unmapFailed (hsrc : (k.answers 1).isOk = false) :
    Preserved k (tryRelocatePage k src size).1 src size := by
  have hbuf : (k.mmap size).2 = some tempBuf := by rw [hmap]
  unfold tryRelocatePage
  rw [if_neg h.guard, hmap]
  simp only
  generalize hk₁ : (k.answered.mapAt tempBuf size).copy src tempBuf size = k₁
  have hsaved : k₁ = Vmpc.saved k src tempBuf size := hk₁.symm
  obtain ⟨errno, hunmap⟩ : ∃ errno, k₁.munmap src size = (k₁.failed errno, false) :=
    Kernel.munmap_fail (by rw [hsaved]; exact hsrc)
  rw [hunmap]
  simp only
  cases hfixed : (k.answers 2).isOk with
  | false =>
      obtain ⟨errno', hmap'⟩ : ∃ errno', (k₁.failed errno).mmapFixed src size
          = ((k₁.failed errno).failed errno', false) :=
        Kernel.mmapFixed_fail (by rw [hsaved]; exact hfixed)
      rw [hmap', hsaved]
      exact h.release hunused hbuf rfl (h.saved hunused)
  | true =>
      have hmap' : (k₁.failed errno).mmapFixed src size
          = ((k₁.failed errno).answered.mapAt src size, true) :=
        Kernel.mmapFixed_ok h.aligned (by rw [hsaved]; exact hfixed)
      rw [hmap', hsaved]
      exact h.release hunused hbuf rfl (h.refilled hunused rfl)

/-- Pages that are unmapped and replaced are refilled. -/
theorem Relocatable.replaced (hsrc : (k.answers 1).isOk = true)
    (hfixed : (k.answers 2).isOk = true) :
    Preserved k (tryRelocatePage k src size).1 src size := by
  have hbuf : (k.mmap size).2 = some tempBuf := by rw [hmap]
  unfold tryRelocatePage
  rw [if_neg h.guard, hmap]
  simp only
  generalize hk₁ : (k.answered.mapAt tempBuf size).copy src tempBuf size = k₁
  have hsaved : k₁ = Vmpc.saved k src tempBuf size := hk₁.symm
  rw [Kernel.munmap_ok h.aligned (by rw [hsaved]; exact hsrc)]
  simp only
  rw [Kernel.mmapFixed_ok h.aligned (by rw [hsaved]; exact hfixed), hsaved]
  exact h.release hunused hbuf rfl (h.refilled hunused rfl)

/-- Pages that are unmapped and not replaced are gone. -/
theorem Relocatable.stranded (hsrc : (k.answers 1).isOk = true)
    (hfixed : (k.answers 2).isOk = false) :
    ∀ page, InPages src size page → (tryRelocatePage k src size).1.mapped page = false := by
  intro page hpage
  unfold tryRelocatePage
  rw [if_neg h.guard, hmap]
  simp only
  generalize hk₁ : (k.answered.mapAt tempBuf size).copy src tempBuf size = k₁
  have hsaved : k₁ = Vmpc.saved k src tempBuf size := hk₁.symm
  rw [Kernel.munmap_ok h.aligned (by rw [hsaved]; exact hsrc)]
  simp only
  generalize hk₂ : k₁.answered.setMapped src size false = k₂
  have hans : (k₂.answers 0).isOk = false := by rw [← hk₂, hsaved]; exact hfixed
  obtain ⟨errno, hmap'⟩ : ∃ errno, k₂.mmapFixed src size = (k₂.failed errno, false) :=
    Kernel.mmapFixed_fail hans
  rw [hmap']
  obtain ⟨-, hothers, -⟩ := (k₂.failed errno).munmap_frame size hunused.2.1
  refine (hothers page (h.apart hunused page hpage)).trans ?_
  rw [← hk₂]
  exact if_pos hpage

end

/--
**Relocation is atomic unless the replacement is refused.**  For every range of
mapped pages, whatever they hold and whatever the kernel answers to each call, the
range is mapped with its bytes afterwards and the temporary buffer gone, its own
`munmap` permitting, if and only if it is not the case that the range was unmapped
and the mapping in its place failed.
-/
theorem relocate_preserves_iff (k : Kernel) (src size : Nat) (h : Relocatable k src size) :
    Preserved k (tryRelocatePage k src size).1 src size ↔ ¬ Strands k size := by
  unfold Strands
  rcases k.mmap_cases with ⟨errno, hmap⟩ | ⟨tempBuf, hunused, hmap⟩
  · refine iff_of_true (h.noBuffer hmap) ?_
    rw [hmap]
    simp
  · rw [hmap]
    cases hsrc : (k.answers 1).isOk with
    | false => exact iff_of_true (h.unmapFailed hunused hmap hsrc) (by simp)
    | true =>
        cases hfixed : (k.answers 2).isOk with
        | false =>
            have hgone := h.stranded hunused hmap hsrc hfixed
            exact iff_of_false (h.not_preserved hgone) (by simp)
        | true => exact iff_of_true (h.replaced hunused hmap hsrc hfixed) (by simp)

/-- A process with one page, at 4096, full of 0xAB. -/
def onePage (answers : Nat → Answer) : Kernel where
  mem := fun _ => 0xAB
  mapped := fun page => page == 1
  errno := 0
  answers := answers

theorem onePage_relocatable (answers : Nat → Answer) : Relocatable (onePage answers) 4096 4096 where
  aligned := rfl
  pos := by decide
  whole := rfl
  mapped page hpage := by
    have heq : page = 1 := by
      unfold InPages PAGE_SIZE at hpage
      omega
    rw [heq]
    rfl

/-- Every call succeeds, or the page cannot be unmapped and is mapped again over itself. -/
theorem relocate_preserves_page :
    Preserved (onePage fun _ => .ok 8192)
      (tryRelocatePage (onePage fun _ => .ok 8192) 4096 4096).1 4096 4096 ∧
    Preserved (onePage fun i => if i = 1 then .fail 12 else .ok 8192)
      (compactPages (onePage fun i => if i = 1 then .fail 12 else .ok 8192) 4096 4096).1
        4096 4096 :=
  ⟨(relocate_preserves_iff _ _ _ (onePage_relocatable _)).mpr (by decide),
    (relocate_preserves_iff _ _ _ (onePage_relocatable _)).mpr (by decide)⟩

/-- The third call is refused: the page is gone, the buffer too, and the caller gets the errno. -/
theorem relocate_loses_page :
    (tryRelocatePage (onePage fun i => if i = 2 then .fail 12 else .ok 8192) 4096 4096).2
      = .error (.unknown 12) ∧
    (tryRelocatePage (onePage fun i => if i = 2 then .fail 12 else .ok 8192) 4096 4096).1.mapped 1
      = false ∧
    ¬ Preserved (onePage fun i => if i = 2 then .fail 12 else .ok 8192)
      (tryRelocatePage (onePage fun i => if i = 2 then .fail 12 else .ok 8192) 4096 4096).1
        4096 4096 := by
  have hgone : (tryRelocatePage (onePage fun i => if i = 2 then .fail 12 else .ok 8192)
      4096 4096).1.mapped 1 = false := by decide
  refine ⟨by rfl, hgone, fun hpreserved => ?_⟩
  have hmapped := hpreserved.mapped 1 (by decide)
  rw [hgone] at hmapped
  cases hmapped

end Aethalloc.Vmpc
