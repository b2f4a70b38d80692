/-
How much memory a size class can get.

An allocator maps pages for a class only when the calling thread has nothing of the
class left and neither have the global lists.  At that moment everything the class
was ever given is live or kept by some other thread, and what a thread keeps is
bounded.  So the class never grows past the most that was live at a time, the most
the other threads can keep, and what one mapping brings.

Both modes of the allocator work like that.  `Frugal` says it in terms of what the
class was given, `made`, and of threads that keep nothing of it, `idle`;
`made_bounded` draws the conclusion for the whole C interface.
-/
import Mathlib.Algebra.Order.BigOperators.Group.List
import Mathlib.Data.Finset.Card
import Aethalloc.Proofs.Abi.Contract

namespace Aethalloc.Abi

open Lib
open Interface (enter)

/-- The thread that calls, if it is a call. -/
def Label.thread : Label → Option Nat
  | .alloc t _ _ => some t
  | .dealloc t _ _ => some t
  | .malloc t _ _ => some t
  | .free t _ _ => some t
  | .calloc t _ _ _ => some t
  | .realloc t _ _ _ => some t
  | .alignedAlloc t _ _ _ => some t
  | .posixMemalign t _ _ _ _ => some t
  | .write _ _ => none
  | .foreign _ _ => none

/-- Only the threads `0` to `n` call. -/
def Label.By (n : Nat) (l : Label) : Prop := ∀ t, l.thread = some t → t ≤ n

variable {σ : Type} {A : Allocator σ} {I : σ → List Allocation → Prop} {c cap batch : Nat}
  {ok : σ → Prop} {made : σ → Finset Nat} {idle : σ → Nat → Prop} {h h' h₁ : σ}
  {L : List Allocation} {a : Allocation} {t size align n B : Nat}

/-- Everything the class was given is live, or kept by a thread other than `t`; a thread keeps at
most `cap` blocks, and an idle one nothing. -/
def UsedUp (c cap : Nat) (made : σ → Finset Nat) (idle : σ → Nat → Prop) (t : Nat) (h : σ)
    (L : List Allocation) : Prop :=
  ∃ kept : Nat → List Nat, (∀ t', (kept t').length ≤ cap) ∧ (∀ t', idle h t' → kept t' = []) ∧
    ∀ b ∈ made h, b ∈ liveBlocks L c ∨ ∃ t', t' ≠ t ∧ b ∈ kept t'

/-- What a call of thread `t` may do: it gives nothing to threads that are idle, and it makes new
blocks only when nothing is left. -/
structure Grows (c cap batch : Nat) (ok : σ → Prop) (made : σ → Finset Nat)
    (idle : σ → Nat → Prop) (t : Nat) (L : List Allocation) (h h' : σ) : Prop where
  others : ∀ t', t' ≠ t → idle h t' → idle h' t'
  made : made h' = made h ∨
    ((made h').card ≤ (made h).card + batch ∧ (ok h → UsedUp c cap made idle t h L))

/-- An allocator that maps pages for a class only when it has to.  `ok` says that it has lost no
block so far. -/
structure Frugal (A : Allocator σ) (I : σ → List Allocation → Prop) (c cap batch : Nat)
    (ok : σ → Prop) (made : σ → Finset Nat) (idle : σ → Nat → Prop) : Prop where
  alloc : ∀ {h L} (t : Nat) (layout : Layout), I h L →
    Grows c cap batch ok made idle t L h (A.alloc h t layout).1
  dealloc : ∀ {h L a} (t : Nat), I h L → a ∈ L →
    made (A.dealloc h t (some a.ptr)) = made h ∧
      ∀ t', t' ≠ t → idle h t' → idle (A.dealloc h t (some a.ptr)) t'
  setSys : ∀ h s, made (A.setSys h s) = made h ∧ idle (A.setSys h s) = idle h ∧
    (ok h → ok (A.setSys h s))
  ensureInit : ∀ h, made (A.ensureInit h) = made h ∧ idle (A.ensureInit h) = idle h ∧
    (ok h → ok (A.ensureInit h))

/-! ### Counting -/

/-- As many lists as there are, each within the bound. -/
theorem length_flatMap_le {α β : Type} {f : α → List β} {cap : Nat} {l : List α}
    (hcap : ∀ x ∈ l, (f x).length ≤ cap) : (l.flatMap f).length ≤ l.length * cap := by
  rw [List.length_flatMap, ← List.length_map (f := fun x => (f x).length)]
  refine List.sum_le_card_nsmul _ cap fun x hx => ?_
  obtain ⟨y, hy, rfl⟩ := List.mem_map.mp hx
  exact hcap y hy

/-- A class that is used up was given no more than is live and the other threads can keep. -/
theorem UsedUp.card_le (hused : UsedUp c cap made idle t h L) (ht : t ≤ n)
    (hidle : ∀ t', n < t' → idle h t') :
    (made h).card ≤ (liveBlocks L c).length + cap * n := by
  obtain ⟨kept, hcap, hnone, hall⟩ := hused
  have hsub : made h ⊆
      (liveBlocks L c ++ ((List.range (n + 1)).erase t).flatMap kept).toFinset := by
    intro b hb
    rw [List.mem_toFinset]
    rcases hall b hb with hlive | ⟨t', hne, hb'⟩
    · exact List.mem_append_left _ hlive
    · refine List.mem_append_right _ (List.mem_flatMap.mpr ⟨t', ?_, hb'⟩)
      have hle : t' ≤ n := by
        by_contra hlt
        rw [hnone t' (hidle t' (by omega))] at hb'
        exact absurd hb' List.not_mem_nil
      exact (List.mem_erase_of_ne hne).mpr (List.mem_range.mpr (by omega))
  have hlen := (Finset.card_le_card hsub).trans (List.toFinset_card_le _)
  have hothers := length_flatMap_le (l := (List.range (n + 1)).erase t) fun t' _ => hcap t'
  rw [List.length_erase_of_mem (List.mem_range.mpr (by omega)), List.length_range,
    Nat.add_sub_cancel, Nat.mul_comm] at hothers
  rw [List.length_append] at hlen
  omega

/-! ### The calls -/

namespace Grows

theorem refl : Grows c cap batch ok made idle t L h h := ⟨fun _ _ hi => hi, Or.inl rfl⟩

/-- What follows makes nothing and leaves the idle threads alone. -/
theorem then_keep (hg : Grows c cap batch ok made idle t L h h₁) (hmade : made h' = made h₁)
    (hothers : ∀ t', t' ≠ t → idle h₁ t' → idle h' t') :
    Grows c cap batch ok made idle t L h h' where
  others t' ht' hi := hothers t' ht' (hg.others t' ht' hi)
  made := by
    rw [hmade]
    exact hg.made

/-- What came before made nothing and lost nothing. -/
theorem after (hg : Grows c cap batch ok made idle t L h₁ h') (hmade : made h₁ = made h)
    (hidle : idle h₁ = idle h) (hok : ok h → ok h₁) :
    Grows c cap batch ok made idle t L h h' where
  others t' ht' hi := hg.others t' ht' (by rw [hidle]; exact hi)
  made := by
    have hgrown := hg.made
    unfold UsedUp at hgrown ⊢
    rw [hmade, hidle] at hgrown
    exact hgrown.imp id fun hnew => ⟨hnew.1, fun hh => hnew.2 (hok hh)⟩

end Grows

namespace Frugal

theorem setMem (hF : Frugal A I c cap batch ok made idle) (mem : Mem) :
    made (A.setMem h mem) = made h ∧ idle (A.setMem h mem) = idle h :=
  ⟨(hF.setSys h _).1, (hF.setSys h _).2.1⟩

theorem allocLayout (hF : Frugal A I c cap batch ok made idle) (t : Nat) (hinv : I h L)
    (layout : Option Layout) :
    Grows c cap batch ok made idle t L h (A.allocLayout h t layout).1 := by
  cases layout with
  | none => exact .refl
  | some layout => exact hF.alloc t layout hinv

theorem malloc (hA : Sound A I) (hF : Frugal A I c cap batch ok made idle) (t size : Nat)
    (hinv : I h L) : Grows c cap batch ok made idle t L h (A.malloc h t size).1 := by
  obtain ⟨hmade, hidle, hok⟩ := hF.ensureInit h
  have hinit := hA.ensureInit hinv
  unfold Allocator.malloc
  simp only
  split
  · exact Grows.after .refl hmade hidle hok
  · exact (hF.allocLayout t hinit _).after hmade hidle hok

theorem calloc (hA : Sound A I) (hF : Frugal A I c cap batch ok made idle) (t nmemb size : Nat)
    (hinv : I h L) : Grows c cap batch ok made idle t L h (A.calloc h t nmemb size).1 := by
  unfold Allocator.calloc
  split
  · have hg := hF.malloc hA t (nmemb * size) hinv
    rcases hm : A.malloc h t (nmemb * size) with ⟨h₁, _ | p⟩
    · rw [hm] at hg
      exact hg
    · rw [hm] at hg
      obtain ⟨hmade, hidle⟩ := hF.setMem (h := h₁) ((A.mem h₁).fill p (nmemb * size) 0)
      exact hg.then_keep hmade fun t' _ hi => by rw [hidle]; exact hi
  · exact .refl

theorem alignedAlloc (hF : Frugal A I c cap batch ok made idle) (t align size : Nat)
    (hinv : I h L) : Grows c cap batch ok made idle t L h (A.alignedAlloc h t align size).1 := by
  unfold Allocator.alignedAlloc
  split
  · exact .refl
  · exact hF.allocLayout t hinv _

theorem posixMemalign (hF : Frugal A I c cap batch ok made idle) (t memptr align size : Nat)
    (hinv : I h L) :
    Grows c cap batch ok made idle t L h (A.posixMemalign h t memptr align size).1 := by
  unfold Allocator.posixMemalign
  split
  · exact .refl
  · have hg := hF.alignedAlloc t align size hinv
    rcases hm : A.alignedAlloc h t align size with ⟨h₁, p⟩
    rw [hm] at hg
    simp only
    split
    · exact hg
    · obtain ⟨hmade, hidle⟩ := hF.setMem (h := h₁)
        ((A.mem h₁).write memptr 8 (toPtr p))
      exact hg.then_keep hmade fun t' _ hi => by rw [hidle]; exact hi

theorem free (hA : Sound A I) (hF : Frugal A I c cap batch ok made idle) (t : Nat)
    {ptr : Option Nat} (hinv : I h L) (hptr : ∀ p, ptr = some p → ∃ a ∈ L, a.ptr = p) :
    made (A.dealloc h t ptr) = made h ∧
      ∀ t', t' ≠ t → idle h t' → idle (A.dealloc h t ptr) t' := by
  cases ptr with
  | none =>
      rw [hA.deallocNull]
      exact ⟨rfl, fun _ _ hi => hi⟩
  | some p =>
      obtain ⟨a, ha, rfl⟩ := hptr p rfl
      exact hF.dealloc t hinv ha

theorem realloc (hA : Sound A I) (hF : Frugal A I c cap batch ok made idle) (t size : Nat)
    {ptr : Option Nat} (hinv : I h L) (hptr : ∀ p, ptr = some p → ∃ a ∈ L, a.ptr = p) :
    Grows c cap batch ok made idle t L h (A.realloc h t ptr size).1 := by
  have hg := hF.malloc hA t size hinv
  cases ptr with
  | none => exact hg
  | some p =>
      obtain ⟨a, ha, rfl⟩ := hptr p rfl
      unfold Allocator.realloc Allocator.free
      simp only
      split
      · obtain ⟨hmade, hothers⟩ := hF.dealloc t hinv ha
        exact Grows.refl.then_keep hmade hothers
      · have hgrants := hA.malloc t size hinv
        rcases hm : A.malloc h t size with ⟨h₁, _ | new⟩
        · rw [hm] at hg
          exact hg
        · rw [hm] at hg hgrants
          -- the old block is freed after its bytes were copied into the new one
          have houtside : ∀ x, ¬ (new ≤ x ∧ x < new + size) → (A.mem h₁).copy a.ptr new
              (min (A.getAllocSize h (some a.ptr)) size) x = A.mem h₁ x :=
            fun x hx => Mem.copy_outside fun hc => hx ⟨hc.1, by omega⟩
          have hcopied := hgrants.fill hA houtside
          have hmem : a ∈ grow L (some new) size 8 := List.mem_cons_of_mem _ ha
          obtain ⟨hmade, hothers⟩ := hF.dealloc t hcopied.inv hmem
          obtain ⟨hmade₁, hidle₁⟩ := hF.setMem (h := h₁) ((A.mem h₁).copy a.ptr new
            (min (A.getAllocSize h (some a.ptr)) size))
          refine hg.then_keep (hmade.trans hmade₁) fun t' ht' hi => hothers t' ht' ?_
          rw [hidle₁]
          exact hi

end Frugal

/-! ### Whole runs -/

namespace Interface

variable {w w' : World σ} {l : Label}

/-- What a step does to a class: what its thread's call does, or nothing. -/
theorem step_grows (hA : Sound A I) (hF : Frugal A I c cap batch ok made idle)
    (hinv : I w.heap w.live) (hstep : step A w l = some w') :
    (made w'.heap = made w.heap ∧ idle w'.heap = idle w.heap) ∨
      ∃ t, l.thread = some t ∧ Grows c cap batch ok made idle t w.live w.heap w'.heap := by
  -- a call starts from the same heap, with other answers to come
  have hin : ∀ answers, I (enter A w answers) w.live := fun answers => inv_enter hA answers hinv
  have hcall : ∀ {t answers heap},
      Grows c cap batch ok made idle t w.live (enter A w answers) heap →
      Grows c cap batch ok made idle t w.live w.heap heap := by
    intro t answers heap hg
    obtain ⟨hmade, hidle, hok⟩ := hF.setSys w.heap { A.sys w.heap with answers := answers }
    exact hg.after hmade hidle hok
  have hholds : ∀ {ptr}, w.Holds ptr → ∀ p, ptr = some p → ∃ a ∈ w.live, a.ptr = p := by
    rintro ptr hptr p rfl
    exact hptr
  have hfree : ∀ {t ptr answers}, w.Holds ptr →
      Grows c cap batch ok made idle t w.live w.heap (A.dealloc (enter A w answers) t ptr) := by
    intro t ptr answers hptr
    obtain ⟨hmade, hothers⟩ := hF.free hA t (hin answers) (hholds hptr)
    exact hcall (Grows.refl.then_keep hmade hothers)
  cases l with
  | alloc t layout answers =>
      obtain rfl := Option.some.inj hstep
      exact Or.inr ⟨t, rfl, hcall (hF.alloc t layout (hin answers))⟩
  | dealloc t ptr answers =>
      obtain ⟨hptr, hsome⟩ := Option.ite_none_right_eq_some.mp hstep
      obtain rfl := Option.some.inj hsome
      exact Or.inr ⟨t, rfl, hfree hptr⟩
  | malloc t size answers =>
      obtain ⟨-, hsome⟩ := Option.ite_none_right_eq_some.mp hstep
      obtain rfl := Option.some.inj hsome
      exact Or.inr ⟨t, rfl, hcall (hF.malloc hA t size (hin answers))⟩
  | free t ptr answers =>
      obtain ⟨hptr, hsome⟩ := Option.ite_none_right_eq_some.mp hstep
      obtain rfl := Option.some.inj hsome
      exact Or.inr ⟨t, rfl, hfree hptr⟩
  | calloc t nmemb size answers =>
      obtain ⟨-, hsome⟩ := Option.ite_none_right_eq_some.mp hstep
      obtain rfl := Option.some.inj hsome
      exact Or.inr ⟨t, rfl, hcall (hF.calloc hA t nmemb size (hin answers))⟩
  | realloc t ptr size answers =>
      obtain ⟨⟨hptr, -⟩, hsome⟩ := Option.ite_none_right_eq_some.mp hstep
      have hg := hcall (hF.realloc hA t size (hin answers) (hholds hptr))
      have hheap : w'.heap = (A.realloc (enter A w answers) t ptr size).1 := by
        rcases hm : A.realloc (enter A w answers) t ptr size with ⟨heap, _ | p⟩
        · rw [hm] at hsome
          simp only at hsome
          split at hsome <;> (obtain rfl := Option.some.inj hsome; rfl)
        · rw [hm] at hsome
          obtain rfl := Option.some.inj hsome
          rfl
      rw [hheap]
      exact Or.inr ⟨t, rfl, hg⟩
  | alignedAlloc t alignment size answers =>
      obtain ⟨-, hsome⟩ := Option.ite_none_right_eq_some.mp hstep
      obtain rfl := Option.some.inj hsome
      exact Or.inr ⟨t, rfl, hcall (hF.alignedAlloc t alignment size (hin answers))⟩
  | posixMemalign t memptr alignment size answers =>
      unfold step at hstep
      obtain ⟨-, hsome⟩ := Option.ite_none_right_eq_some.mp hstep
      have hg := hcall (hF.posixMemalign t memptr alignment size (hin answers))
      have hheap : w'.heap = (A.posixMemalign (enter A w answers) t memptr alignment size).1 := by
        rcases hm : A.posixMemalign (enter A w answers) t memptr alignment size with ⟨heap, code⟩
        rw [hm] at hsome
        simp only at hsome
        split at hsome <;> (obtain rfl := Option.some.inj hsome; rfl)
      rw [hheap]
      exact Or.inr ⟨t, rfl, hg⟩
  | write addr byte =>
      obtain ⟨-, hsome⟩ := Option.ite_none_right_eq_some.mp hstep
      obtain rfl := Option.some.inj hsome
      exact Or.inl (hF.setMem _)
  | foreign page mapped =>
      obtain ⟨-, hsome⟩ := Option.ite_none_right_eq_some.mp hstep
      obtain rfl := Option.some.inj hsome
      obtain ⟨hmade, hidle, -⟩ := hF.setSys w.heap { A.sys w.heap with
        foreign := Function.update (A.sys w.heap).foreign page mapped }
      exact Or.inl ⟨hmade, hidle⟩

/-- A step by one of the threads `0` to `n` that loses no block, with at most `B` blocks of the
class live. -/
def Moderate (c n B : Nat) (ok : σ → Prop) (w : World σ) (l : Label) : Prop :=
  l.By n ∧ ok w.heap ∧ (liveBlocks w.live c).length ≤ B

/-- The test for it. -/
def moderate (c n B : Nat) (test : σ → Bool) (w : World σ) (l : Label) : Bool :=
  l.thread.all (· ≤ n) && test w.heap && (liveBlocks w.live c).length ≤ B

theorem Moderate.of_test {test : σ → Bool} (hok : ∀ h, test h = true → ok h)
    (htest : moderate c n B test w l = true) : Moderate c n B ok w l := by
  unfold moderate at htest
  rw [Bool.and_eq_true, Bool.and_eq_true, decide_eq_true_eq] at htest
  obtain ⟨⟨hthread, hheap⟩, hlive⟩ := htest
  refine ⟨fun t ht => ?_, hok _ hheap, hlive⟩
  rw [ht, Option.all_some, decide_eq_true_eq] at hthread
  exact hthread

/-- A class gets no more than is live at a time, the other threads can keep, and one mapping
brings. -/
theorem made_bounded (hA : Sound A I) (hF : Frugal A I c cap batch ok made idle)
    (hstart : I h []) (hmade : made h = ∅) (hidle : ∀ t, idle h t)
    (hw : (machine A h).ReachesUnder (Moderate c n B ok) w) :
    I w.heap w.live ∧ (made w.heap).card ≤ B + cap * n + batch := by
  suffices hall : I w.heap w.live ∧ (∀ t, n < t → idle w.heap t) ∧
      (made w.heap).card ≤ B + cap * n + batch from ⟨hall.1, hall.2.2⟩
  refine hw.invariant (P := fun w => I w.heap w.live ∧ (∀ t, n < t → idle w.heap t) ∧
    (made w.heap).card ≤ B + cap * n + batch) ⟨hstart, fun t _ => hidle t, ?_⟩ ?_
  · show (made h).card ≤ _
    rw [hmade]
    exact Nat.zero_le _
  · rintro w l w' ⟨hinv, hidle, hcard⟩ ⟨hby, hok, hlive⟩ hstep
    refine ⟨(step_allows hA hinv hstep).1, ?_⟩
    rcases step_grows hA hF hinv hstep with ⟨hmade', hidle'⟩ | ⟨t, ht, hg⟩
    · rw [hmade', hidle']
      exact ⟨hidle, hcard⟩
    · have hle := hby t ht
      refine ⟨fun t' ht' => hg.others t' (by omega) (hidle t' ht'), ?_⟩
      rcases hg.made with hsame | ⟨hmore, hused⟩
      · rw [hsame]
        exact hcard
      · have hcount := (hused hok).card_le hle hidle
        omega

end Interface

end Aethalloc.Abi
