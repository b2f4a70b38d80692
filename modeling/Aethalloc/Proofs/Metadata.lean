/-
When the metadata allocator hands out a node at most once.

A page and an offset claimed together would be a node of one's own.  The code
claims them one after the other: `alloc_node` wins an offset with one
compare-and-swap and reads the page afterwards, and it publishes a page with
another and resets the offset afterwards.  Two threads can therefore be told to
use the same bytes, and `allocNode_race` is an interleaving of two threads that
does so.

What the code needs, and does not enforce, is `Undisturbed`: no page is published
under a thread that has its offset and not yet its page, and no offset is claimed
under a thread that has published its page and not yet stored the offset.  Along
every run that keeps to it, nodes are exclusive.

The proof forgets the program counters except for what a thread has in its hands,
its `Role`, and lists the eight things a step can do to that view.  The invariant
is about the view: below the offset everything may be taken, above it nothing is,
and while some published page still waits for its offset, the current page has
given out nothing but its first node.
-/
import Mathlib.Data.List.Basic
import Mathlib.Logic.Function.Basic
import Aethalloc.Lib.Trace
import Aethalloc.Core.Metadata

namespace Aethalloc.Metadata

open Lib

variable {Tid : Type}

/-! ### What a thread has in its hands -/

inductive Role
  | none
  /-- A page it has mapped and nobody else knows of. -/
  | holds (page : Nat)
  /-- A page it has published, with the offset still to be stored. -/
  | published (page : Nat)
  /-- An offset it has claimed, with the page still to be loaded. -/
  | claimed (aligned : Nat)

def Pc.role : Pc → Role
  | .loadPage aligned => .claimed aligned
  | .loadCurrent page | .casPage _ page | .unmapPage page => .holds page
  | .storeOffset page => .published page
  | .idle | .loadOffset | .casOffset _ | .mapPage => .none

/-- The page a thread has to itself. -/
def Role.page? : Role → Option Nat
  | .holds page | .published page => some page
  | .none | .claimed _ => Option.none

/-- The allocator without its program counters. -/
structure View (Tid : Type) where
  currentPage : Nat
  offset : Nat
  pages : List Nat
  returned : List Nat
  role : Tid → Role

def view (s : State Tid) : View Tid where
  currentPage := s.currentPage
  offset := s.offset
  pages := s.pages
  returned := s.returned
  role := fun t => (s.pc t).role

/-- Everything one undisturbed step can do to the view. -/
inductive Change [DecidableEq Tid] (v : View Tid) : View Tid → Prop
  | same : Change v v
  | map (t : Tid) (page : Nat) (hrole : v.role t = .none) (hne : page ≠ 0)
      (hal : page % PAGE_SIZE = 0) (hfresh : page ∉ v.pages) :
      Change v { v with
        pages := page :: v.pages
        role := Function.update v.role t (.holds page) }
  | unmap (t : Tid) (page : Nat) (hrole : v.role t = .holds page) :
      Change v { v with
        pages := v.pages.filter (· ≠ page)
        role := Function.update v.role t .none }
  | publish (t : Tid) (page : Nat) (hrole : v.role t = .holds page)
      (hquiet : ∀ t' aligned, v.role t' ≠ .claimed aligned) :
      Change v { v with
        currentPage := page
        role := Function.update v.role t (.published page) }
  | reset (t : Tid) (page : Nat) (hrole : v.role t = .published page) :
      Change v { v with
        offset := NODE_SIZE
        returned := page :: v.returned
        role := Function.update v.role t .none }
  | claim (t : Tid) (aligned : Nat) (hrole : v.role t = .none) (hle : v.offset ≤ aligned)
      (hfits : aligned + NODE_SIZE ≤ PAGE_SIZE)
      (hquiet : ∀ t' page, v.role t' ≠ .published page) :
      Change v { v with
        offset := aligned + NODE_SIZE
        role := Function.update v.role t (.claimed aligned) }
  | take (t : Tid) (aligned : Nat) (hrole : v.role t = .claimed aligned) :
      Change v { v with
        returned := (v.currentPage + aligned) :: v.returned
        role := Function.update v.role t .none }

/-! ### The invariant of the view -/

/-- `p` lies in the page that starts at `page`. -/
def InPage (p page : Nat) : Prop := page ≤ p ∧ p < page + PAGE_SIZE

structure Inv (v : View Tid) : Prop where
  offset_le : v.offset ≤ PAGE_SIZE
  mapped : ∀ page ∈ v.pages, page ≠ 0 ∧ page % PAGE_SIZE = 0
  current : v.currentPage ∈ v.pages ∨ (v.currentPage = 0 ∧ v.offset = PAGE_SIZE)
  owned_mem : ∀ t page, (v.role t).page? = some page → page ∈ v.pages
  owned_inj : ∀ t t' page, (v.role t).page? = some page → (v.role t').page? = some page → t = t'
  owned_empty : ∀ t page, (v.role t).page? = some page → ∀ p ∈ v.returned, ¬ InPage p page
  holds_ne : ∀ t page, v.role t = .holds page → page ≠ v.currentPage
  inside : ∀ p ∈ v.returned, ∃ page ∈ v.pages, page ≤ p ∧ p + NODE_SIZE ≤ page + PAGE_SIZE
  apart : v.returned.Pairwise Apart
  frontier : (∀ t page, v.role t ≠ .published page) →
    ∀ p ∈ v.returned, InPage p v.currentPage → p + NODE_SIZE ≤ v.currentPage + v.offset
  first : ∀ t page, v.role t = .published page →
    ∀ p ∈ v.returned, InPage p v.currentPage → p = v.currentPage
  claimed_le : ∀ t aligned, v.role t = .claimed aligned → aligned + NODE_SIZE ≤ v.offset
  claimed_mem : ∀ t aligned, v.role t = .claimed aligned → v.currentPage ∈ v.pages
  published_mem : ∀ t page, v.role t = .published page → v.currentPage ∈ v.pages
  claimed_apart : ∀ t aligned, v.role t = .claimed aligned →
    ∀ p ∈ v.returned, Apart p (v.currentPage + aligned)
  claimed_inj : ∀ t t' aligned aligned', v.role t = .claimed aligned →
    v.role t' = .claimed aligned' → t ≠ t' → Apart aligned aligned'
  exclusive : ∀ t t' aligned page, v.role t = .claimed aligned → v.role t' ≠ .published page

theorem inv_start : Inv (view (start : State Tid)) where
  offset_le := Nat.le_refl _
  mapped := by simp [view, start]
  current := Or.inr ⟨rfl, rfl⟩
  owned_mem := by simp [view, start, Pc.role, Role.page?]
  owned_inj := by simp [view, start, Pc.role, Role.page?]
  owned_empty := by simp [view, start]
  holds_ne := by simp [view, start, Pc.role]
  inside := by simp [view, start]
  apart := List.Pairwise.nil
  frontier := by simp [view, start]
  first := by simp [view, start]
  claimed_le := by simp [view, start, Pc.role]
  claimed_mem := by simp [view, start, Pc.role]
  published_mem := by simp [view, start, Pc.role]
  claimed_apart := by simp [view, start]
  claimed_inj := by simp [view, start, Pc.role]
  exclusive := by simp [view, start, Pc.role]

/-! ### Pages are apart -/

/-- A page-aligned address lies in a page only if it is its first. -/
theorem eq_of_inPage {p page : Nat} (hp : p % PAGE_SIZE = 0) (hpage : page % PAGE_SIZE = 0)
    (h : InPage p page) : p = page := by
  unfold InPage PAGE_SIZE at *
  omega

/-- A node of one page and a node of another share no byte. -/
theorem apart_of_pages {p q page page' : Nat} (hpage : page % PAGE_SIZE = 0)
    (hpage' : page' % PAGE_SIZE = 0) (hne : page ≠ page')
    (hp : page ≤ p ∧ p + NODE_SIZE ≤ page + PAGE_SIZE)
    (hq : page' ≤ q ∧ q + NODE_SIZE ≤ page' + PAGE_SIZE) : Apart p q := by
  unfold Apart NODE_SIZE PAGE_SIZE at *
  omega

theorem Apart.symm {p q : Nat} (h : Apart p q) : Apart q p := Or.symm h

theorem inPage_of_inside {p page : Nat} (h : page ≤ p ∧ p + NODE_SIZE ≤ page + PAGE_SIZE) :
    InPage p page := by
  unfold InPage
  unfold NODE_SIZE at h
  omega

namespace Inv

variable {v : View Tid}

theorem current_aligned (h : Inv v) : v.currentPage % PAGE_SIZE = 0 := by
  rcases h.current with hm | ⟨h0, -⟩
  · exact (h.mapped _ hm).2
  · rw [h0]
    rfl

theorem holds_page {t : Tid} {page : Nat} (hrole : v.role t = .holds page) :
    (v.role t).page? = some page := by
  rw [hrole]
  rfl

theorem published_page {t : Tid} {page : Nat} (hrole : v.role t = .published page) :
    (v.role t).page? = some page := by
  rw [hrole]
  rfl

/-- A page with no node of it handed out is apart from every node handed out. -/
theorem apart_of_empty (h : Inv v) {page q : Nat} (hmem : page ∈ v.pages)
    (hempty : ∀ p ∈ v.returned, ¬ InPage p page)
    (hq : page ≤ q ∧ q + NODE_SIZE ≤ page + PAGE_SIZE) :
    ∀ p ∈ v.returned, Apart p q := by
  intro p hp
  obtain ⟨page', hmem', hin⟩ := h.inside p hp
  refine apart_of_pages (h.mapped _ hmem').2 (h.mapped _ hmem).2 ?_ hin hq
  rintro rfl
  exact hempty p hp (inPage_of_inside hin)

/-- Above the offset, and within the page, nothing has been handed out. -/
theorem apart_of_above (h : Inv v) (hquiet : ∀ t page, v.role t ≠ .published page)
    (hcur : v.currentPage ∈ v.pages) {aligned : Nat} (hle : v.offset ≤ aligned)
    (hfits : aligned + NODE_SIZE ≤ PAGE_SIZE) :
    ∀ p ∈ v.returned, Apart p (v.currentPage + aligned) := by
  intro p hp
  by_cases hin : InPage p v.currentPage
  · have := h.frontier hquiet p hp hin
    left
    omega
  · obtain ⟨page, hmem, hpage⟩ := h.inside p hp
    refine apart_of_pages (h.mapped _ hmem).2 (h.mapped _ hcur).2 ?_ hpage
      ⟨Nat.le_add_right _ _, by omega⟩
    rintro rfl
    exact hin (inPage_of_inside hpage)

/-- A page the kernel has just mapped holds no node. -/
theorem fresh_empty (h : Inv v) {page : Nat} (hal : page % PAGE_SIZE = 0)
    (hfresh : page ∉ v.pages) : ∀ p ∈ v.returned, ¬ InPage p page := by
  intro p hp hin
  obtain ⟨page', hmem, hp'⟩ := h.inside p hp
  have hal' := (h.mapped _ hmem).2
  have : page = page' := by
    unfold InPage NODE_SIZE PAGE_SIZE at *
    omega
  exact hfresh (by rw [this]; exact hmem)

end Inv

/-! ### Every change keeps the invariant -/

section Change

variable [DecidableEq Tid] {v : View Tid} {t : Tid}

/-- If nobody is publishing after a role changed, nobody was, unless the changed thread was. -/
theorem quiet_of_update {r : Role} (ht : ∀ page, v.role t ≠ .published page)
    (h : ∀ t' page, Function.update v.role t r t' ≠ .published page) :
    ∀ t' page, v.role t' ≠ .published page := by
  intro t' page hc
  by_cases htt : t' = t
  · exact ht page (by rw [← htt]; exact hc)
  · exact h t' page (by rw [Function.update_of_ne htt]; exact hc)

/-- What a thread has in its hands after one thread's role changed. -/
theorem role_cases {r r' : Role} {t' : Tid} (h : Function.update v.role t r t' = r') :
    (t' = t ∧ r = r') ∨ (t' ≠ t ∧ v.role t' = r') := by
  by_cases htt : t' = t
  · subst htt
    rw [Function.update_self] at h
    exact Or.inl ⟨rfl, h⟩
  · rw [Function.update_of_ne htt] at h
    exact Or.inr ⟨htt, h⟩

/-- A role the thread did not get is that of another thread. -/
theorem other_role {r r' : Role} {t' : Tid} (h : Function.update v.role t r t' = r')
    (hne : r ≠ r') : t' ≠ t ∧ v.role t' = r' :=
  (role_cases h).resolve_left fun hc => hne hc.2

/-- Which page a thread has after one thread's role changed. -/
theorem page_cases {r : Role} {t' : Tid} {page : Nat}
    (h : (Function.update v.role t r t').page? = some page) :
    (t' = t ∧ r.page? = some page) ∨ (t' ≠ t ∧ (v.role t').page? = some page) := by
  rcases role_cases (rfl : Function.update v.role t r t' = _) with ⟨ht, hr⟩ | ⟨ht, hr⟩
  · exact Or.inl ⟨ht, by rw [hr]; exact h⟩
  · exact Or.inr ⟨ht, by rw [hr]; exact h⟩

/-- A thread without a page has no part in who has which. -/
theorem other_page {r : Role} {t' : Tid} {page : Nat}
    (h : (Function.update v.role t r t').page? = some page) (hnone : r.page? = none) :
    t' ≠ t ∧ (v.role t').page? = some page := by
  refine (page_cases h).resolve_left fun hc => ?_
  rw [hnone] at hc
  exact absurd hc.2 (by simp)

theorem inv_map (h : Inv v) {page : Nat} (hrole : v.role t = .none) (hne : page ≠ 0)
    (hal : page % PAGE_SIZE = 0) (hfresh : page ∉ v.pages) :
    Inv { v with
      pages := page :: v.pages
      role := Function.update v.role t (.holds page) } := by
  have hempty := h.fresh_empty hal hfresh
  have hcur : page ≠ v.currentPage := by
    rintro rfl
    rcases h.current with hm | ⟨h0, -⟩
    · exact hfresh hm
    · exact hne h0
  -- no other thread can have the page, since every page a thread has is mapped
  have hnew : ∀ t', (v.role t').page? ≠ some page := fun t' hc => hfresh (h.owned_mem t' page hc)
  have hgrow : ∀ q ∈ v.pages, q ∈ page :: v.pages := fun q hq => List.mem_cons_of_mem _ hq
  have hclaimed : ∀ t' a, Function.update v.role t (.holds page) t' = .claimed a →
      v.role t' = .claimed a := fun t' a hr => (other_role hr (by simp)).2
  have hpublished : ∀ t' q, Function.update v.role t (.holds page) t' = .published q →
      v.role t' = .published q := fun t' q hr => (other_role hr (by simp)).2
  refine {
    offset_le := h.offset_le
    mapped := fun q hq => ?_
    current := h.current.imp_left (hgrow _)
    owned_mem := fun t' q hq => ?_
    owned_inj := fun t₁ t₂ q h₁ h₂ => ?_
    owned_empty := fun t' q hq => ?_
    holds_ne := fun t' q hr => ?_
    inside := fun p hp => (h.inside p hp).imp fun q hq => ⟨hgrow q hq.1, hq.2⟩
    apart := h.apart
    frontier := fun hq => h.frontier (quiet_of_update (by simp [hrole]) hq)
    first := fun t' q hr => h.first t' q (hpublished t' q hr)
    claimed_le := fun t' a hr => h.claimed_le t' a (hclaimed t' a hr)
    claimed_mem := fun t' a hr => hgrow _ (h.claimed_mem t' a (hclaimed t' a hr))
    published_mem := fun t' q hr => hgrow _ (h.published_mem t' q (hpublished t' q hr))
    claimed_apart := fun t' a hr => h.claimed_apart t' a (hclaimed t' a hr)
    claimed_inj := fun t₁ t₂ a₁ a₂ h₁ h₂ =>
      h.claimed_inj t₁ t₂ a₁ a₂ (hclaimed t₁ a₁ h₁) (hclaimed t₂ a₂ h₂)
    exclusive := fun t₁ t₂ a q h₁ h₂ =>
      h.exclusive t₁ t₂ a q (hclaimed t₁ a h₁) (hpublished t₂ q h₂) }
  · rcases List.mem_cons.mp hq with rfl | hq
    · exact ⟨hne, hal⟩
    · exact h.mapped q hq
  · rcases page_cases hq with ⟨-, hq⟩ | ⟨-, hq⟩
    · rw [← Option.some.inj hq]
      exact List.mem_cons_self ..
    · exact hgrow q (h.owned_mem t' q hq)
  · rcases page_cases h₁ with ⟨ht₁, hq₁⟩ | ⟨-, hq₁⟩ <;>
      rcases page_cases h₂ with ⟨ht₂, hq₂⟩ | ⟨-, hq₂⟩
    · rw [ht₁, ht₂]
    · exact absurd (hq₂.trans hq₁.symm) (hnew t₂)
    · exact absurd (hq₁.trans hq₂.symm) (hnew t₁)
    · exact h.owned_inj t₁ t₂ q hq₁ hq₂
  · rcases page_cases hq with ⟨-, hq⟩ | ⟨-, hq⟩
    · rw [← Option.some.inj hq]
      exact hempty
    · exact h.owned_empty t' q hq
  · rcases role_cases hr with ⟨-, hq⟩ | ⟨-, hr⟩
    · rw [← Role.holds.inj hq]
      exact hcur
    · exact h.holds_ne t' q hr

theorem inv_unmap (h : Inv v) {page : Nat} (hrole : v.role t = .holds page) :
    Inv { v with
      pages := v.pages.filter (· ≠ page)
      role := Function.update v.role t .none } := by
  have hpage := Inv.holds_page hrole
  have hempty := h.owned_empty t page hpage
  have hcur := h.holds_ne t page hrole
  have hother : ∀ t', t' ≠ t → (v.role t').page? ≠ some page :=
    fun t' ht' hc => ht' (h.owned_inj t' t page hc hpage)
  have hkeep : ∀ q ∈ v.pages, q ≠ page → q ∈ v.pages.filter (· ≠ page) :=
    fun q hq hne => by simp [hq, hne]
  have hclaimed : ∀ t' a, Function.update v.role t .none t' = .claimed a →
      v.role t' = .claimed a := fun t' a hr => (other_role hr (by simp)).2
  have hpublished : ∀ t' q, Function.update v.role t .none t' = .published q →
      v.role t' = .published q := fun t' q hr => (other_role hr (by simp)).2
  refine {
    offset_le := h.offset_le
    mapped := fun q hq => h.mapped q (List.mem_of_mem_filter hq)
    current := h.current.imp_left fun hm => hkeep _ hm hcur.symm
    owned_mem := fun t' q hq => ?_
    owned_inj := fun t₁ t₂ q h₁ h₂ =>
      h.owned_inj t₁ t₂ q (other_page h₁ rfl).2 (other_page h₂ rfl).2
    owned_empty := fun t' q hq => h.owned_empty t' q (other_page hq rfl).2
    holds_ne := fun t' q hr => h.holds_ne t' q (other_role hr (by simp)).2
    inside := fun p hp => ?_
    apart := h.apart
    frontier := fun hq => h.frontier (quiet_of_update (by simp [hrole]) hq)
    first := fun t' q hr => h.first t' q (hpublished t' q hr)
    claimed_le := fun t' a hr => h.claimed_le t' a (hclaimed t' a hr)
    claimed_mem := fun t' a hr => hkeep _ (h.claimed_mem t' a (hclaimed t' a hr)) hcur.symm
    published_mem := fun t' q hr => hkeep _ (h.published_mem t' q (hpublished t' q hr)) hcur.symm
    claimed_apart := fun t' a hr => h.claimed_apart t' a (hclaimed t' a hr)
    claimed_inj := fun t₁ t₂ a₁ a₂ h₁ h₂ =>
      h.claimed_inj t₁ t₂ a₁ a₂ (hclaimed t₁ a₁ h₁) (hclaimed t₂ a₂ h₂)
    exclusive := fun t₁ t₂ a q h₁ h₂ =>
      h.exclusive t₁ t₂ a q (hclaimed t₁ a h₁) (hpublished t₂ q h₂) }
  · obtain ⟨ht', hq'⟩ := other_page hq rfl
    refine hkeep q (h.owned_mem t' q hq') fun hc => hother t' ht' ?_
    rw [← hc]
    exact hq'
  · -- the page a node lies in is not the one that goes
    obtain ⟨page', hmem, hin⟩ := h.inside p hp
    refine ⟨page', hkeep page' hmem ?_, hin⟩
    rintro rfl
    exact hempty p hp (inPage_of_inside hin)

theorem inv_publish (h : Inv v) {page : Nat} (hrole : v.role t = .holds page)
    (hquiet : ∀ t' aligned, v.role t' ≠ .claimed aligned) :
    Inv { v with
      currentPage := page
      role := Function.update v.role t (.published page) } := by
  have hpage := Inv.holds_page hrole
  have hempty := h.owned_empty t page hpage
  have hmem := h.owned_mem t page hpage
  have hother : ∀ t', t' ≠ t → (v.role t').page? ≠ some page :=
    fun t' ht' hc => ht' (h.owned_inj t' t page hc hpage)
  have hnone : ∀ t' a, Function.update v.role t (.published page) t' ≠ .claimed a :=
    fun t' a hr => hquiet t' a (other_role hr (by simp)).2
  refine {
    offset_le := h.offset_le
    mapped := h.mapped
    current := Or.inl hmem
    owned_mem := fun t' q hq => ?_
    owned_inj := fun t₁ t₂ q h₁ h₂ => ?_
    owned_empty := fun t' q hq => ?_
    holds_ne := fun t' q hr => ?_
    inside := h.inside
    apart := h.apart
    frontier := fun hq => absurd (Function.update_self ..) (hq t page)
    first := fun t' q _ p hp hin => absurd hin (hempty p hp)
    claimed_le := fun t' a hr => absurd hr (hnone t' a)
    claimed_mem := fun t' a hr => absurd hr (hnone t' a)
    published_mem := fun t' q _ => hmem
    claimed_apart := fun t' a hr => absurd hr (hnone t' a)
    claimed_inj := fun t₁ _ a₁ _ h₁ => absurd h₁ (hnone t₁ a₁)
    exclusive := fun t₁ _ a _ h₁ => absurd h₁ (hnone t₁ a) }
  · rcases page_cases hq with ⟨-, hq⟩ | ⟨-, hq⟩
    · rw [← Option.some.inj hq]
      exact hmem
    · exact h.owned_mem t' q hq
  · rcases page_cases h₁ with ⟨ht₁, hq₁⟩ | ⟨ht₁, hq₁⟩ <;>
      rcases page_cases h₂ with ⟨ht₂, hq₂⟩ | ⟨ht₂, hq₂⟩
    · rw [ht₁, ht₂]
    · exact absurd (hq₂.trans hq₁.symm) (hother t₂ ht₂)
    · exact absurd (hq₁.trans hq₂.symm) (hother t₁ ht₁)
    · exact h.owned_inj t₁ t₂ q hq₁ hq₂
  · rcases page_cases hq with ⟨-, hq⟩ | ⟨-, hq⟩
    · rw [← Option.some.inj hq]
      exact hempty
    · exact h.owned_empty t' q hq
  · obtain ⟨ht', hr'⟩ := other_role hr (by simp)
    rintro rfl
    exact hother t' ht' (Inv.holds_page hr')

theorem inv_reset (h : Inv v) {page : Nat} (hrole : v.role t = .published page) :
    Inv { v with
      offset := NODE_SIZE
      returned := page :: v.returned
      role := Function.update v.role t .none } := by
  have hpage := Inv.published_page hrole
  have hmem := h.owned_mem t page hpage
  have hal := (h.mapped page hmem).2
  have hin : page ≤ page ∧ page + NODE_SIZE ≤ page + PAGE_SIZE :=
    ⟨Nat.le_refl _, Nat.add_le_add_left (by decide) _⟩
  have hapart := h.apart_of_empty hmem (h.owned_empty t page hpage) hin
  -- the new node is the first of its page, so it lies in a page only if it starts it
  have hfirst : ∀ page', page' % PAGE_SIZE = 0 → InPage page page' → page = page' :=
    fun page' hal' hin' => eq_of_inPage hal hal' hin'
  have hother : ∀ t', t' ≠ t → (v.role t').page? ≠ some page :=
    fun t' ht' hc => ht' (h.owned_inj t' t page hc hpage)
  have hcurrent := h.published_mem t page hrole
  have hnone : ∀ t' a, Function.update v.role t .none t' ≠ .claimed a :=
    fun t' a hr => h.exclusive t' t a page (other_role hr (by simp)).2 hrole
  -- so every node of the current page is its first
  have hstart : ∀ p ∈ page :: v.returned, InPage p v.currentPage → p = v.currentPage := by
    intro p hp hin'
    rcases List.mem_cons.mp hp with rfl | hp
    · exact hfirst _ h.current_aligned hin'
    · exact h.first t page hrole p hp hin'
  refine {
    offset_le := (by decide : NODE_SIZE ≤ PAGE_SIZE)
    mapped := h.mapped
    current := Or.inl hcurrent
    owned_mem := fun t' q hq => h.owned_mem t' q (other_page hq rfl).2
    owned_inj := fun t₁ t₂ q h₁ h₂ =>
      h.owned_inj t₁ t₂ q (other_page h₁ rfl).2 (other_page h₂ rfl).2
    owned_empty := fun t' q hq p hp hin' => ?_
    holds_ne := fun t' q hr => h.holds_ne t' q (other_role hr (by simp)).2
    inside := fun p hp => ?_
    apart := List.pairwise_cons.mpr ⟨fun p hp => (hapart p hp).symm, h.apart⟩
    frontier := fun _ p hp hin' => Nat.le_of_eq (by rw [hstart p hp hin'])
    first := fun t' q _ => hstart
    claimed_le := fun t' a hr => absurd hr (hnone t' a)
    claimed_mem := fun t' a hr => absurd hr (hnone t' a)
    published_mem := fun _ _ _ => hcurrent
    claimed_apart := fun t' a hr => absurd hr (hnone t' a)
    claimed_inj := fun t₁ _ a₁ _ h₁ => absurd h₁ (hnone t₁ a₁)
    exclusive := fun t₁ _ a _ h₁ => absurd h₁ (hnone t₁ a) }
  · obtain ⟨ht', hq'⟩ := other_page hq rfl
    rcases List.mem_cons.mp hp with rfl | hp
    · have heq := hfirst q (h.mapped q (h.owned_mem t' q hq')).2 hin'
      rw [← heq] at hq'
      exact hother t' ht' hq'
    · exact h.owned_empty t' q hq' p hp hin'
  · rcases List.mem_cons.mp hp with rfl | hp
    · exact ⟨p, hmem, hin⟩
    · exact h.inside p hp

theorem inv_claim (h : Inv v) {aligned : Nat}
    (hle : v.offset ≤ aligned) (hfits : aligned + NODE_SIZE ≤ PAGE_SIZE)
    (hquiet : ∀ t' page, v.role t' ≠ .published page) :
    Inv { v with
      offset := aligned + NODE_SIZE
      role := Function.update v.role t (.claimed aligned) } := by
  have hcur : v.currentPage ∈ v.pages := by
    rcases h.current with hm | ⟨-, hfull⟩
    · exact hm
    · unfold NODE_SIZE at hfits
      omega
  have hapart := h.apart_of_above hquiet hcur hle hfits
  have hnone : ∀ t' q, Function.update v.role t (.claimed aligned) t' ≠ .published q :=
    fun t' q hr => hquiet t' q (other_role hr (by simp)).2
  -- what others have claimed ends below the old offset
  have hbelow : ∀ t' a, v.role t' = .claimed a → a + NODE_SIZE ≤ aligned :=
    fun t' a hr => Nat.le_trans (h.claimed_le t' a hr) hle
  refine {
    offset_le := hfits
    mapped := h.mapped
    current := Or.inl hcur
    owned_mem := fun t' q hq => h.owned_mem t' q (other_page hq rfl).2
    owned_inj := fun t₁ t₂ q h₁ h₂ =>
      h.owned_inj t₁ t₂ q (other_page h₁ rfl).2 (other_page h₂ rfl).2
    owned_empty := fun t' q hq => h.owned_empty t' q (other_page hq rfl).2
    holds_ne := fun t' q hr => h.holds_ne t' q (other_role hr (by simp)).2
    inside := h.inside
    apart := h.apart
    frontier := fun _ p hp hin => ?_
    first := fun t' q hr => absurd hr (hnone t' q)
    claimed_le := fun t' a hr => ?_
    claimed_mem := fun _ _ _ => hcur
    published_mem := fun t' q hr => absurd hr (hnone t' q)
    claimed_apart := fun t' a hr => ?_
    claimed_inj := fun t₁ t₂ a₁ a₂ h₁ h₂ hne => ?_
    exclusive := fun _ t₂ _ q _ => hnone t₂ q }
  · have hfront := h.frontier hquiet p hp hin
    show p + NODE_SIZE ≤ v.currentPage + (aligned + NODE_SIZE)
    omega
  · show a + NODE_SIZE ≤ aligned + NODE_SIZE
    rcases role_cases hr with ⟨-, hc⟩ | ⟨-, hr⟩
    · rw [Role.claimed.inj hc]
    · exact Nat.le_trans (hbelow t' a hr) (Nat.le_add_right _ _)
  · rcases role_cases hr with ⟨-, hc⟩ | ⟨-, hr⟩
    · rw [← Role.claimed.inj hc]
      exact hapart
    · exact h.claimed_apart t' a hr
  · rcases role_cases h₁ with ⟨ht₁, hc₁⟩ | ⟨-, hr₁⟩ <;>
      rcases role_cases h₂ with ⟨ht₂, hc₂⟩ | ⟨-, hr₂⟩
    · exact absurd (ht₁.trans ht₂.symm) hne
    · rw [← Role.claimed.inj hc₁]
      exact Or.inr (hbelow t₂ a₂ hr₂)
    · rw [← Role.claimed.inj hc₂]
      exact Or.inl (hbelow t₁ a₁ hr₁)
    · exact h.claimed_inj t₁ t₂ a₁ a₂ hr₁ hr₂ hne

theorem inv_take (h : Inv v) {aligned : Nat} (hrole : v.role t = .claimed aligned) :
    Inv { v with
      returned := (v.currentPage + aligned) :: v.returned
      role := Function.update v.role t .none } := by
  have hmem := h.claimed_mem t aligned hrole
  have hle := h.claimed_le t aligned hrole
  have hoff := h.offset_le
  have hin : v.currentPage ≤ v.currentPage + aligned ∧
      v.currentPage + aligned + NODE_SIZE ≤ v.currentPage + PAGE_SIZE := by omega
  have hapart := h.claimed_apart t aligned hrole
  -- nobody else has the current page: not a holder, and nobody is publishing
  have hcur : ∀ t', (v.role t').page? ≠ some v.currentPage := by
    intro t' hc
    cases hr : v.role t' with
    | holds page =>
        rw [hr] at hc
        exact h.holds_ne t' page hr (Option.some.inj hc)
    | published page => exact h.exclusive t t' aligned page hrole hr
    | none => rw [hr] at hc; simp [Role.page?] at hc
    | claimed a => rw [hr] at hc; simp [Role.page?] at hc
  have hown : ∀ t' page, (v.role t').page? = some page →
      ¬ InPage (v.currentPage + aligned) page := by
    intro t' page hp hpin
    have hal := (h.mapped page (h.owned_mem t' page hp)).2
    have hal' := h.current_aligned
    have heq : page = v.currentPage := by
      unfold InPage NODE_SIZE PAGE_SIZE at *
      omega
    exact hcur t' (by rw [hp, heq])
  have hclaimed : ∀ t' a, Function.update v.role t .none t' = .claimed a →
      t' ≠ t ∧ v.role t' = .claimed a := fun t' a hr => other_role hr (by simp)
  have hnone : ∀ t' q, Function.update v.role t .none t' ≠ .published q :=
    fun t' q hr => h.exclusive t t' aligned q hrole (other_role hr (by simp)).2
  refine {
    offset_le := h.offset_le
    mapped := h.mapped
    current := h.current
    owned_mem := fun t' q hq => h.owned_mem t' q (other_page hq rfl).2
    owned_inj := fun t₁ t₂ q h₁ h₂ =>
      h.owned_inj t₁ t₂ q (other_page h₁ rfl).2 (other_page h₂ rfl).2
    owned_empty := fun t' q hq p hp => ?_
    holds_ne := fun t' q hr => h.holds_ne t' q (other_role hr (by simp)).2
    inside := fun p hp => ?_
    apart := List.pairwise_cons.mpr ⟨fun p hp => (hapart p hp).symm, h.apart⟩
    frontier := fun hq p hp hpin => ?_
    first := fun t' q hr => absurd hr (hnone t' q)
    claimed_le := fun t' a hr => h.claimed_le t' a (hclaimed t' a hr).2
    claimed_mem := fun _ _ _ => hmem
    published_mem := fun _ _ _ => hmem
    claimed_apart := fun t' a hr p hp => ?_
    claimed_inj := fun t₁ t₂ a₁ a₂ h₁ h₂ =>
      h.claimed_inj t₁ t₂ a₁ a₂ (hclaimed t₁ a₁ h₁).2 (hclaimed t₂ a₂ h₂).2
    exclusive := fun _ t₂ _ q _ => hnone t₂ q }
  · obtain ⟨-, hq'⟩ := other_page hq rfl
    rcases List.mem_cons.mp hp with rfl | hp
    · exact hown t' q hq'
    · exact h.owned_empty t' q hq' p hp
  · rcases List.mem_cons.mp hp with rfl | hp
    · exact ⟨v.currentPage, hmem, hin⟩
    · exact h.inside p hp
  · rcases List.mem_cons.mp hp with rfl | hp
    · show v.currentPage + aligned + NODE_SIZE ≤ v.currentPage + v.offset
      omega
    · exact h.frontier (quiet_of_update (by simp [hrole]) hq) p hp hpin
  · obtain ⟨ht', hr'⟩ := hclaimed t' a hr
    rcases List.mem_cons.mp hp with rfl | hp
    · have hap := h.claimed_inj t t' aligned a hrole hr' ht'.symm
      show Apart (v.currentPage + aligned) (v.currentPage + a)
      unfold Apart at hap ⊢
      omega
    · exact h.claimed_apart t' a hr' p hp

theorem Change.inv {v' : View Tid} (h : Inv v) (hc : Change v v') : Inv v' := by
  cases hc with
  | same => exact h
  | map t page hrole hne hal hfresh => exact inv_map h hrole hne hal hfresh
  | unmap t page hrole => exact inv_unmap h hrole
  | publish t page hrole hquiet => exact inv_publish h hrole hquiet
  | reset t page hrole => exact inv_reset h hrole
  | claim t aligned _ hle hfits hquiet => exact inv_claim h hle hfits hquiet
  | take t aligned hrole => exact inv_take h hrole

end Change

/-! ### Every undisturbed step is one of the changes -/

section Step

variable [DecidableEq Tid] {s s' : State Tid} {t : Tid}

/-- A thread about to claim an offset has checked that the node fits. -/
def Fits (s : State Tid) : Prop :=
  ∀ t offset, s.pc t = .casOffset offset → alignUp offset NODE_ALIGN + NODE_SIZE ≤ PAGE_SIZE

theorem le_alignUp {offset : Nat} (h : offset ≤ PAGE_SIZE) :
    offset ≤ alignUp offset NODE_ALIGN :=
  (alignUp_spec (k := 3) (Nat.le_trans (Nat.add_le_add_right h _) (by decide))).2.1

theorem role_update (s : State Tid) (t : Tid) (pc : Pc) :
    (fun t' => (Function.update s.pc t pc t').role)
      = Function.update (fun t' => (s.pc t').role) t pc.role := by
  funext t'
  by_cases ht : t' = t
  · rw [ht, Function.update_self, Function.update_self]
  · rw [Function.update_of_ne ht, Function.update_of_ne ht]

theorem view_setPc (s : State Tid) (t : Tid) (pc : Pc) :
    view (setPc s t pc) = { view s with role := Function.update (view s).role t pc.role } := by
  simp only [view, setPc, role_update]

/-- A step that changes what a thread knows but not what it has leaves the view alone. -/
theorem view_setPc_same {pc : Pc} (h : pc.role = (s.pc t).role) :
    view (setPc s t pc) = view s := by
  rw [view_setPc, h]
  show { view s with role := Function.update (view s).role t ((view s).role t) } = view s
  rw [Function.update_eq_self]

theorem view_ret (s : State Tid) (t : Tid) (p : Nat) :
    view (ret s t p) = { view s with
      returned := p :: s.returned
      role := Function.update (view s).role t .none } := by
  simp only [view, ret, role_update]
  rfl

theorem stepMove_change (h : stepMove s t = some s') : Change (view s) (view s') := by
  unfold stepMove at h
  cases hpc : s.pc t <;> simp only [hpc] at h
  case loadOffset =>
    split at h
    all_goals
      obtain rfl := Option.some.inj h
      rw [view_setPc_same (by rw [hpc]; rfl)]
      exact .same
  case loadPage aligned =>
    obtain rfl := Option.some.inj h
    rw [view_ret]
    exact .take t aligned (by simp [view, hpc, Pc.role])
  case loadCurrent page =>
    obtain rfl := Option.some.inj h
    rw [view_setPc_same (by rw [hpc]; rfl)]
    exact .same
  case storeOffset page =>
    obtain rfl := Option.some.inj h
    rw [view_ret]
    exact .reset t page (by simp [view, hpc, Pc.role])
  case unmapPage page =>
    obtain rfl := Option.some.inj h
    rw [view_setPc]
    exact .unmap t page (by simp [view, hpc, Pc.role])
  all_goals simp at h

theorem stepCas_change {spurious : Bool} (hoff : s.offset ≤ PAGE_SIZE) (hfits : Fits s)
    (hg : Undisturbed s (.cas t spurious)) (h : stepCas s t spurious = some s') :
    Change (view s) (view s') := by
  unfold stepCas at h
  cases hpc : s.pc t <;> simp only [hpc] at h
  case casOffset offset =>
    split at h
    · rename_i hok
      obtain ⟨rfl, rfl⟩ := hok
      obtain rfl := Option.some.inj h
      rw [view_setPc]
      refine .claim t _ (by simp [view, hpc, Pc.role]) (le_alignUp hoff)
        (hfits t s.offset hpc) ?_
      -- the step is undisturbed, so nobody stands between publishing and storing
      intro t' page hc
      simp only [Undisturbed, hpc] at hg
      refine hg trivial t' page ?_
      cases hpc' : s.pc t' <;> simp [view, hpc', Pc.role] at hc
      rw [hc]
    · obtain rfl := Option.some.inj h
      rw [view_setPc_same (by rw [hpc]; rfl)]
      exact .same
  case casPage current page =>
    split at h
    · rename_i hok
      obtain ⟨rfl, rfl⟩ := hok
      obtain rfl := Option.some.inj h
      rw [view_setPc]
      refine .publish t page (by simp [view, hpc, Pc.role]) ?_
      intro t' aligned hc
      simp only [Undisturbed, hpc] at hg
      refine hg trivial t' aligned ?_
      cases hpc' : s.pc t' <;> simp [view, hpc', Pc.role] at hc
      rw [hc]
    · obtain rfl := Option.some.inj h
      rw [view_setPc_same (by rw [hpc]; rfl)]
      exact .same
  all_goals simp at h

theorem stepMap_change {page : Option Nat} (h : stepMap s t page = some s') :
    Change (view s) (view s') := by
  unfold stepMap at h
  split at h
  · rename_i hpc
    obtain rfl := Option.some.inj h
    rw [view_setPc_same (by rw [hpc]; rfl)]
    exact .same
  · rename_i newPage hpc
    split at h
    · rename_i hfresh
      obtain rfl := Option.some.inj h
      rw [view_setPc]
      obtain ⟨hne, hal, -, hnew⟩ := hfresh
      exact .map t newPage (by simp [view, hpc, Pc.role]) hne hal hnew
    · simp at h
  · simp at h

theorem step_change {l : Label Tid} (hoff : s.offset ≤ PAGE_SIZE) (hfits : Fits s)
    (hg : Undisturbed s l) (h : step s l = some s') : Change (view s) (view s') := by
  cases l with
  | call t =>
      simp only [step] at h
      split at h
      · rename_i hpc
        obtain rfl := Option.some.inj h
        rw [view_setPc_same (by rw [hpc]; rfl)]
        exact .same
      · simp at h
  | move t => exact stepMove_change h
  | cas t spurious => exact stepCas_change hoff hfits hg h
  | map t page => exact stepMap_change h

theorem Fits.setPc (h : Fits s) {p : Pc}
    (hpc : ∀ offset, p = .casOffset offset →
      alignUp offset NODE_ALIGN + NODE_SIZE ≤ PAGE_SIZE) : Fits (setPc s t p) := by
  intro t' offset ht'
  by_cases ht : t' = t
  · rw [ht] at ht'
    exact hpc offset (by simpa [Metadata.setPc] using ht')
  · refine h t' offset ?_
    simpa [Metadata.setPc, Function.update_of_ne ht] using ht'

theorem step_fits {l : Label Tid} (h : Fits s) (hstep : step s l = some s') : Fits s' := by
  cases l with
  | call t =>
      simp only [step] at hstep
      split at hstep
      · obtain rfl := Option.some.inj hstep
        exact h.setPc (by simp)
      · simp at hstep
  | move t =>
      simp only [step, stepMove] at hstep
      cases hpc : s.pc t <;> simp only [hpc] at hstep
      case loadOffset =>
        split at hstep
        · rename_i hle
          obtain rfl := Option.some.inj hstep
          refine h.setPc fun offset ho => ?_
          obtain rfl := Pc.casOffset.inj ho
          exact hle
        · obtain rfl := Option.some.inj hstep
          exact h.setPc (by simp)
      case loadPage aligned =>
        obtain rfl := Option.some.inj hstep
        exact h.setPc (p := .idle) (by simp)
      case loadCurrent page =>
        obtain rfl := Option.some.inj hstep
        exact h.setPc (by simp)
      case storeOffset page =>
        obtain rfl := Option.some.inj hstep
        exact h.setPc (p := .idle) (by simp)
      case unmapPage page =>
        obtain rfl := Option.some.inj hstep
        exact h.setPc (s := { s with pages := _ }) (by simp)
      all_goals simp at hstep
  | cas t spurious =>
      simp only [step, stepCas] at hstep
      cases hpc : s.pc t <;> simp only [hpc] at hstep
      case casOffset offset =>
        split at hstep <;> obtain rfl := Option.some.inj hstep
        · exact h.setPc (s := { s with offset := _ }) (by simp)
        · exact h.setPc (by simp)
      case casPage current page =>
        split at hstep <;> obtain rfl := Option.some.inj hstep
        · exact h.setPc (s := { s with currentPage := _ }) (by simp)
        · exact h.setPc (by simp)
      all_goals simp at hstep
  | map t page =>
      simp only [step, stepMap] at hstep
      split at hstep
      · obtain rfl := Option.some.inj hstep
        exact h.setPc (by simp)
      · split at hstep
        · obtain rfl := Option.some.inj hstep
          exact h.setPc (s := { s with pages := _ }) (by simp)
        · simp at hstep
      · simp at hstep

/-- Both invariants hold along every undisturbed run. -/
theorem reaches_inv (hs : (machine Tid).ReachesUnder Undisturbed s) : Inv (view s) ∧ Fits s := by
  refine Machine.ReachesUnder.invariant (P := fun s => Inv (view s) ∧ Fits s)
    ⟨inv_start, by intro t offset h; simp [machine, start] at h⟩ ?_ hs
  rintro s l s' ⟨hinv, hfits⟩ hg hstep
  exact ⟨(step_change hinv.offset_le hfits hg hstep).inv hinv, step_fits hfits hstep⟩

/--
**Along every undisturbed run a metadata node is handed out at most once.**  The
nodes returned by all the calls of all the threads are pairwise apart, and each
lies inside one mapped metadata page.
-/
theorem allocNode_exclusive (hs : (machine Tid).ReachesUnder Undisturbed s) :
    NodesExclusive s := by
  obtain ⟨hinv, -⟩ := reaches_inv hs
  exact ⟨hinv.apart, hinv.inside⟩

end Step

/-! ### A run of two threads -/

def Pc.storing : Pc → Bool
  | .storeOffset _ => true
  | _ => false

def Pc.loading : Pc → Bool
  | .loadPage _ => true
  | _ => false

/-- The decidable test for `Undisturbed`, where there are two threads. -/
def undisturbedCheck (s : State Bool) : Label Bool → Bool
  | .cas t false =>
      match s.pc t with
      | .casOffset offset =>
          s.offset != offset || (!(s.pc false).storing && !(s.pc true).storing)
      | .casPage current _ =>
          s.currentPage != current || (!(s.pc false).loading && !(s.pc true).loading)
      | _ => true
  | _ => true

theorem undisturbed_of_check (s : State Bool) (l : Label Bool) (h : undisturbedCheck s l = true) :
    Undisturbed s l := by
  cases l with
  | call t => exact trivial
  | move t => exact trivial
  | map t page => exact trivial
  | cas t spurious =>
      cases spurious with
      | true => exact trivial
      | false =>
          cases hpc : s.pc t with
          | casOffset offset =>
              simp only [undisturbedCheck, hpc] at h
              simp only [Undisturbed, hpc]
              intro heq t' page hstore
              cases t' <;> simp [heq, hstore, Pc.storing] at h
          | casPage current newPage =>
              simp only [undisturbedCheck, hpc] at h
              simp only [Undisturbed, hpc]
              intro heq t' aligned hload
              cases t' <;> simp [heq, hload, Pc.loading] at h
          | idle => simp only [Undisturbed, hpc]
          | loadOffset => simp only [Undisturbed, hpc]
          | loadPage aligned => simp only [Undisturbed, hpc]
          | mapPage => simp only [Undisturbed, hpc]
          | loadCurrent newPage => simp only [Undisturbed, hpc]
          | storeOffset newPage => simp only [Undisturbed, hpc]
          | unmapPage newPage => simp only [Undisturbed, hpc]

/-- A call that finds room for its node. -/
def fits (t : Bool) : List (Label Bool) := [.call t, .move t, .cas t false, .move t]

/-- Both threads map a first page and one of them loses it again; they take turns and meet at an
offset, until a page is full and a second one is published. -/
def twoPages : List (Label Bool) := List.flatten [
  [.call false, .call true, .move false, .move true, .map false (some 4096), .map true (some 8192),
    .move false, .move true, .cas false false, .cas true false, .move false, .move true,
    .move true, .cas true false, .call false, .move false, .move true, .cas false false,
    .move false],
  fits false, fits true,
  [.call false, .call true, .move false, .move true, .cas true false, .cas false false,
    .move true, .move false, .cas false false, .move false],
  [.call true, .move true, .map true (some 8192), .move true, .cas true false, .move true],
  fits false]

/-- Nine nodes on two pages, and no pair of accesses is cut in two. -/
theorem allocNode_exclusive_pages :
    ∃ s, (machine Bool).exec start twoPages = some s ∧
      s.returned = [8720, 8192, 7264, 6736, 6208, 5680, 5152, 4624, 4096] ∧
      s.pages = [8192, 4096] ∧ NodesExclusive s := by
  have hrun : ((machine Bool).exec start twoPages).map (fun s => (s.returned, s.pages))
      = some ([8720, 8192, 7264, 6736, 6208, 5680, 5152, 4624, 4096], [8192, 4096]) := by
    decide +kernel
  have hcheck : ((machine Bool).trace undisturbedCheck start twoPages).all id = true := by
    decide +kernel
  obtain ⟨s, hs, hvals⟩ := Option.map_eq_some_iff.mp hrun
  obtain ⟨hreturned, hpages⟩ := Prod.mk.inj hvals
  have hunder : (machine Bool).ReachesUnder Undisturbed s :=
    Machine.exec_reachesUnder undisturbed_of_check twoPages start s .init hs hcheck
  exact ⟨s, hs, hreturned, hpages, allocNode_exclusive hunder⟩

/--
Two threads suffice to hand out one node twice.  Thread 0 publishes its page and
is stopped before it stores the offset; thread 1 publishes another page, stores
the offset and takes the second node of it; thread 0 then stores the offset again,
and the next call is given that second node once more.
-/
theorem allocNode_race :
    ∃ s, (machine Nat).Reaches s ∧ s.returned = [8720, 4096, 8720, 8192] ∧
      ¬ NodesExclusive s := by
  refine ⟨_, ⟨[.call 0, .move 0, .map 0 (some 4096), .move 0, .cas 0 false,
    .call 1, .move 1, .map 1 (some 8192), .move 1, .cas 1 false, .move 1,
    .call 1, .move 1, .cas 1 false, .move 1, .move 0,
    .call 1, .move 1, .cas 1 false, .move 1], rfl⟩, rfl, ?_⟩
  intro h
  have hapart : [8720, 4096, 8720, 8192].Pairwise Apart := h.1
  simp [Apart, NODE_SIZE] at hapart

end Aethalloc.Metadata
