/-
Things kept in bins, each in one place at most.

A family of lists, one for each bin, is exclusive when no element is in two bins
or twice in one.  Code that only ever moves things between bins keeps it so, and
the moves are few: swap the contents of two bins, put something new into a bin,
take something out, carry one element over.  The bins may be infinitely many.
-/
import Mathlib.Data.List.Nodup
import Mathlib.Logic.Equiv.Basic

namespace Lib

variable {π α : Type*}

/-- No element is in two bins, or twice in one. -/
structure Exclusive (C : π → List α) : Prop where
  nodup : ∀ p, (C p).Nodup
  unique : ∀ p q x, x ∈ C p → x ∈ C q → p = q

/-- The element is in some bin of the kind. -/
def Held {κ : Type*} (kind : π → κ) (C : π → List α) (x : α) (c : κ) : Prop :=
  ∃ p, kind p = c ∧ x ∈ C p

namespace Exclusive

/-- Only what is in each bin counts, not its order. -/
theorem perm {C C' : π → List α} (h : Exclusive C) (hp : ∀ r, (C r).Perm (C' r)) :
    Exclusive C' where
  nodup r := (hp r).nodup_iff.mp (h.nodup r)
  unique r s x hr hs := h.unique r s x ((hp r).mem_iff.mpr hr) ((hp s).mem_iff.mpr hs)

variable [DecidableEq π] {C : π → List α} {p q : π} {x : α}

/-- Swapping the contents of two bins. -/
theorem swap (h : Exclusive C) (p q : π) :
    Exclusive (Function.update (Function.update C p (C q)) q (C p)) := by
  have hcomp : Function.update (Function.update C p (C q)) q (C p)
      = fun r => C (Equiv.swap p q r) := by
    funext r
    by_cases hq : r = q
    · subst hq
      rw [Function.update_self, Equiv.swap_apply_right]
    · by_cases hp : r = p
      · subst hp
        rw [Function.update_of_ne hq, Function.update_self, Equiv.swap_apply_left]
      · rw [Function.update_of_ne hq, Function.update_of_ne hp,
          Equiv.swap_apply_of_ne_of_ne hp hq]
  rw [hcomp]
  exact ⟨fun r => h.nodup _, fun r s x hr hs =>
    (Equiv.swap p q).injective (h.unique _ _ x hr hs)⟩

/-- New elements put into a bin. -/
theorem put {l l' : List α} (h : Exclusive C) (hl : l.Nodup) (hnew : ∀ r, ∀ x ∈ l, x ∉ C r)
    (hp : l'.Perm (l ++ C p)) : Exclusive (Function.update C p l') where
  nodup r := by
    by_cases hr : r = p
    · subst hr
      rw [Function.update_self, hp.nodup_iff]
      exact hl.append (h.nodup r) fun x hx hc => hnew r x hx hc
    · rw [Function.update_of_ne hr]
      exact h.nodup r
  unique r s x hr hs := by
    -- an element of a bin is new, and then in the bin `p`, or was there before
    have hcases : ∀ r, x ∈ Function.update C p l' r → (r = p ∧ x ∈ l) ∨ x ∈ C r := by
      intro r hr
      by_cases hrp : r = p
      · subst hrp
        rw [Function.update_self] at hr
        rcases List.mem_append.mp (hp.mem_iff.mp hr) with hx | hx
        · exact Or.inl ⟨rfl, hx⟩
        · exact Or.inr hx
      · rw [Function.update_of_ne hrp] at hr
        exact Or.inr hr
    rcases hcases r hr with ⟨hrp, hx⟩ | hx <;> rcases hcases s hs with ⟨hsp, hx'⟩ | hx'
    · rw [hrp, hsp]
    · exact absurd hx' (hnew s x hx)
    · exact absurd hx (hnew r x hx')
    · exact h.unique r s x hx hx'

/-- Elements taken out of their bin are then in none. -/
theorem takes {l l' : List α} (h : Exclusive C) (hp : (C p).Perm (l ++ l')) :
    Exclusive (Function.update C p l') ∧ ∀ r, ∀ x ∈ l, x ∉ Function.update C p l' r := by
  have hsub : ∀ r y, y ∈ Function.update C p l' r → y ∈ C r := by
    intro r y hy
    by_cases hr : r = p
    · subst hr
      rw [Function.update_self] at hy
      exact hp.mem_iff.mpr (List.mem_append_right l hy)
    · rw [Function.update_of_ne hr] at hy
      exact hy
  have hnd : (l ++ l').Nodup := hp.nodup_iff.mp (h.nodup p)
  refine ⟨⟨fun r => ?_, fun r s y hr hs => h.unique r s y (hsub r y hr) (hsub s y hs)⟩,
    fun r x hx hr => ?_⟩
  · by_cases hr : r = p
    · subst hr
      rw [Function.update_self]
      exact hnd.of_append_right
    · rw [Function.update_of_ne hr]
      exact h.nodup r
  · have hrp : r = p := h.unique r p x (hsub r x hr)
      (hp.mem_iff.mpr (List.mem_append_left l' hx))
    subst hrp
    rw [Function.update_self] at hr
    exact List.disjoint_of_nodup_append hnd hx hr

/-- An element taken out of its bin is then in none. -/
theorem take {l' : List α} (h : Exclusive C) (hp : (C p).Perm (x :: l')) :
    Exclusive (Function.update C p l') ∧ ∀ r, x ∉ Function.update C p l' r := by
  obtain ⟨hex, hgone⟩ := h.takes (l := [x]) hp
  exact ⟨hex, fun r => hgone r x (List.mem_singleton_self x)⟩

/-- Elements carried over to another bin. -/
theorem transfer {l l₁ l₂ : List α} (h : Exclusive C) (hpq : p ≠ q) (hp : (C p).Perm (l ++ l₁))
    (hq : l₂.Perm (l ++ C q)) : Exclusive (Function.update (Function.update C p l₁) q l₂) := by
  obtain ⟨hex, hgone⟩ := h.takes hp
  refine hex.put (hp.nodup_iff.mp (h.nodup p)).of_append_left hgone ?_
  rw [Function.update_of_ne hpq.symm]
  exact hq

/-- One element carried over. -/
theorem carry {l₁ l₂ : List α} (h : Exclusive C) (hpq : p ≠ q) (hp : (C p).Perm (x :: l₁))
    (hq : l₂.Perm (x :: C q)) : Exclusive (Function.update (Function.update C p l₁) q l₂) :=
  h.transfer (l := [x]) hpq hp hq

end Exclusive

/-- What holds of every element for the kind of its bin survives a swap of two bins of a kind. -/
theorem forall_swap [DecidableEq π] {κ : Type*} {kind : π → κ} {C : π → List α} {p q : π}
    {P : α → κ → Prop} (hpq : kind p = kind q) (h : ∀ r, ∀ x ∈ C r, P x (kind r)) :
    ∀ r, ∀ x ∈ Function.update (Function.update C p (C q)) q (C p) r, P x (kind r) := by
  intro r x hx
  by_cases hrq : r = q
  · subst hrq
    rw [Function.update_self] at hx
    rw [← hpq]
    exact h p x hx
  · rw [Function.update_of_ne hrq] at hx
    by_cases hrp : r = p
    · subst hrp
      rw [Function.update_self] at hx
      rw [hpq]
      exact h q x hx
    · rw [Function.update_of_ne hrp] at hx
      exact h r x hx

namespace Held

variable [DecidableEq π] {κ : Type*} {kind : π → κ} {C : π → List α} {p q : π} {x y : α} {c : κ}

/-- Swapping two bins of a kind loses nothing. -/
theorem swap (h : Held kind C x c) (hpq : kind p = kind q) :
    Held kind (Function.update (Function.update C p (C q)) q (C p)) x c := by
  obtain ⟨r, hr, hx⟩ := h
  by_cases hrq : r = q
  · subst hrq
    by_cases hpr : p = r
    · subst hpr
      exact ⟨p, hr, by rw [Function.update_self]; exact hx⟩
    · refine ⟨p, hpq.trans hr, ?_⟩
      rw [Function.update_of_ne hpr, Function.update_self]
      exact hx
  · by_cases hrp : r = p
    · subst hrp
      refine ⟨q, hpq.symm.trans hr, ?_⟩
      rw [Function.update_self]
      exact hx
    · refine ⟨r, hr, ?_⟩
      rw [Function.update_of_ne hrq, Function.update_of_ne hrp]
      exact hx

/-- Neither does replacing a bin by one that has the element if the bin had it. -/
theorem replace {l' : List α} (h : Held kind C x c) (hkeep : x ∈ C p → x ∈ l') :
    Held kind (Function.update C p l') x c := by
  obtain ⟨r, hr, hx⟩ := h
  refine ⟨r, hr, ?_⟩
  by_cases hrp : r = p
  · subst hrp
    rw [Function.update_self]
    exact hkeep hx
  · rw [Function.update_of_ne hrp]
    exact hx

/-- So putting something into a bin loses nothing. -/
theorem put {l' : List α} (h : Held kind C x c) (hsub : C p ⊆ l') :
    Held kind (Function.update C p l') x c :=
  h.replace fun hx => hsub hx

/-- Taking one element out loses at most that one. -/
theorem take {l' : List α} (h : Held kind C x c) (hp : (C p).Perm (y :: l')) (hxy : x ≠ y) :
    Held kind (Function.update C p l') x c :=
  h.replace fun hx => (List.mem_cons.mp (hp.mem_iff.mp hx)).resolve_left hxy

/-- Carrying one element over to another bin of the kind loses nothing. -/
theorem carry {l₁ l₂ : List α} (h : Held kind C x c) (hex : Exclusive C) (hpq : p ≠ q)
    (hkind : kind p = kind q) (hp : (C p).Perm (y :: l₁)) (hy : y ∈ l₂) (hq : C q ⊆ l₂) :
    Held kind (Function.update (Function.update C p l₁) q l₂) x c := by
  by_cases hxy : x = y
  · subst hxy
    obtain ⟨r, hr, hx⟩ := h
    have hrp : r = p := hex.unique r p x hx (hp.mem_iff.mpr (by simp))
    refine ⟨q, ?_, ?_⟩
    · rw [← hkind, ← hrp, hr]
    · rw [Function.update_self]
      exact hy
  · refine (h.take hp hxy).put ?_
    rw [Function.update_of_ne hpq.symm]
    exact hq

/-- What is carried over to another bin of the kind is still held, and nothing else is. -/
theorem transfer_iff {l l₁ l₂ : List α} (hpq : p ≠ q) (hkind : kind p = kind q)
    (hp : (C p).Perm (l ++ l₁)) (hq : l₂.Perm (l ++ C q)) :
    Held kind (Function.update (Function.update C p l₁) q l₂) x c ↔ Held kind C x c := by
  have hpmem : x ∈ C p ↔ x ∈ l ∨ x ∈ l₁ := by rw [hp.mem_iff, List.mem_append]
  have hqmem : x ∈ l₂ ↔ x ∈ l ∨ x ∈ C q := by rw [hq.mem_iff, List.mem_append]
  constructor
  · rintro ⟨r, hr, hx⟩
    by_cases hrq : r = q
    · subst hrq
      rw [Function.update_self] at hx
      rcases hqmem.mp hx with hl | hx
      · exact ⟨p, hkind.trans hr, hpmem.mpr (Or.inl hl)⟩
      · exact ⟨r, hr, hx⟩
    · rw [Function.update_of_ne hrq] at hx
      by_cases hrp : r = p
      · subst hrp
        rw [Function.update_self] at hx
        exact ⟨r, hr, hpmem.mpr (Or.inr hx)⟩
      · rw [Function.update_of_ne hrp] at hx
        exact ⟨r, hr, hx⟩
  · rintro ⟨r, hr, hx⟩
    by_cases hrq : r = q
    · subst hrq
      exact ⟨r, hr, by rw [Function.update_self]; exact hqmem.mpr (Or.inr hx)⟩
    · by_cases hrp : r = p
      · subst hrp
        rcases hpmem.mp hx with hl | hx
        · exact ⟨q, hkind.symm.trans hr, by rw [Function.update_self]; exact hqmem.mpr (Or.inl hl)⟩
        · refine ⟨r, hr, ?_⟩
          rw [Function.update_of_ne hrq, Function.update_self]
          exact hx
      · refine ⟨r, hr, ?_⟩
        rw [Function.update_of_ne hrq, Function.update_of_ne hrp]
        exact hx

/-- What is put into a bin is then held, beside what was. -/
theorem put_iff {l l' : List α} (hp : l'.Perm (l ++ C p)) :
    Held kind (Function.update C p l') x c ↔ (kind p = c ∧ x ∈ l) ∨ Held kind C x c := by
  have hmem : x ∈ l' ↔ x ∈ l ∨ x ∈ C p := by rw [hp.mem_iff, List.mem_append]
  constructor
  · rintro ⟨r, hr, hx⟩
    by_cases hrp : r = p
    · subst hrp
      rw [Function.update_self] at hx
      exact (hmem.mp hx).imp (fun hl => ⟨hr, hl⟩) fun hx => ⟨r, hr, hx⟩
    · rw [Function.update_of_ne hrp] at hx
      exact Or.inr ⟨r, hr, hx⟩
  · rintro (⟨hk, hl⟩ | h)
    · exact ⟨p, hk, by rw [Function.update_self]; exact hmem.mpr (Or.inl hl)⟩
    · exact h.put fun y hy => hp.mem_iff.mpr (List.mem_append_right l hy)

end Held

end Lib
