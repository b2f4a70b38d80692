/-
What the steps of a run cost, all together.

A step has a price, and some steps are paid for.  When a potential covers the
difference step by step, it covers the run: everything spent is at most everything
paid in, up to the potential the run started with.  The other way round, a measure
that some steps lower is used up by a run that has enough of them.
-/
import Aethalloc.Lib.Machine

namespace Lib.Machine

universe u v

variable {σ : Type u} {ι : Type v} (M : Machine σ ι)

/-- The sum of `f` over the steps of a run, as far as it gets. -/
def total (f : σ → ι → Nat) : σ → List ι → Nat
  | _, [] => 0
  | s, l :: ls =>
      match M.step s l with
      | none => 0
      | some s' => f s l + total f s' ls

variable {M}

theorem total_cons {f : σ → ι → Nat} {s s' : σ} {l : ι} (hstep : M.step s l = some s')
    (ls : List ι) : M.total f s (l :: ls) = f s l + M.total f s' ls := by
  rw [total, hstep]

/-- A potential that covers what every step costs beyond what it brings in covers every run. -/
theorem total_le_of_potential {cost pay : σ → ι → Nat} {φ : σ → Nat}
    (hstep : ∀ s l s', M.step s l = some s' → cost s l + φ s' ≤ φ s + pay s l) :
    ∀ (ls : List ι) (s s' : σ), M.exec s ls = some s' →
      M.total cost s ls + φ s' ≤ φ s + M.total pay s ls := by
  intro ls
  induction ls with
  | nil =>
      intro s s' hrun
      rw [exec_nil, Option.some.injEq] at hrun
      rw [hrun]
      exact Nat.le_of_eq (Nat.add_comm ..)
  | cons l rest ih =>
      intro s s' hrun
      rw [exec_cons] at hrun
      obtain ⟨s₁, hs₁, hrest⟩ := Option.bind_eq_some_iff.mp hrun
      have hfirst := hstep s l s₁ hs₁
      have hlater := ih s₁ s' hrest
      rw [total_cons hs₁, total_cons hs₁]
      omega

/-- Sums of prices are prices of sums. -/
theorem total_add (f g : σ → ι → Nat) : ∀ (ls : List ι) (s : σ),
    M.total (fun s l => f s l + g s l) s ls = M.total f s ls + M.total g s ls := by
  intro ls
  induction ls with
  | nil => intro s; rfl
  | cons l rest ih =>
      intro s
      rw [total, total, total]
      cases M.step s l with
      | none => rfl
      | some s' =>
          simp only
          rw [ih s']
          omega

theorem total_mul (k : Nat) (f : σ → ι → Nat) : ∀ (ls : List ι) (s : σ),
    M.total (fun s l => k * f s l) s ls = k * M.total f s ls := by
  intro ls
  induction ls with
  | nil => intro s; rfl
  | cons l rest ih =>
      intro s
      rw [total, total]
      cases M.step s l with
      | none => rfl
      | some s' =>
          simp only
          rw [ih s', Nat.mul_add]

/-! ### What is used up by steps that keep coming -/

/-- A measure that no step raises and every marked step lowers goes down by one with each of them,
until it is used up. -/
theorem exec_uses_up {P : σ → Prop} {φ : σ → Nat} {marked : ι → Bool}
    (hkeep : ∀ s l s', P s → M.step s l = some s' → P s')
    (hstep : ∀ s l s', P s → M.step s l = some s' → φ s' ≤ φ s - if marked l then 1 else 0) :
    ∀ (ls : List ι) (s s' : σ), P s → M.exec s ls = some s' →
      φ s' ≤ φ s - ls.countP marked := by
  intro ls
  induction ls with
  | nil =>
      intro s s' _ hrun
      rw [exec_nil, Option.some.injEq] at hrun
      rw [hrun]
      exact Nat.le_refl _
  | cons l rest ih =>
      intro s s' hs hrun
      rw [exec_cons] at hrun
      obtain ⟨s₁, hs₁, hrest⟩ := Option.bind_eq_some_iff.mp hrun
      have hfirst := hstep s l s₁ hs hs₁
      have hlater := ih s₁ s' (hkeep s l s₁ hs hs₁) hrest
      rw [List.countP_cons]
      omega

end Lib.Machine
