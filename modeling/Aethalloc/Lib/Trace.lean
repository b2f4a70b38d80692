/-
What is seen of a run, and refinement.

A specification is a relation: which events may happen in a state, and which
states they may lead to.  A machine shows an event at every step, and it refines
the specification if its runs, seen from outside, are runs the specification
allows.  `Machine.exec_refines` proves that from one step: an invariant of the
machine, and a view of its states under which each step is one the specification
allows.
-/
import Aethalloc.Lib.Machine

namespace Lib

universe u v w x

/-- The events happen one after the other, each where the relation allows it. -/
def Runs {τ : Type u} {ε : Type v} (R : τ → ε → τ → Prop) : τ → List ε → τ → Prop
  | a, [], b => b = a
  | a, e :: es, b => ∃ c, R a e c ∧ Runs R c es b

namespace Machine

variable {σ : Type u} {ι : Type v} {ε : Type w} {τ : Type x} (M : Machine σ ι)

/-- The events of a run, as far as it gets. -/
def trace (shown : σ → ι → ε) : σ → List ι → List ε
  | _, [] => []
  | s, l :: ls =>
      match M.step s l with
      | none => []
      | some s' => shown s l :: trace shown s' ls

variable {M}

/-- A machine whose steps are allowed, seen through `view`, has runs that are allowed. -/
theorem exec_refines {P : σ → Prop} {shown : σ → ι → ε} {view : σ → τ} {R : τ → ε → τ → Prop}
    (hstep : ∀ s l s', P s → M.step s l = some s' → P s' ∧ R (view s) (shown s l) (view s')) :
    ∀ (ls : List ι) (s s' : σ), P s → M.exec s ls = some s' →
      Runs R (view s) (M.trace shown s ls) (view s') := by
  intro ls
  induction ls with
  | nil =>
      intro s s' _ hrun
      rw [exec_nil, Option.some.injEq] at hrun
      rw [hrun]
      rfl
  | cons l rest ih =>
      intro s s' hs hrun
      rw [exec_cons] at hrun
      obtain ⟨s₁, hs₁, hrest⟩ := Option.bind_eq_some_iff.mp hrun
      obtain ⟨hP, hR⟩ := hstep s l s₁ hs hs₁
      unfold trace
      rw [hs₁]
      exact ⟨view s₁, hR, ih s₁ s' hP hrest⟩

/-- What steps from good states keep holds at the end of a run, or the run passes through a state
that is not good. -/
theorem exec_until {P Good : σ → Prop}
    (hstep : ∀ s l s', P s → Good s → M.step s l = some s' → P s') :
    ∀ (ls : List ι) (s s' : σ), P s → M.exec s ls = some s' →
      P s' ∨ ∃ ls₀ u, ls₀ <+: ls ∧ M.exec s ls₀ = some u ∧ ¬ Good u := by
  intro ls
  induction ls with
  | nil =>
      intro s s' hs hrun
      rw [exec_nil, Option.some.injEq] at hrun
      rw [← hrun]
      exact Or.inl hs
  | cons l rest ih =>
      intro s s' hs hrun
      by_cases hgood : Good s
      · rw [exec_cons] at hrun
        obtain ⟨s₁, hs₁, hrest⟩ := Option.bind_eq_some_iff.mp hrun
        rcases ih s₁ s' (hstep s l s₁ hs hgood hs₁) hrest with hP | ⟨ls₀, u, hpre, hu, hbad⟩
        · exact Or.inl hP
        · refine Or.inr ⟨l :: ls₀, u, List.cons_prefix_cons.mpr ⟨rfl, hpre⟩, ?_, hbad⟩
          rw [M.exec_step hs₁]
          exact hu
      · exact Or.inr ⟨[], s, List.nil_prefix, rfl, hgood⟩

/-- A check that a run passes throughout is passed by each step of it. -/
theorem check_of_trace {check : σ → ι → Bool} :
    ∀ (ls : List ι) (s s' : σ), M.exec s ls = some s' → (M.trace check s ls).all id = true →
      ∀ ls₀ l, ls₀ ++ [l] <+: ls → ∀ u, M.exec s ls₀ = some u → check u l = true := by
  intro ls
  induction ls with
  | nil =>
      intro s s' _ _ ls₀ l hpre
      exact absurd (List.prefix_nil.mp hpre) (by simp)
  | cons l' rest ih =>
      intro s s' hrun hall ls₀ l hpre u hu
      rw [exec_cons] at hrun
      obtain ⟨s₁, hs₁, hrest⟩ := Option.bind_eq_some_iff.mp hrun
      unfold trace at hall
      rw [hs₁, List.all_cons, Bool.and_eq_true] at hall
      cases ls₀ with
      | nil =>
          rw [exec_nil, Option.some.injEq] at hu
          obtain ⟨rfl, -⟩ := List.cons_prefix_cons.mp hpre
          rw [← hu]
          exact hall.1
      | cons l₁ ls₁ =>
          obtain ⟨rfl, hpre'⟩ := List.cons_prefix_cons.mp hpre
          rw [M.exec_step hs₁] at hu
          exact ih s₁ s' hrest hall.2 ls₁ l hpre' u hu

/-- A property checked before each step and at the end holds all along the run. -/
theorem holds_of_trace {G : σ → Prop} {check : σ → Bool} (hcheck : ∀ s, check s = true → G s)
    {ls : List ι} {s s' : σ} (hrun : M.exec s ls = some s')
    (hall : (M.trace (fun u _ => check u) s ls).all id = true) (hend : check s' = true) :
    ∀ ls₀, ls₀ <+: ls → ∀ u, M.exec s ls₀ = some u → G u := by
  rintro ls₀ ⟨rest, hrest⟩ u hu
  cases rest with
  | nil =>
      rw [List.append_nil] at hrest
      rw [hrest, hrun, Option.some.injEq] at hu
      exact hcheck u (by rw [← hu]; exact hend)
  | cons l rest =>
      rw [List.append_cons] at hrest
      exact hcheck u (M.check_of_trace ls s s' hrun hall ls₀ l ⟨rest, hrest⟩ u hu)

/-- A run that passes the check throughout meets what the check stands for. -/
theorem exec_reachesUnder {G : σ → ι → Prop} {check : σ → ι → Bool}
    (hcheck : ∀ s l, check s l = true → G s l) :
    ∀ (ls : List ι) (s s' : σ), M.ReachesUnder G s → M.exec s ls = some s' →
      (M.trace check s ls).all id = true → M.ReachesUnder G s' := by
  intro ls
  induction ls with
  | nil =>
      intro s s' hs hrun _
      rw [exec_nil, Option.some.injEq] at hrun
      rw [← hrun]
      exact hs
  | cons l rest ih =>
      intro s s' hs hrun hall
      rw [exec_cons] at hrun
      obtain ⟨s₁, hs₁, hrest⟩ := Option.bind_eq_some_iff.mp hrun
      unfold trace at hall
      rw [hs₁, List.all_cons, Bool.and_eq_true] at hall
      exact ih s₁ s' (.step hs (hcheck s l hall.1) hs₁) hrest hall.2

end Machine

end Lib
