/-
Machines, runs, and what holds along them.

Every component of the development is a machine: a start state and a step
function.  A label names which party moves and carries every choice the step
leaves open — the answer of a system call, whether a weak compare-and-swap fails
spuriously — so a step is a function of the state and the label, and a run is a
list of labels.  A label that is not enabled has no result.

What is proved about a machine is nearly always of one form: a property holds
at the start, one step keeps it, so it holds in every state a run reaches.
`Reaches.invariant` is that argument, made once, and `ReachesUnder.invariant` is
the same for the runs whose every step meets a condition.  `exec_related` is the
same for a relation between two machines: one simulates the other.
-/
import Mathlib.Logic.Function.Basic

namespace Lib

universe u v w

/-- A start state and what one labelled step does to a state. -/
structure Machine (σ : Type u) (ι : Type v) where
  init : σ
  step : σ → ι → Option σ

namespace Machine

variable {σ : Type u} {ι : Type v} (M : Machine σ ι)

/-- Run a list of labels from a state. -/
def exec : σ → List ι → Option σ
  | s, [] => some s
  | s, l :: ls => (M.step s l).bind fun s' => exec s' ls

/-- Some run from the start state ends in `s`. -/
def Reaches (s : σ) : Prop := ∃ ls, M.exec M.init ls = some s

@[simp] theorem exec_nil (s : σ) : M.exec s [] = some s := rfl

theorem exec_cons (s : σ) (l : ι) (ls : List ι) :
    M.exec s (l :: ls) = (M.step s l).bind fun s' => M.exec s' ls := rfl

/-- A step at the front of a run. -/
theorem exec_step {s s' : σ} {l : ι} (hstep : M.step s l = some s') (ls : List ι) :
    M.exec s (l :: ls) = M.exec s' ls := by
  rw [exec_cons, hstep]
  rfl

theorem exec_append (s : σ) (ls ls' : List ι) :
    M.exec s (ls ++ ls') = (M.exec s ls).bind fun s' => M.exec s' ls' := by
  induction ls generalizing s with
  | nil => rfl
  | cons l rest ih =>
      rw [List.cons_append, exec_cons, exec_cons, Option.bind_assoc]
      congr 1
      funext s'
      exact ih s'

theorem exec_snoc {s s' s'' : σ} {ls : List ι} {l : ι} (h : M.exec s ls = some s')
    (hstep : M.step s' l = some s'') : M.exec s (ls ++ [l]) = some s'' := by
  rw [exec_append, h, Option.bind_some, exec_cons, hstep]
  rfl

/-- The last step of a run, split off. -/
theorem exec_snoc_inv {s s'' : σ} {ls : List ι} {l : ι}
    (h : M.exec s (ls ++ [l]) = some s'') :
    ∃ s', M.exec s ls = some s' ∧ M.step s' l = some s'' := by
  rw [exec_append] at h
  obtain ⟨s', hs', hlast⟩ := Option.bind_eq_some_iff.mp h
  refine ⟨s', hs', ?_⟩
  rw [exec_cons] at hlast
  obtain ⟨s₁, hs₁, hend⟩ := Option.bind_eq_some_iff.mp hlast
  rw [hs₁]
  exact hend

variable {M}

theorem reaches_init : M.Reaches M.init := ⟨[], rfl⟩

theorem Reaches.step {s s' : σ} {l : ι} (h : M.Reaches s) (hstep : M.step s l = some s') :
    M.Reaches s' := by
  obtain ⟨ls, hls⟩ := h
  exact ⟨ls ++ [l], M.exec_snoc hls hstep⟩

/-- What one step keeps, a run keeps. -/
theorem exec_invariant {P : σ → Prop} (hstep : ∀ s l s', P s → M.step s l = some s' → P s') :
    ∀ (ls : List ι) (s s' : σ), P s → M.exec s ls = some s' → P s' := by
  intro ls
  induction ls with
  | nil =>
      intro s s' hs h
      rw [exec_nil, Option.some.injEq] at h
      rw [← h]
      exact hs
  | cons l rest ih =>
      intro s s' hs h
      rw [exec_cons] at h
      obtain ⟨s₁, hs₁, hrest⟩ := Option.bind_eq_some_iff.mp h
      exact ih s₁ s' (hstep s l s₁ hs hs₁) hrest

/-- What holds at the start and is kept by one step holds in every state reached. -/
theorem Reaches.invariant {P : σ → Prop} (hinit : P M.init)
    (hstep : ∀ s l s', P s → M.step s l = some s' → P s') {s : σ} (h : M.Reaches s) : P s := by
  obtain ⟨ls, hls⟩ := h
  exact exec_invariant hstep ls M.init s hinit hls

/-! ### Runs whose every step meets a condition -/

variable (M) in
/-- Some run whose every step meets `G` ends in `s`. -/
inductive ReachesUnder (G : σ → ι → Prop) : σ → Prop
  | init : ReachesUnder G M.init
  | step {s s' : σ} {l : ι} (h : ReachesUnder G s) (hg : G s l) (hstep : M.step s l = some s') :
      ReachesUnder G s'

variable {G : σ → ι → Prop}

/-- `Reaches.invariant` for such runs: the step may use the condition. -/
theorem ReachesUnder.invariant {P : σ → Prop} (hinit : P M.init)
    (hstep : ∀ s l s', P s → G s l → M.step s l = some s' → P s') {s : σ}
    (h : M.ReachesUnder G s) : P s := by
  induction h with
  | init => exact hinit
  | step _ hg hs ih => exact hstep _ _ _ ih hg hs

/-! ### Two machines under the same labels -/

/-- Machines whose steps keep a relation keep it along a run, and neither stops. -/
theorem exec_related {τ : Type w} {N : Machine τ ι} {R : σ → τ → Prop}
    (hstep : ∀ s t l, R s t → ∃ s' t', M.step s l = some s' ∧ N.step t l = some t' ∧ R s' t') :
    ∀ (ls : List ι) (s : σ) (t : τ), R s t →
      ∃ s' t', M.exec s ls = some s' ∧ N.exec t ls = some t' ∧ R s' t' := by
  intro ls
  induction ls with
  | nil =>
      intro s t hR
      exact ⟨s, t, rfl, rfl, hR⟩
  | cons l rest ih =>
      intro s t hR
      obtain ⟨s₁, t₁, hs, ht, hR₁⟩ := hstep s t l hR
      obtain ⟨s', t', hs', ht', hR'⟩ := ih s₁ t₁ hR₁
      exact ⟨s', t', (M.exec_step hs rest).trans hs', (N.exec_step ht rest).trans ht', hR'⟩

end Machine

end Lib
