/-
The stack is lock-free.

A swap fails for one of two reasons: the hardware says so, or the head is not what
the thread loaded.  In the second case another thread has swapped something in since
the load.  So whatever work a thread repeats is paid for, by a spurious failure of
its own or by a swap that another thread won, and the bound below has no other
term: a call that meets neither takes three steps.

The potential of a thread is the number of steps that are left of the round of its
loop, and three more once its view of the head is out of date.
-/
import Aethalloc.Lib.Cost
import Aethalloc.Core.TreiberStack

namespace Aethalloc.TreiberStack

open Lib

variable {Tid Node : Type}

/-! ### What is counted -/

section Counts

variable [DecidableEq Tid]

/-- A load, a link access or a swap of the thread. -/
def ownSteps (t : Tid) (_ : State Tid Node) : Label Tid Node → Nat
  | .move t' => if t' = t then 1 else 0
  | .cas t' _ => if t' = t then 1 else 0
  | _ => 0

/-- The thread enters a call. -/
def callsBegun (t : Tid) (_ : State Tid Node) : Label Tid Node → Nat
  | .push t' _ => if t' = t then 1 else 0
  | .pop t' => if t' = t then 1 else 0
  | _ => 0

/-- A swap of the thread fails whatever the values are. -/
def spuriousFailures (t : Tid) (_ : State Tid Node) : Label Tid Node → Nat
  | .cas t' spurious => if t' = t ∧ spurious = true then 1 else 0
  | _ => 0

/-- The head the thread's next swap expects. -/
def Pc.expects : Pc Node → Option (Option Node)
  | .pushWrite _ current | .pushCas _ current => some current
  | .popRead current | .popCas current _ => some (some current)
  | .idle | .pushLoad _ | .popLoad => none

/-- Another thread's swap succeeds. -/
def winsOfOthers [DecidableEq Node] (t : Tid) (s : State Tid Node) : Label Tid Node → Nat
  | .cas t' spurious =>
      if t' ≠ t ∧ spurious = false ∧ (s.pc t').expects = some s.head then 1 else 0
  | _ => 0

end Counts

/-! ### The potential -/

/-- The steps that are left of the round, if the swap succeeds. -/
def Pc.rank : Pc Node → Nat
  | .idle => 0
  | .pushLoad _ | .popLoad => 3
  | .pushWrite _ _ | .popRead _ => 2
  | .pushCas _ _ | .popCas _ _ => 1

section Potential

variable [DecidableEq Node]

/-- The thread has loaded a head that is the head no more. -/
def stale (s : State Tid Node) (t : Tid) : Bool := (s.pc t).expects.any fun p => s.head ≠ p

def potential (t : Tid) (s : State Tid Node) : Nat :=
  (s.pc t).rank + if stale s t then 3 else 0

variable {s s' : State Tid Node} {t : Tid}

theorem stale_iff : stale s t = true ↔ ∃ p, (s.pc t).expects = some p ∧ s.head ≠ p := by
  unfold stale
  rw [Option.any_eq_true]
  simp

/-- Where a thread has just loaded the head, or has not, its round is all it has to do. -/
theorem potential_fresh (h : ∀ p, (s.pc t).expects = some p → s.head = p) :
    potential t s = (s.pc t).rank := by
  have hfresh : ¬ stale s t = true := by
    rw [stale_iff]
    rintro ⟨p, hp, hne⟩
    exact hne (h p hp)
  unfold potential
  rw [if_neg hfresh, Nat.add_zero]

/-- Where its view is out of date, it has a round more to do. -/
theorem potential_stale {p : Option Node} (hp : (s.pc t).expects = some p) (hne : s.head ≠ p) :
    potential t s = (s.pc t).rank + 3 := by
  unfold potential
  rw [if_pos (stale_iff.mpr ⟨p, hp, hne⟩)]

theorem rank_le_potential : (s.pc t).rank ≤ potential t s := Nat.le_add_right ..

/-- The step does not change the head, and what the thread expects it expected before. -/
theorem potential_step (hhead : s'.head = s.head)
    (h : ∀ p, (s'.pc t).expects = some p → s.head = p ∨ (s.pc t).expects = some p) :
    potential t s' + (s.pc t).rank ≤ potential t s + (s'.pc t).rank := by
  have hstale : stale s' t = true → stale s t = true := by
    rw [stale_iff, stale_iff]
    rintro ⟨p, hp, hne⟩
    rw [hhead] at hne
    exact ⟨p, (h p hp).resolve_left hne, hne⟩
  unfold potential
  split
  · rename_i hs
    rw [if_pos (hstale hs)]
    omega
  · omega

/-- Whatever happens to the head, the potential grows by three at most. -/
theorem potential_le_add (hpc : s'.pc t = s.pc t) : potential t s' ≤ potential t s + 3 := by
  unfold potential
  rw [hpc]
  split <;> split <;> omega

end Potential

/-! ### What a thread's step is -/

section Step

variable [DecidableEq Tid] [DecidableEq Node] {s s' : State Tid Node} {t : Tid}

/-- A load or a link access: a step of the round is done, and the head is looked at or left. -/
theorem stepMove_cases (hs : stepMove s t = some s') : s'.head = s.head ∧
    ∃ pc, s'.pc = Function.update s.pc t pc ∧ pc.rank + 1 ≤ (s.pc t).rank ∧
      ∀ p, pc.expects = some p → s.head = p ∨ (s.pc t).expects = some p := by
  unfold stepMove at hs
  cases hpc : s.pc t <;> simp only [hpc] at hs
  case pushLoad node =>
    obtain rfl := Option.some.inj hs
    exact ⟨rfl, _, rfl, Nat.le_refl 3, fun p hp => Or.inl (Option.some.inj hp)⟩
  case pushWrite node current =>
    obtain rfl := Option.some.inj hs
    exact ⟨rfl, _, rfl, Nat.le_refl 2, fun p hp => Or.inr hp⟩
  case popLoad =>
    obtain rfl := Option.some.inj hs
    unfold popFrom
    cases hhead : s.head with
    | none =>
        exact ⟨hhead, _, rfl, Nat.succ_le_succ (Nat.zero_le 2), by simp [Pc.expects]⟩
    | some current =>
        exact ⟨hhead, _, rfl, Nat.le_refl 3, fun p hp => Or.inl (Option.some.inj hp)⟩
  case popRead current =>
    obtain rfl := Option.some.inj hs
    exact ⟨rfl, _, rfl, Nat.le_refl 2, fun p hp => Or.inr hp⟩
  all_goals simp at hs

/-- A swap: it succeeds and the call is over, or it fails and the next round begins with the head
as it is, or with a load. -/
theorem stepCas_cases {reload spurious : Bool} (hs : stepCas reload s t spurious = some s') :
    ∃ p pc, (s.pc t).expects = some p ∧ (s.pc t).rank = 1 ∧
      s'.pc = Function.update s.pc t pc ∧
      ((s.head = p ∧ spurious = false ∧ pc = .idle) ∨
        (¬ (s.head = p ∧ spurious = false) ∧ s'.head = s.head ∧ pc.rank ≤ 3 ∧
          ∀ q, pc.expects = some q → s.head = q)) := by
  unfold stepCas at hs
  cases hpc : s.pc t <;> simp only [hpc] at hs
  case pushCas node current =>
    refine ⟨current, ?_⟩
    split at hs
    · rename_i hok
      obtain rfl := Option.some.inj hs
      exact ⟨_, rfl, rfl, rfl, Or.inl ⟨hok.1, hok.2, rfl⟩⟩
    · rename_i hfail
      split at hs
      · obtain rfl := Option.some.inj hs
        exact ⟨_, rfl, rfl, rfl, Or.inr ⟨hfail, rfl, Nat.le_refl 3, by simp [Pc.expects]⟩⟩
      · obtain rfl := Option.some.inj hs
        exact ⟨_, rfl, rfl, rfl, Or.inr ⟨hfail, rfl, Nat.le_succ 2, fun q hq => Option.some.inj hq⟩⟩
  case popCas current next =>
    refine ⟨some current, ?_⟩
    split at hs
    · rename_i hok
      obtain rfl := Option.some.inj hs
      exact ⟨_, rfl, rfl, rfl, Or.inl ⟨hok.1, hok.2, rfl⟩⟩
    · rename_i hfail
      split at hs
      · obtain rfl := Option.some.inj hs
        exact ⟨_, rfl, rfl, rfl, Or.inr ⟨hfail, rfl, Nat.le_refl 3, by simp [Pc.expects]⟩⟩
      · obtain rfl := Option.some.inj hs
        unfold popFrom
        cases hhead : s.head with
        | none =>
            exact ⟨_, rfl, rfl, rfl, Or.inr ⟨by rw [← hhead]; exact hfail, hhead,
              Nat.zero_le 3, by simp [Pc.expects]⟩⟩
        | some c =>
            exact ⟨_, rfl, rfl, rfl, Or.inr ⟨by rw [← hhead]; exact hfail, hhead,
              Nat.le_succ 2, fun q hq => Option.some.inj hq⟩⟩
  all_goals simp at hs

/-! ### What a step costs the thread, and who pays -/

/-- The thread that moves. -/
def Label.thread : Label Tid Node → Tid
  | .push t _ | .pop t | .move t | .cas t _ => t

/-- A step of another thread leaves this one where it is, and the head too unless it is a swap that
succeeds. -/
theorem step_other {reload : Bool} {l : Label Tid Node} (ht : l.thread ≠ t)
    (hs : step reload s l = some s') :
    s'.pc t = s.pc t ∧ (s'.head = s.head ∨ winsOfOthers t s l = 1) := by
  have hupd : ∀ pc, Function.update s.pc l.thread pc t = s.pc t :=
    fun pc => Function.update_of_ne (Ne.symm ht) _ _
  cases l with
  | push t' node =>
      obtain ⟨-, hsome⟩ := Option.ite_none_right_eq_some.mp hs
      obtain rfl := Option.some.inj hsome
      exact ⟨hupd _, Or.inl rfl⟩
  | pop t' =>
      obtain ⟨-, hsome⟩ := Option.ite_none_right_eq_some.mp hs
      obtain rfl := Option.some.inj hsome
      exact ⟨hupd _, Or.inl rfl⟩
  | move t' =>
      obtain ⟨hhead, pc, hpc, -⟩ := stepMove_cases hs
      rw [hpc]
      exact ⟨hupd pc, Or.inl hhead⟩
  | cas t' spurious =>
      obtain ⟨p, pc, hexp, -, hpc, ⟨hhead, hreal, -⟩ | ⟨-, hhead, -⟩⟩ := stepCas_cases hs
      · rw [hpc]
        refine ⟨hupd pc, Or.inr (if_pos ⟨ht, hreal, ?_⟩)⟩
        rw [hexp, hhead]
      · rw [hpc]
        exact ⟨hupd pc, Or.inl hhead⟩

/-- A call that is entered has a round to do. -/
theorem potential_enter (s : State Tid Node) {pc : Pc Node} (hrank : pc.rank = 3)
    (hexp : pc.expects = none) : potential t (setPc s t pc) = 3 := by
  have hself : (setPc s t pc).pc t = pc := Function.update_self ..
  rw [potential_fresh (by rw [hself, hexp]; simp), hself, hrank]

/-- A step of the thread itself. -/
theorem step_own {reload : Bool} {l : Label Tid Node} (hs : step reload s l = some s') :
    ownSteps l.thread s l + potential l.thread s'
      ≤ potential l.thread s + 3 * (callsBegun l.thread s l + spuriousFailures l.thread s l) := by
  cases l with
  | push t node =>
      obtain ⟨-, hsome⟩ := Option.ite_none_right_eq_some.mp hs
      obtain rfl := Option.some.inj hsome
      have hround : potential t (setPc { s with
          owner := Function.update s.owner node (.thread t) } t (.pushLoad node)) = 3 :=
        potential_enter _ rfl rfl
      simp only [Label.thread, ownSteps, callsBegun, spuriousFailures, hround, if_true]
      omega
  | pop t =>
      obtain ⟨-, hsome⟩ := Option.ite_none_right_eq_some.mp hs
      obtain rfl := Option.some.inj hsome
      have hround : potential t (setPc s t .popLoad) = 3 := potential_enter s rfl rfl
      simp only [Label.thread, ownSteps, callsBegun, spuriousFailures, hround, if_true]
      omega
  | move t =>
      obtain ⟨hhead, pc, hpc, hrank, hexp⟩ := stepMove_cases hs
      have hself : s'.pc t = pc := by
        rw [hpc]
        exact Function.update_self ..
      have hstep := potential_step (t := t) hhead (by rw [hself]; exact hexp)
      rw [hself] at hstep
      simp only [Label.thread, ownSteps, callsBegun, spuriousFailures, if_true]
      omega
  | cas t spurious =>
      obtain ⟨p, pc, hexp, hone, hpc, hcases⟩ := stepCas_cases hs
      have hself : s'.pc t = pc := by
        rw [hpc]
        exact Function.update_self ..
      have hrank := rank_le_potential (s := s) (t := t)
      simp only [Label.thread, ownSteps, callsBegun, spuriousFailures, if_true, true_and]
      rcases hcases with ⟨-, -, rfl⟩ | ⟨hfail, hhead, hle, hfresh⟩
      · rw [potential_fresh (s := s') (by rw [hself]; simp [Pc.expects]), hself]
        show 1 + 0 ≤ _
        omega
      · -- the next round is paid by the failure, or by the swap that made the view stale
        rw [potential_fresh (s := s') (by rw [hself, hhead]; exact hfresh), hself]
        cases spurious with
        | true =>
            rw [if_pos rfl]
            omega
        | false =>
            have hne : s.head ≠ p := fun hc => hfail ⟨hc, rfl⟩
            rw [potential_stale hexp hne, if_neg (by simp)]
            omega

/-- What the thread does is paid with three for each call, each spurious failure and each swap that
another thread wins. -/
def paid (t : Tid) (s : State Tid Node) (l : Label Tid Node) : Nat :=
  3 * (callsBegun t s l + spuriousFailures t s l + winsOfOthers t s l)

theorem step_potential {reload : Bool} {l : Label Tid Node} (hs : step reload s l = some s') :
    ownSteps t s l + potential t s' ≤ potential t s + paid t s l := by
  unfold paid
  by_cases ht : l.thread = t
  · have hown := step_own hs
    rw [ht] at hown
    omega
  · obtain ⟨hpc, hhead⟩ := step_other ht hs
    have hnone : ownSteps t s l = 0 := by
      cases l with
      | push t' node => rfl
      | pop t' => rfl
      | move t' => exact if_neg ht
      | cas t' spurious => exact if_neg ht
    rcases hhead with hhead | hwin
    · have hstep := potential_step (t := t) hhead (fun p hp => Or.inr (by rw [← hpc]; exact hp))
      rw [hpc] at hstep
      omega
    · have hstep := potential_le_add (t := t) hpc
      omega

/--
**Lock freedom.**  In every run, from any state in which the thread is in no call,
whatever the other threads do and in whatever order, the thread takes three steps at
most for each call it enters, for each of its swaps that fails spuriously, and for each
swap that another thread wins.  Both ways of retrying have the same bound.
-/
theorem steps_bounded {reload : Bool} {ls : List (Label Tid Node)} (hidle : s.pc t = .idle)
    (hrun : (machine Tid Node reload).exec s ls = some s') :
    (machine Tid Node reload).total (ownSteps t) s ls
      ≤ 3 * ((machine Tid Node reload).total (callsBegun t) s ls +
        (machine Tid Node reload).total (spuriousFailures t) s ls +
        (machine Tid Node reload).total (winsOfOthers t) s ls) := by
  have hcover : (machine Tid Node reload).total (ownSteps t) s ls + potential t s'
      ≤ potential t s + (machine Tid Node reload).total (paid t) s ls :=
    Machine.total_le_of_potential (fun s l s' hs => step_potential hs) ls s s' hrun
  have hstart : potential t s = 0 := by
    rw [potential_fresh (by rw [hidle]; simp [Pc.expects]), hidle]
    rfl
  have hpaid : (machine Tid Node reload).total (paid t) s ls
      = 3 * ((machine Tid Node reload).total (callsBegun t) s ls +
        (machine Tid Node reload).total (spuriousFailures t) s ls +
        (machine Tid Node reload).total (winsOfOthers t) s ls) := by
    rw [← Machine.total_add, ← Machine.total_add, ← Machine.total_mul]
    rfl
  omega

end Step

/-- A push that another thread's push gets ahead of takes five steps. -/
theorem steps_bounded_contended : ∃ s, (machine Nat Nat false).exec start
      [.push 0 1, .push 1 2, .move 0, .move 1, .move 0, .move 1, .cas 1 false, .cas 0 false,
        .move 0, .cas 0 false] = some s ∧
    (machine Nat Nat false).total (ownSteps 0) start
      [.push 0 1, .push 1 2, .move 0, .move 1, .move 0, .move 1, .cas 1 false, .cas 0 false,
        .move 0, .cas 0 false] = 5 ∧ 5 ≤ 3 * (1 + 0 + 1) := by
  have hidle : (start : State Nat Nat).pc 0 = .idle := rfl
  have hrun : ∃ s, (machine Nat Nat false).exec start
      [.push 0 1, .push 1 2, .move 0, .move 1, .move 0, .move 1, .cas 1 false, .cas 0 false,
        .move 0, .cas 0 false] = some s := ⟨_, rfl⟩
  obtain ⟨s, hs⟩ := hrun
  exact ⟨s, hs, rfl, steps_bounded hidle hs⟩

end Aethalloc.TreiberStack
