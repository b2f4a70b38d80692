/-
What the lock-free stack needs for its elements to be reusable.

The swap of a pop compares pointers only, so it cannot tell a node that stayed at
the head from one that was popped and pushed back in between.  In the second case
the link it installs is out of date.  `aba_double_pop` is the textbook run of it:
one thread stalls between reading the link and its swap, another pops two nodes
and pushes the first back, and the stalled swap makes the second node the head
again although its popper still has it.

With the one fact the swap does not check, `LinkCurrent`, the stack is exact: the
nodes reachable from the head are at every moment the pushed ones that no pop has
taken, and no push is popped twice.  This holds for both ways of retrying.
-/
import Aethalloc.Lib.Trace
import Aethalloc.Core.TreiberStack

namespace Aethalloc.TreiberStack

open Lib

/-! ### Histories -/

section History

variable {Node : Type} {h : List (Event Node)} {e : Event Node} {n m : Node}

/-- Where a split of `h ++ [e]` can fall. -/
theorem snoc_eq_append_cons {α : Type} {h a b : List α} {e x : α} (heq : h ++ [e] = a ++ x :: b) :
    (b = [] ∧ h = a ∧ e = x) ∨ ∃ b', b = b' ++ [e] ∧ h = a ++ x :: b' := by
  rcases List.eq_nil_or_concat b with rfl | ⟨b', y, rfl⟩
  · obtain ⟨hh, hx⟩ := List.append_inj' heq rfl
    exact Or.inl ⟨rfl, hh, by simpa using hx⟩
  · rw [List.concat_eq_append] at heq ⊢
    rw [← List.cons_append, ← List.append_assoc] at heq
    obtain ⟨hh, hx⟩ := List.append_inj' heq rfl
    exact Or.inr ⟨b', by rw [show e = y by simpa using hx], hh⟩

theorem pushed_snoc_push : Pushed (h ++ [.push n]) m ↔ m = n ∨ Pushed h m := by
  constructor
  · rintro ⟨a, b, heq, hb⟩
    rcases snoc_eq_append_cons heq with ⟨-, -, hx⟩ | ⟨b', rfl, hh⟩
    · exact Or.inl (by simpa using hx.symm)
    · exact Or.inr ⟨a, b', hh, fun hc => hb (List.mem_append_left _ hc)⟩
  · rintro (rfl | ⟨a, b, rfl, hb⟩)
    · exact ⟨h, [], rfl, by simp⟩
    · exact ⟨a, b ++ [.push n], by simp, by simpa using hb⟩

theorem pushed_snoc_pop : Pushed (h ++ [.pop n]) m ↔ m ≠ n ∧ Pushed h m := by
  constructor
  · rintro ⟨a, b, heq, hb⟩
    rcases snoc_eq_append_cons heq with ⟨-, -, hx⟩ | ⟨b', rfl, hh⟩
    · simp at hx
    · refine ⟨?_, a, b', hh, fun hc => hb (List.mem_append_left _ hc)⟩
      rintro rfl
      exact hb (by simp)
  · rintro ⟨hne, a, b, rfl, hb⟩
    exact ⟨a, b ++ [.pop n], by simp, by simp [hb, hne]⟩

theorem separated_snoc_push (hs : PopsSeparated h) : PopsSeparated (h ++ [.push n]) := by
  intro node a b c heq
  rcases snoc_eq_append_cons heq with ⟨hnil, -, -⟩ | ⟨d, hd, hh⟩
  · simp at hnil
  · rcases snoc_eq_append_cons hd.symm with ⟨-, -, hx⟩ | ⟨c', rfl, rfl⟩
    · simp at hx
    · exact hs node a b c' hh

/-- A pop of a node that is pushed comes after a push since its last pop. -/
theorem separated_snoc_pop (hs : PopsSeparated h) (hp : Pushed h n) :
    PopsSeparated (h ++ [.pop n]) := by
  intro node a b c heq
  rcases snoc_eq_append_cons heq with ⟨hnil, -, -⟩ | ⟨d, hd, hh⟩
  · simp at hnil
  · rcases snoc_eq_append_cons hd.symm with ⟨-, rfl, hx⟩ | ⟨c', rfl, rfl⟩
    · -- the second pop is the new one: the push that keeps `n` pushed stands after the first
      obtain rfl : n = node := by simpa using hx
      obtain ⟨a', b', hh', hb'⟩ := hp
      rw [hh] at hh'
      rcases List.append_eq_append_iff.mp hh' with ⟨as, ha, hb⟩ | ⟨as, ha, hb⟩
      · cases as with
        | nil => simp at hb
        | cons x as =>
            rw [List.cons_append, List.cons.injEq] at hb
            rw [hb.2]
            simp
      · cases as with
        | nil => simp at hb
        | cons x as =>
            rw [List.cons_append, List.cons.injEq] at hb
            exact absurd (show Event.pop n ∈ b' by rw [hb.2]; simp) hb'
    · exact hs node a b c' hh

end History

/-! ### The invariant -/

variable {Tid Node : Type}

/-- The node a thread is pushing. -/
def Pc.pushing : Pc Node → Option Node
  | .pushLoad node | .pushWrite node _ | .pushCas node _ => some node
  | .idle | .popLoad | .popRead _ | .popCas _ _ => none

/-- The stack holds exactly the nodes of `l`, and these are the pushed ones. -/
structure Inv (l : List Node) (s : State Tid Node) : Prop where
  chain : Chain s.next s.head l
  nodup : l.Nodup
  stack : ∀ n, n ∈ l ↔ s.owner n = .stack
  pushed : ∀ n, s.owner n = .stack ↔ Pushed s.history n
  separated : PopsSeparated s.history
  pushing : ∀ t n, (s.pc t).pushing = some n → s.owner n = .thread t
  linked : ∀ t n current, s.pc t = .pushCas n current → s.next n = current

theorem inv_start : Inv [] (start : State Tid Node) where
  chain := rfl
  nodup := List.nodup_nil
  stack := by simp [start]
  pushed := by
    intro n
    constructor
    · simp [start]
    · rintro ⟨a, b, heq, -⟩
      simp [start] at heq
  separated := by
    intro node a b c heq
    simp [start] at heq
  pushing := by simp [start, Pc.pushing]
  linked := by simp [start]

variable {s s' : State Tid Node} {l : List Node} {t : Tid}

/-- The node a thread is pushing is not on the stack. -/
theorem Inv.notMem_of_pushing (h : Inv l s) {n : Node} (hn : (s.pc t).pushing = some n) :
    n ∉ l := by
  intro hmem
  have ho := h.pushing t n hn
  rw [(h.stack n).mp hmem] at ho
  simp at ho

section Step

variable [DecidableEq Tid]

/-- A step that moves a thread on without touching the stack. -/
theorem Inv.setPc (h : Inv l s) {pc : Pc Node}
    (hpush : ∀ n, pc.pushing = some n → s.owner n = .thread t)
    (hlink : ∀ n current, pc = .pushCas n current → s.next n = current) :
    Inv l (setPc s t pc) where
  chain := h.chain
  nodup := h.nodup
  stack := h.stack
  pushed := h.pushed
  separated := h.separated
  pushing := by
    intro t' n hn
    by_cases ht : t' = t
    · rw [ht] at hn ⊢
      exact hpush n (by simpa [TreiberStack.setPc] using hn)
    · refine h.pushing t' n ?_
      simpa [TreiberStack.setPc, Function.update_of_ne ht] using hn
  linked := by
    intro t' n current hn
    by_cases ht : t' = t
    · rw [ht] at hn
      exact hlink n current (by simpa [TreiberStack.setPc] using hn)
    · refine h.linked t' n current ?_
      simpa [TreiberStack.setPc, Function.update_of_ne ht] using hn

/-- A thread that is not pushing leaves nothing to check. -/
theorem Inv.setPc_quiet (h : Inv l s) {pc : Pc Node} (hpc : pc.pushing = none) :
    Inv l (TreiberStack.setPc s t pc) := by
  refine h.setPc (fun n hn => ?_) fun n current hn => ?_
  · rw [hpc] at hn
    simp at hn
  · rw [hn] at hpc
    simp [Pc.pushing] at hpc

/-- When a thread returns, the links of the others are as they wrote them. -/
theorem Inv.linked_idle (h : Inv l s) (t' : Tid) (n : Node) (current : Option Node)
    (hn : Function.update s.pc t .idle t' = .pushCas n current) : s.next n = current := by
  by_cases ht : t' = t
  · rw [ht, Function.update_self] at hn
    cases hn
  · rw [Function.update_of_ne ht] at hn
    exact h.linked t' n current hn

theorem Inv.popFrom (h : Inv l s) (current : Option Node) :
    Inv l (TreiberStack.popFrom s t current) := by
  cases current with
  | none => exact h.setPc_quiet rfl
  | some c => exact h.setPc_quiet rfl

variable [DecidableEq Node]

theorem stepPush_inv {node : Node} (h : Inv l s) (hs : stepPush s t node = some s') :
    Inv l s' := by
  unfold stepPush at hs
  split at hs
  · rename_i hok
    obtain rfl := Option.some.inj hs
    have hns : s.owner node ≠ .stack := by
      rcases hok.2 with ho | ho <;> rw [ho] <;> simp
    -- nobody else is pushing the node, since a thread pushes only what is its own
    have hown : ∀ n, Function.update s.owner node (.thread t) n = .stack ↔ s.owner n = .stack := by
      intro n
      by_cases hn : n = node
      · rw [hn, Function.update_self]
        simp [hns]
      · rw [Function.update_of_ne hn]
    have hbase : Inv l { s with owner := Function.update s.owner node (.thread t) } :=
      { h with
        stack := fun n => (h.stack n).trans (hown n).symm
        pushed := fun n => (hown n).trans (h.pushed n)
        pushing := by
          intro t' n hn
          have ho := h.pushing t' n hn
          by_cases hnn : n = node
          · rw [hnn] at ho
            rcases hok.2 with hf | ht
            · rw [hf] at ho
              simp at ho
            · rw [ht] at ho
              show Function.update s.owner node (.thread t) n = .thread t'
              rw [hnn, Function.update_self]
              exact ho
          · show Function.update s.owner node (.thread t) n = .thread t'
            rw [Function.update_of_ne hnn]
            exact ho }
    refine hbase.setPc (fun n hn => ?_) (by simp)
    obtain rfl : node = n := by simpa [Pc.pushing] using hn
    exact Function.update_self ..
  · simp at hs

theorem stepPop_inv (h : Inv l s) (hs : stepPop s t = some s') : Inv l s' := by
  unfold stepPop at hs
  split at hs
  · obtain rfl := Option.some.inj hs
    exact h.setPc_quiet rfl
  · simp at hs

theorem stepMove_inv (h : Inv l s) (hs : stepMove s t = some s') : Inv l s' := by
  unfold stepMove at hs
  cases hpc : s.pc t <;> simp only [hpc] at hs
  case pushLoad node =>
    obtain rfl := Option.some.inj hs
    refine h.setPc (fun n hn => h.pushing t n ?_) (by simp)
    rw [hpc]
    exact hn
  case pushWrite node current =>
    obtain rfl := Option.some.inj hs
    have hnot : node ∉ l := h.notMem_of_pushing (t := t) (by rw [hpc]; rfl)
    have hbase : Inv l { s with next := Function.update s.next node current } :=
      { h with
        chain := h.chain.update_of_notMem hnot
        linked := by
          intro t' n current' hn
          -- two threads are never pushing the same node
          by_cases hnn : n = node
          · have h₁ := h.pushing t' n (by rw [hn]; rfl)
            have h₂ := h.pushing t node (by rw [hpc]; rfl)
            rw [hnn, h₂] at h₁
            obtain rfl : t = t' := by simpa using h₁
            rw [hpc] at hn
            simp at hn
          · show Function.update s.next node current n = current'
            rw [Function.update_of_ne hnn]
            exact h.linked t' n current' hn }
    refine hbase.setPc (fun n hn => h.pushing t n (by rw [hpc]; exact hn)) ?_
    intro n current' hn
    obtain ⟨rfl, rfl⟩ : node = n ∧ current = current' := by simpa using hn
    exact Function.update_self ..
  case popLoad =>
    obtain rfl := Option.some.inj hs
    exact h.popFrom _
  case popRead current =>
    obtain rfl := Option.some.inj hs
    exact h.setPc_quiet rfl
  all_goals simp at hs

/-- And the nodes that they push are still their own. -/
theorem Inv.pushing_idle (h : Inv l s) {node : Node} {o : Owner Tid}
    (hother : ∀ t' ≠ t, s.owner node ≠ .thread t') (t' : Tid) (n : Node)
    (hn : (Function.update s.pc t .idle t').pushing = some n) :
    Function.update s.owner node o n = .thread t' := by
  by_cases ht : t' = t
  · rw [ht, Function.update_self] at hn
    simp [Pc.pushing] at hn
  · rw [Function.update_of_ne ht] at hn
    have ho := h.pushing t' n hn
    rw [Function.update_of_ne ?_]
    · exact ho
    · rintro rfl
      exact hother t' ht ho

/-- A swap that succeeds in a push puts the node in front. -/
theorem push_succeeds (h : Inv l s) {node : Node} {current : Option Node}
    (hpc : s.pc t = .pushCas node current) (hhead : s.head = current) :
    Inv (node :: l) (setPc { s with
      head := some node
      owner := Function.update s.owner node .stack
      history := s.history ++ [.push node] } t .idle) := by
  have hpush : (s.pc t).pushing = some node := by rw [hpc]; rfl
  have hnot : node ∉ l := h.notMem_of_pushing hpush
  refine {
    chain := ⟨rfl, ?_⟩
    nodup := List.nodup_cons.mpr ⟨hnot, h.nodup⟩
    stack := ?_
    pushed := ?_
    separated := separated_snoc_push h.separated
    pushing := ?_
    linked := h.linked_idle }
  · show Chain s.next (s.next node) l
    rw [h.linked t node current hpc, ← hhead]
    exact h.chain
  · intro n
    show n ∈ node :: l ↔ Function.update s.owner node .stack n = .stack
    by_cases hn : n = node
    · simp [hn]
    · rw [Function.update_of_ne hn, ← h.stack n]
      simp [hn]
  · intro n
    show Function.update s.owner node .stack n = .stack ↔ Pushed (s.history ++ [.push node]) n
    rw [pushed_snoc_push]
    by_cases hn : n = node
    · simp [hn]
    · rw [Function.update_of_ne hn, h.pushed n]
      simp [hn]
  · apply h.pushing_idle
    intro t' ht hc
    rw [h.pushing t node hpush] at hc
    exact ht (by simpa using hc.symm)

/-- A swap that succeeds in a pop takes the first node, if it installs that node's link. -/
theorem pop_succeeds (h : Inv l s) {current : Node} {next : Option Node}
    (hhead : s.head = some current) (hnext : s.next current = next) :
    ∃ l', Inv l' (setPc { s with
      head := next
      owner := Function.update s.owner current (.thread t)
      history := s.history ++ [.pop current] } t .idle) := by
  have hchain := h.chain
  rw [hhead] at hchain
  obtain ⟨rest, rfl, hrest⟩ := hchain.exists_cons_of_some
  have hon : s.owner current = .stack := (h.stack current).mp (by simp)
  have hnd := List.nodup_cons.mp h.nodup
  refine ⟨rest, {
    chain := by rw [← hnext]; exact hrest
    nodup := hnd.2
    stack := ?_
    pushed := ?_
    separated := separated_snoc_pop h.separated ((h.pushed current).mp hon)
    pushing := ?_
    linked := h.linked_idle }⟩
  · intro n
    show n ∈ rest ↔ Function.update s.owner current (.thread t) n = .stack
    by_cases hn : n = current
    · rw [hn, Function.update_self]
      simp [hnd.1]
    · rw [Function.update_of_ne hn, ← h.stack n]
      simp [hn]
  · intro n
    show Function.update s.owner current (.thread t) n = .stack ↔
      Pushed (s.history ++ [.pop current]) n
    rw [pushed_snoc_pop]
    by_cases hn : n = current
    · simp [hn]
    · rw [Function.update_of_ne hn, h.pushed n]
      simp [hn]
  · apply h.pushing_idle
    intro t' _ hc
    rw [hon] at hc
    simp at hc

theorem stepCas_inv {reload spurious : Bool} (h : Inv l s)
    (hg : LinkCurrent s (.cas t spurious)) (hs : stepCas reload s t spurious = some s') :
    ∃ l', Inv l' s' := by
  unfold stepCas at hs
  cases hpc : s.pc t <;> simp only [hpc] at hs
  case pushCas node current =>
    have hpush : ∀ n, (Pc.pushLoad node).pushing = some n → s.owner n = .thread t :=
      fun n hn => h.pushing t n (by rw [hpc]; exact hn)
    split at hs
    · rename_i hok
      obtain rfl := Option.some.inj hs
      exact ⟨_, push_succeeds h hpc hok.1⟩
    · split at hs
      · obtain rfl := Option.some.inj hs
        exact ⟨l, h.setPc hpush (by simp)⟩
      · obtain rfl := Option.some.inj hs
        exact ⟨l, h.setPc hpush (by simp)⟩
  case popCas current next =>
    split at hs
    · rename_i hok
      obtain ⟨hhead, rfl⟩ := hok
      obtain rfl := Option.some.inj hs
      simp only [LinkCurrent, hpc] at hg
      exact pop_succeeds h hhead (hg hhead)
    · split at hs
      · obtain rfl := Option.some.inj hs
        exact ⟨l, h.setPc_quiet rfl⟩
      · obtain rfl := Option.some.inj hs
        exact ⟨l, h.popFrom _⟩
  all_goals simp at hs

/-- Along a run whose pops install current links, the stack is the list of pushed nodes. -/
theorem reaches_inv {reload : Bool}
    (hs : (machine Tid Node reload).ReachesUnder LinkCurrent s) : ∃ l, Inv l s := by
  refine Machine.ReachesUnder.invariant (P := fun s => ∃ l, Inv l s) ⟨[], inv_start⟩ ?_ hs
  rintro s lab s' ⟨l, h⟩ hg hstep
  cases lab with
  | push t node => exact ⟨l, stepPush_inv h hstep⟩
  | pop t => exact ⟨l, stepPop_inv h hstep⟩
  | move t => exact ⟨l, stepMove_inv h hstep⟩
  | cas t spurious => exact stepCas_inv h hg hstep

/--
**The stack is exact along every run whose pops install current links.**  Two
pops of a node have a push of it in between, and a node whose push completed and
which no pop has taken since is reachable from the head.
-/
theorem stack_exact {reload : Bool}
    (hs : (machine Tid Node reload).ReachesUnder LinkCurrent s) : Exact s := by
  obtain ⟨l, h⟩ := reaches_inv hs
  refine ⟨h.separated, fun node hp => ?_⟩
  rw [h.chain.onChain_iff, h.stack node, h.pushed node]
  exact hp

end Step

/-! ### A run of two threads -/

/-- The decidable test for `LinkCurrent`. -/
def linkCurrentCheck (s : State Nat Nat) : Label Nat Nat → Bool
  | .cas t false =>
      match s.pc t with
      | .popCas current next => s.head != some current || s.next current == next
      | _ => true
  | _ => true

theorem linkCurrent_of_check (s : State Nat Nat) (l : Label Nat Nat)
    (h : linkCurrentCheck s l = true) : LinkCurrent s l := by
  cases l with
  | push t node => exact trivial
  | pop t => exact trivial
  | move t => exact trivial
  | cas t spurious =>
      cases spurious with
      | true => exact trivial
      | false =>
          cases hpc : s.pc t with
          | popCas current next =>
              simp only [linkCurrentCheck, hpc] at h
              simp only [LinkCurrent, hpc]
              intro heq
              simpa [heq] using h
          | idle => simp only [LinkCurrent, hpc]
          | pushLoad node => simp only [LinkCurrent, hpc]
          | pushWrite node current => simp only [LinkCurrent, hpc]
          | pushCas node current => simp only [LinkCurrent, hpc]
          | popLoad => simp only [LinkCurrent, hpc]
          | popRead current => simp only [LinkCurrent, hpc]

def pushAll (t node : Nat) : List (Label Nat Nat) :=
  [.push t node, .move t, .move t, .cas t false]

def popAll (t : Nat) : List (Label Nat Nat) := [.pop t, .move t, .move t, .cas t false]

/-- Thread 1 is about to pop node 1 when thread 0 pushes node 3, so it tries again and gets 3; it
pushes 3 back while thread 0 is inside a pop, and thread 0 gets that. -/
def pushedAgain : List (Label Nat Nat) := List.flatten [
  pushAll 0 2, pushAll 0 1, [.pop 1, .move 1, .move 1], pushAll 0 3,
  [.cas 1 false, .move 1, .cas 1 false], [.pop 0, .move 0, .move 0], pushAll 1 3,
  [.cas 0 false, .move 0, .cas 0 false], popAll 1, pushAll 1 1]

/-- Node 3 is popped twice and was pushed in between, node 1 comes back, and node 2 never left. -/
theorem stack_exact_pushed_again :
    ∃ s, (machine Nat Nat false).exec start pushedAgain = some s ∧
      s.history = [.push 2, .push 1, .push 3, .pop 3, .push 3, .pop 3, .pop 1, .push 1] ∧
      s.head = some 1 ∧ s.next 1 = some 2 ∧ Exact s := by
  have hrun : ((machine Nat Nat false).exec start pushedAgain).map
      (fun s => (s.history, s.head, s.next 1))
      = some ([.push 2, .push 1, .push 3, .pop 3, .push 3, .pop 3, .pop 1, .push 1],
        some 1, some 2) := by
    decide +kernel
  have hcheck : ((machine Nat Nat false).trace linkCurrentCheck start pushedAgain).all id = true := by
    decide +kernel
  obtain ⟨s, hs, hvals⟩ := Option.map_eq_some_iff.mp hrun
  obtain ⟨hhistory, hrest⟩ := Prod.mk.inj hvals
  obtain ⟨hhead, hnext⟩ := Prod.mk.inj hrest
  have hunder : (machine Nat Nat false).ReachesUnder LinkCurrent s :=
    Machine.exec_reachesUnder linkCurrent_of_check pushedAgain start s .init hs hcheck
  exact ⟨s, hs, hhistory, hhead, hnext, stack_exact hunder⟩

/--
The ABA run.  With node 1 above node 2, thread 0 starts a pop and reads that the
link of 1 is 2; thread 1 pops both and pushes 1 back; thread 0 swaps 2 in; and the
next pop returns 2, which thread 1 still has.
-/
theorem aba_double_pop :
    ∃ s, (machine Nat Nat false).Reaches s ∧
      s.history = [.push 2, .push 1, .pop 1, .pop 2, .push 1, .pop 1, .pop 2] ∧ ¬ Exact s := by
  refine ⟨_, ⟨[.push 0 2, .move 0, .move 0, .cas 0 false,
    .push 0 1, .move 0, .move 0, .cas 0 false,
    .pop 0, .move 0, .move 0,
    .pop 1, .move 1, .move 1, .cas 1 false,
    .pop 1, .move 1, .move 1, .cas 1 false,
    .push 1 1, .move 1, .move 1, .cas 1 false,
    .cas 0 false,
    .pop 1, .move 1, .move 1, .cas 1 false], rfl⟩, rfl, ?_⟩
  intro h
  have hb := h.1 2 [.push 2, .push 1, .pop 1] [.push 1, .pop 1] [] rfl
  simp at hb

end Aethalloc.TreiberStack
