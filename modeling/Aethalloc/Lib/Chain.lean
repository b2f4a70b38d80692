/-
Linked lists in a heap of `next` links.

`Chain next p l` says that following `next` from the pointer `p` visits exactly
the nodes of `l`, in order, and then ends at null.  A list a program keeps in
memory is tied to a mathematical one by this relation, and the lemmas below are
what list-manipulating code needs: a chain is determined by its head, a write to
a link off the chain does not disturb it, pushing and popping work at the head,
unlinking a node rewrites its predecessor, and a chain can be cut at a node and go
on elsewhere.
-/
import Mathlib.Data.List.Nodup
import Mathlib.Logic.Function.Basic

namespace Lib

variable {α : Type*}

/-- Following `next` from `p` visits exactly the nodes of the list and ends at null. -/
def Chain (next : α → Option α) : Option α → List α → Prop
  | p, [] => p = none
  | p, a :: l => p = some a ∧ Chain next (next a) l

/-- The pointer some links further on; past the end it is null. -/
def follow (next : α → Option α) : Nat → Option α → Option α
  | 0, p => p
  | _ + 1, none => none
  | n + 1, some a => follow next n (next a)

namespace Chain

variable {next next' : α → Option α} {p : Option α} {a : α} {l l' : List α}

@[simp] theorem nil_iff : Chain next p [] ↔ p = none := Iff.rfl

@[simp] theorem cons_iff : Chain next p (a :: l) ↔ p = some a ∧ Chain next (next a) l := Iff.rfl

/-- The empty pointer starts the empty list only. -/
theorem eq_nil_of_none (h : Chain next none l) : l = [] := by
  cases l with
  | nil => rfl
  | cons a l => exact absurd h.1 (by simp)

/-- A chain from a node starts with that node. -/
theorem exists_cons_of_some (h : Chain next (some a) l) :
    ∃ rest, l = a :: rest ∧ Chain next (next a) rest := by
  cases l with
  | nil => exact absurd h (by simp)
  | cons b rest =>
      obtain ⟨hb, hrest⟩ := h
      obtain rfl : a = b := by simpa using hb
      exact ⟨rest, rfl, hrest⟩

/-- The head determines the list. -/
theorem unique : ∀ {l l' : List α} {p : Option α}, Chain next p l → Chain next p l' → l = l' := by
  intro l
  induction l with
  | nil =>
      intro l' p h h'
      rw [nil_iff] at h
      rw [h] at h'
      exact (eq_nil_of_none h').symm
  | cons a rest ih =>
      intro l' p h h'
      obtain ⟨hp, hrest⟩ := h
      rw [hp] at h'
      obtain ⟨rest', hl', hrest'⟩ := exists_cons_of_some h'
      rw [hl', ih hrest hrest']

/-- Links that agree on the nodes of a chain carry the same chain. -/
theorem congr : ∀ {l : List α} {p : Option α}, Chain next p l →
    (∀ b ∈ l, next' b = next b) → Chain next' p l := by
  intro l
  induction l with
  | nil => intro p h _; exact h
  | cons a rest ih =>
      intro p h hagree
      refine ⟨h.1, ?_⟩
      rw [hagree a (by simp)]
      exact ih h.2 fun b hb => hagree b (by simp [hb])

/-- From a node of a chain on, the rest is a chain. -/
theorem tail_of_append : ∀ {pre post : List α} {p : Option α},
    Chain next p (pre ++ a :: post) → Chain next (next a) post := by
  intro pre
  induction pre with
  | nil => intro post p h; exact h.2
  | cons b pre ih => intro post p h; exact ih h.2

/-- As many links on as there are nodes before it, a node is met. -/
theorem follow_append : ∀ {pre post : List α} {p : Option α},
    Chain next p (pre ++ a :: post) → follow next pre.length p = some a := by
  intro pre
  induction pre with
  | nil => intro post p h; exact h.1
  | cons b pre ih =>
      intro post p h
      obtain ⟨rfl, hrest⟩ := h
      exact ih hrest

/-- When the link of a node is redirected to another chain, that is how the chain goes on. -/
theorem relink : ∀ {pre post : List α} {p : Option α}, Chain next p (pre ++ a :: post) →
    (∀ b ∈ pre, next' b = next b) → Chain next' (next' a) l → Chain next' p (pre ++ a :: l) := by
  intro pre
  induction pre with
  | nil => intro post p h _ hl; exact ⟨h.1, hl⟩
  | cons b pre ih =>
      intro post p h hagree hl
      refine ⟨h.1, ?_⟩
      rw [hagree b (by simp)]
      exact ih h.2 (fun c hc => hagree c (by simp [hc])) hl

section Update

variable [DecidableEq α] {v : Option α}

/-- A write to a link off the chain leaves the chain alone. -/
theorem update_of_notMem (h : Chain next p l) (ha : a ∉ l) :
    Chain (Function.update next a v) p l := by
  refine h.congr fun b hb => ?_
  exact Function.update_of_ne (fun hc => ha (by rw [← hc]; exact hb)) _ _

/-- Linking a node that is not on the chain in front of it. -/
theorem push (h : Chain next p l) (ha : a ∉ l) :
    Chain (Function.update next a p) (some a) (a :: l) := by
  refine ⟨rfl, ?_⟩
  rw [Function.update_self]
  exact h.update_of_notMem ha

end Update

/--
Unlinking: when the link of a chain's node `a` is redirected past its successor
`b`, the chain loses exactly `b`.
-/
theorem unlink : ∀ {pre post : List α} {p : Option α} {a b : α},
    Chain next p (pre ++ a :: b :: post) → (pre ++ a :: b :: post).Nodup →
    next' a = next b → (∀ c ∈ pre ++ a :: b :: post, c ≠ a → next' c = next c) →
    Chain next' p (pre ++ a :: post) := by
  intro pre
  induction pre with
  | nil =>
      intro post p a b h hnd hab hframe
      obtain ⟨hp, ha, hb⟩ := h
      refine ⟨hp, ?_⟩
      rw [hab]
      refine Chain.congr hb fun c hc => hframe c (by simp [hc]) ?_
      rintro rfl
      simp [hc] at hnd
  | cons c pre ih =>
      intro post p a b h hnd hab hframe
      obtain ⟨hp, hrest⟩ := h
      have hca : c ≠ a := by
        rintro rfl
        simp at hnd
      refine ⟨hp, ?_⟩
      rw [hframe c (by simp) hca]
      exact ih hrest (List.Nodup.of_cons hnd) hab fun d hd => hframe d (List.mem_cons_of_mem c hd)

end Chain

/-- Some number of `next` steps leads from the pointer to the node. -/
inductive OnChain (next : α → Option α) : Option α → α → Prop
  | here (a : α) : OnChain next (some a) a
  | there {a b : α} (h : OnChain next (next a) b) : OnChain next (some a) b

/-- On a chain, the nodes reached are exactly the nodes of the list. -/
theorem Chain.onChain_iff {next : α → Option α} {b : α} : ∀ {l : List α} {p : Option α},
    Chain next p l → (OnChain next p b ↔ b ∈ l) := by
  intro l
  induction l with
  | nil =>
      intro p h
      rw [nil_iff] at h
      subst h
      constructor
      · intro hc; cases hc
      · simp
  | cons a rest ih =>
      intro p h
      obtain ⟨rfl, hrest⟩ := h
      rw [List.mem_cons, ← ih hrest]
      constructor
      · intro hc
        cases hc with
        | here => exact Or.inl rfl
        | there hc => exact Or.inr hc
      · rintro (rfl | hc)
        · exact OnChain.here b
        · exact OnChain.there hc

end Lib
