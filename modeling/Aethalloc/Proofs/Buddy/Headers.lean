/-
Block headers in memory, and the free lists that run through them.

A header is sixteen bytes at the start of a block.  What a write to one field
leaves alone is said once here: the other fields of the same header, and every
header far enough away.  `Lists` ties the heads and the headers to mathematical
lists, one for each order, and the lemmas say how it moves when a block joins a
list, leaves its head or leaves its middle.  Nothing here knows that the blocks
tile a region; the lemmas only ask that headers do not overlap.
-/
import Aethalloc.Core.Buddy

namespace Aethalloc.Buddy

open Lib

variable {m m' : Mem} {a b o : Nat}

/-! ### What a header write changes -/

/-- The header at `a` reads the same in both memories. -/
def SameHeader (m m' : Mem) (a : Nat) : Prop := ∀ x, a ≤ x → x < a + HEADER_SIZE → m' x = m x

/-- The memories differ in the header at `b` at most. -/
def OnlyHeader (m m' : Mem) (b : Nat) : Prop :=
  ∀ x, ¬ (b ≤ x ∧ x < b + HEADER_SIZE) → m' x = m x

/-- The headers at `a` and `b` do not overlap. -/
def Far (a b : Nat) : Prop := a + HEADER_SIZE ≤ b ∨ b + HEADER_SIZE ≤ a

theorem Far.symm (h : Far a b) : Far b a := Or.symm h

theorem Far.ne (h : Far a b) : a ≠ b := by
  unfold Far HEADER_SIZE at h
  omega

theorem OnlyHeader.same (h : OnlyHeader m m' b) (hf : Far a b) : SameHeader m m' a := by
  intro x h1 h2
  refine h x ?_
  unfold Far at hf
  omega

theorem OnlyHeader.trans {m'' : Mem} (h : OnlyHeader m m' b) (h' : OnlyHeader m' m'' b) :
    OnlyHeader m m'' b := fun x hx => (h' x hx).trans (h x hx)

theorem SameHeader.trans {m'' : Mem} (h : SameHeader m m' a) (h' : SameHeader m' m'' a) :
    SameHeader m m'' a := fun x h1 h2 => (h' x h1 h2).trans (h x h1 h2)

theorem SameHeader.order (h : SameHeader m m' a) : order m' a = order m a := by
  unfold Buddy.order
  rw [h a (Nat.le_refl a) (by unfold HEADER_SIZE; omega)]

theorem SameHeader.isFree (h : SameHeader m m' a) : isFree m' a = isFree m a := by
  unfold Buddy.isFree
  rw [h (a + 1) (by omega) (by unfold HEADER_SIZE; omega)]

theorem SameHeader.next (h : SameHeader m m' a) : next m' a = next m a := by
  unfold Buddy.next
  rw [Mem.read_congr fun x h1 h2 => h x (by omega) (by unfold HEADER_SIZE; omega)]

theorem onlyHeader_setOrder : OnlyHeader m (setOrder m b o) b := by
  intro x hx
  refine Mem.write_outside ?_
  unfold HEADER_SIZE at hx
  omega

theorem onlyHeader_setIsFree {f : Bool} : OnlyHeader m (setIsFree m b f) b := by
  intro x hx
  refine Mem.write_outside ?_
  unfold HEADER_SIZE at hx
  omega

theorem onlyHeader_setNext {p : Option Nat} : OnlyHeader m (setNext m b p) b := by
  intro x hx
  refine Mem.write_outside ?_
  unfold HEADER_SIZE at hx
  omega

theorem onlyHeader_writeHeader {f : Bool} {p : Option Nat} :
    OnlyHeader m (writeHeader m b o f p) b :=
  (onlyHeader_setOrder.trans onlyHeader_setIsFree).trans onlyHeader_setNext

/-! ### Reading a header field after a write -/

@[simp] theorem order_setOrder (h : o < 256) : order (setOrder m a o) a = o := by
  simp [order, setOrder, Mem.write, Nat.mod_eq_of_lt h]

@[simp] theorem isFree_setOrder : isFree (setOrder m a o) a = isFree m a := by
  unfold isFree setOrder
  rw [Mem.write_outside (by omega)]

@[simp] theorem next_setOrder : next (setOrder m a o) a = next m a := by
  unfold next setOrder
  rw [Mem.read_write_of_disjoint (by omega)]

@[simp] theorem order_setIsFree {f : Bool} : order (setIsFree m a f) a = order m a := by
  unfold order setIsFree
  rw [Mem.write_outside (by omega)]

@[simp] theorem isFree_setIsFree {f : Bool} : isFree (setIsFree m a f) a = f := by
  cases f <;> simp [isFree, setIsFree, Mem.write]

@[simp] theorem order_setNext {p : Option Nat} : order (setNext m a p) a = order m a := by
  unfold order setNext
  rw [Mem.write_outside (by omega)]

@[simp] theorem isFree_setNext {p : Option Nat} : isFree (setNext m a p) a = isFree m a := by
  unfold isFree setNext
  rw [Mem.write_outside (by omega)]

/-- A pointer that survives being stored: null, or a nonzero word. -/
def Storable (p : Option Nat) : Prop := ∀ a, p = some a → a ≠ 0 ∧ a < 2 ^ 64

@[simp] theorem next_setNext {p : Option Nat} (h : Storable p) : next (setNext m a p) a = p := by
  have hword : toPtr p < 256 ^ 8 := by
    cases p with
    | none => decide
    | some c => exact (h c rfl).2
  unfold next setNext
  rw [Mem.read_write hword]
  cases p with
  | none => rfl
  | some c => exact if_neg (h c rfl).1

/-- What one turn of `split` writes: the header of the upper half `b`, and the order of the lower
half `a`. -/
def splitMem (m : Mem) (a b o : Nat) (p : Option Nat) : Mem :=
  setNext (setOrder (writeHeader m b o true none) a o) b p

theorem splitMem_same {c : Nat} {p : Option Nat} (hca : Far c a) (hcb : Far c b) :
    SameHeader m (splitMem m a b o p) c :=
  ((onlyHeader_writeHeader.same hcb).trans (onlyHeader_setOrder.same hca)).trans
    (onlyHeader_setNext.same hcb)

theorem splitMem_upper {p : Option Nat} (hba : Far b a) (ho : o < 256) (hp : Storable p) :
    order (splitMem m a b o p) b = o ∧ isFree (splitMem m a b o p) b = true ∧
      next (splitMem m a b o p) b = p := by
  have hsame : SameHeader (writeHeader m b o true none)
      (setOrder (writeHeader m b o true none) a o) b := onlyHeader_setOrder.same hba
  unfold splitMem
  refine ⟨?_, ?_, next_setNext hp⟩
  · rw [order_setNext, hsame.order]
    simp [writeHeader, ho]
  · rw [isFree_setNext, hsame.isFree]
    simp [writeHeader]

theorem splitMem_lower {p : Option Nat} (hab : Far a b) (ho : o < 256) :
    order (splitMem m a b o p) a = o ∧ isFree (splitMem m a b o p) a = isFree m a := by
  have hlast : SameHeader (setOrder (writeHeader m b o true none) a o) (splitMem m a b o p) a :=
    onlyHeader_setNext.same hab
  have hfirst : SameHeader m (writeHeader m b o true none) a := onlyHeader_writeHeader.same hab
  rw [hlast.order, hlast.isFree, order_setOrder ho, isFree_setOrder, hfirst.isFree]
  exact ⟨rfl, rfl⟩

/-! ### The free lists -/

/-- The lists behind the heads, and the headers of the blocks on them. -/
structure Lists (F : Nat → List Nat) (m : Mem) (heads : Nat → Option Nat) : Prop where
  chain : ∀ i < NUM_ORDERS, Chain (next m) (heads i) (F i)
  header : ∀ i < NUM_ORDERS, ∀ a ∈ F i, order m a = MIN_ORDER + i ∧ isFree m a = true

namespace Lists

variable {F : Nat → List Nat} {heads : Nat → Option Nat} {i : Nat}

/-- Memories that agree on the headers on the lists carry the same lists. -/
theorem frame (h : Lists F m heads) (hsame : ∀ i < NUM_ORDERS, ∀ a ∈ F i, SameHeader m m' a) :
    Lists F m' heads where
  chain i hi := (h.chain i hi).congr fun a ha => (hsame i hi a ha).next
  header i hi a ha := by
    rw [(hsame i hi a ha).order, (hsame i hi a ha).isFree]
    exact h.header i hi a ha

/-- One list replaced by another chain of blocks of its order. -/
theorem set {l : List Nat} {p : Option Nat} (h : Lists F m heads)
    (hchain : i < NUM_ORDERS → Chain (next m) p l)
    (hheader : i < NUM_ORDERS → ∀ a ∈ l, order m a = MIN_ORDER + i ∧ isFree m a = true) :
    Lists (Function.update F i l) m (Function.update heads i p) where
  chain j hj := by
    by_cases hij : j = i
    · subst hij
      rw [Function.update_self, Function.update_self]
      exact hchain hj
    · rw [Function.update_of_ne hij, Function.update_of_ne hij]
      exact h.chain j hj
  header j hj c hc := by
    by_cases hij : j = i
    · subst hij
      rw [Function.update_self] at hc
      exact hheader hj c hc
    · rw [Function.update_of_ne hij] at hc
      exact h.header j hj c hc

/-- A block whose header is ready, put in front of the list of its order. -/
theorem push (h : Lists F m heads) (hnext : next m a = heads i)
    (hheader : order m a = MIN_ORDER + i ∧ isFree m a = true) :
    Lists (Function.update F i (a :: F i)) m (Function.update heads i (some a)) := by
  apply h.set
  · intro hi
    rw [Chain.cons_iff, hnext]
    exact ⟨rfl, h.chain i hi⟩
  · intro hi c hc
    rcases List.mem_cons.mp hc with rfl | hc
    · exact hheader
    · exact h.header i hi c hc

/-- The head of a list, taken off. -/
theorem pop {rest : List Nat} (h : Lists F m heads) (hi : i < NUM_ORDERS) (hF : F i = a :: rest) :
    Lists (Function.update F i rest) m (Function.update heads i (next m a)) := by
  have hchain := h.chain i hi
  rw [hF] at hchain
  apply h.set
  · intro _
    exact hchain.2
  · intro _ c hc
    refine h.header i hi c ?_
    rw [hF]
    exact List.mem_cons_of_mem a hc

/-- A list's node whose link is redirected past its successor: the successor is off the list. -/
theorem unlink {pre post : List Nat} (h : Lists F m heads) (hi : i < NUM_ORDERS)
    (hF : F i = pre ++ a :: b :: post) (hnd : (F i).Nodup) (hb : Storable (next m b))
    (hfar : ∀ j < NUM_ORDERS, ∀ c ∈ F j, (c ≠ a ∨ j ≠ i) → Far c a) :
    Lists (Function.update F i (pre ++ a :: post)) (setNext m a (next m b)) heads where
  chain j hj := by
    have hsame : ∀ c ∈ F j, (c ≠ a ∨ j ≠ i) → next (setNext m a (next m b)) c = next m c :=
      fun c hc hne => (onlyHeader_setNext.same (hfar j hj c hc hne)).next
    by_cases hij : j = i
    · subst hij
      rw [Function.update_self]
      have hchain := h.chain j hj
      rw [hF] at hchain hnd
      refine hchain.unlink hnd (next_setNext hb) fun c hc hne => hsame c ?_ (Or.inl hne)
      rw [hF]
      exact hc
    · rw [Function.update_of_ne hij]
      exact (h.chain j hj).congr fun c hc => hsame c hc (Or.inr hij)
  header j hj c hc := by
    have hcF : c ∈ F j := by
      by_cases hij : j = i
      · subst hij
        rw [Function.update_self] at hc
        rw [hF]
        simp only [List.mem_append, List.mem_cons] at hc ⊢
        tauto
      · rw [Function.update_of_ne hij] at hc
        exact hc
    by_cases hca : c = a ∧ j = i
    · rw [hca.1, order_setNext, isFree_setNext, ← hca.1]
      exact h.header j hj c hcF
    · have hsame : SameHeader m (setNext m a (next m b)) c :=
        onlyHeader_setNext.same (hfar j hj c hcF (by tauto))
      rw [hsame.order, hsame.isFree]
      exact h.header j hj c hcF

end Lists

end Aethalloc.Buddy
