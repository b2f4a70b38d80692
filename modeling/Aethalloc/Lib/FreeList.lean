/-
Lists that run through the memory they manage.

An allocator that keeps free blocks on a list stores the link to the next one
inside the block itself.  `Link` is what such a field must do: it takes up the
first bytes of the block, reading it looks at no others, writing it changes no
others, and what was written reads back.  A list is then a `Chain` of the links as
memory has them, and it survives every write that stays off the link fields.

Two fields are given: a pointer for which null says that there is no next block,
and a word that says whether the word after it is one.
-/
import Aethalloc.Lib.Memory
import Aethalloc.Lib.Chain

namespace Lib

/-- A field at the start of a block that holds the address of another block, or nothing. -/
structure Link where
  width : Nat
  read : Mem → Nat → Option Nat
  write : Mem → Nat → Option Nat → Mem
  /-- What the field can hold. -/
  Fits : Option Nat → Prop
  read_congr : ∀ {m m' : Mem} {a : Nat}, (∀ x, a ≤ x → x < a + width → m' x = m x) →
    read m' a = read m a
  write_outside : ∀ {m : Mem} {a x : Nat} {p : Option Nat}, ¬ (a ≤ x ∧ x < a + width) →
    write m a p x = m x
  read_write : ∀ {m : Mem} {a : Nat} {p : Option Nat}, Fits p → read (write m a p) a = p

namespace Link

/-- A nullable pointer. -/
def pointer : Link where
  width := 8
  read m a := if m.read a 8 = 0 then none else some (m.read a 8)
  write m a p := m.write a 8 (p.getD 0)
  Fits p := ∀ v ∈ p, v ≠ 0 ∧ v < 2 ^ 64
  read_congr h := by rw [Mem.read_congr h]
  write_outside h := Mem.write_outside h
  read_write := by
    intro m a p hfits
    cases p with
    | none => rw [Option.getD_none, Mem.read_write (by decide), if_pos rfl]
    | some v =>
        obtain ⟨hnz, hlt⟩ := hfits v rfl
        rw [Option.getD_some, Mem.read_write hlt, if_neg hnz]

/-- A tag, 0 or 1, and after it the value if the tag is 1. -/
def tagged : Link where
  width := 16
  read m a := if m.read a 8 = 0 then none else some (m.read (a + 8) 8)
  write m a
    | none => m.write a 8 0
    | some v => (m.write a 8 1).write (a + 8) 8 v
  Fits p := ∀ v ∈ p, v < 2 ^ 64
  read_congr := by
    intro m m' a h
    have htag : m'.read a 8 = m.read a 8 :=
      Mem.read_congr fun x h1 h2 => h x h1 (by omega)
    have hvalue : m'.read (a + 8) 8 = m.read (a + 8) 8 :=
      Mem.read_congr fun x h1 h2 => h x (by omega) (by omega)
    rw [htag, hvalue]
  write_outside := by
    intro m a x p h
    cases p with
    | none => exact Mem.write_outside (by omega)
    | some v =>
        show (m.write a 8 1).write (a + 8) 8 v x = m x
        rw [Mem.write_outside (by omega), Mem.write_outside (by omega)]
  read_write := by
    intro m a p hfits
    cases p with
    | none =>
        show (if (m.write a 8 0).read a 8 = 0 then none else _) = _
        rw [Mem.read_write (by decide), if_pos rfl]
    | some v =>
        have htag : ((m.write a 8 1).write (a + 8) 8 v).read a 8 = 1 := by
          rw [Mem.read_write_of_disjoint (by omega), Mem.read_write (by decide)]
        show (if ((m.write a 8 1).write (a + 8) 8 v).read a 8 = 0 then none
          else some (((m.write a 8 1).write (a + 8) 8 v).read (a + 8) 8)) = some v
        rw [htag, if_neg (by decide), Mem.read_write (hfits v rfl)]

@[simp] theorem pointer_width : pointer.width = 8 := rfl

@[simp] theorem tagged_width : tagged.width = 16 := rfl

variable {K : Link} {m m' : Mem} {p : Option Nat} {a : Nat} {l : List Nat}

theorem pointer_fits : pointer.Fits p ↔ ∀ v ∈ p, v ≠ 0 ∧ v < 2 ^ 64 := Iff.rfl

theorem tagged_fits : tagged.Fits p ↔ ∀ v ∈ p, v < 2 ^ 64 := Iff.rfl

theorem pointer_outside {x : Nat} (h : ¬ (a ≤ x ∧ x < a + 8)) : pointer.write m a p x = m x :=
  pointer.write_outside h

-- what the fields do is known from the laws; comparing states must not compute them
attribute [irreducible] pointer tagged

/-- Memory that agrees on the links of a list carries the same list. -/
theorem chain_congr (h : Chain (K.read m) p l)
    (hagree : ∀ b ∈ l, ∀ x, b ≤ x → x < b + K.width → m' x = m x) : Chain (K.read m') p l :=
  h.congr fun b hb => K.read_congr (hagree b hb)

/-- Writing the link of a block that is not on a list leaves the list alone. -/
theorem chain_write {q : Option Nat} (h : Chain (K.read m) p l)
    (hapart : ∀ b ∈ l, b + K.width ≤ a ∨ a + K.width ≤ b) :
    Chain (K.read (K.write m a q)) p l := by
  refine chain_congr h fun b hb x h1 h2 => K.write_outside ?_
  have := hapart b hb
  omega

/-- Putting a block in front of a list: its link is written, the head moves. -/
theorem chain_push (h : Chain (K.read m) p l) (hfits : K.Fits p)
    (hapart : ∀ b ∈ l, b + K.width ≤ a ∨ a + K.width ≤ b) :
    Chain (K.read (K.write m a p)) (some a) (a :: l) := by
  refine ⟨rfl, ?_⟩
  rw [K.read_write hfits]
  exact chain_write h hapart

/-- Writing the link of a block of a list: up to there the list stays, and then goes on with the
list written. -/
theorem chain_relink {pre post : List Nat} {q : Option Nat}
    (h : Chain (K.read m) p (pre ++ a :: post)) (hl : Chain (K.read m) q l) (hfits : K.Fits q)
    (hpre : ∀ b ∈ pre, b + K.width ≤ a ∨ a + K.width ≤ b)
    (hapart : ∀ b ∈ l, b + K.width ≤ a ∨ a + K.width ≤ b) :
    Chain (K.read (K.write m a q)) p (pre ++ a :: l) := by
  refine h.relink (fun b hb => K.read_congr fun x h1 h2 => K.write_outside ?_) ?_
  · have := hpre b hb
    omega
  · rw [K.read_write hfits]
    exact chain_write hl hapart

end Link

end Lib
