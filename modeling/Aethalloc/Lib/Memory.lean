/-
Byte memory.

Memory maps addresses to bytes; a word is read and written little-endian.  Code
that keeps its headers in the memory it hands out reads the same bytes at
different widths, so the byte is the only honest unit.  A write is described by
two facts: inside its range the value reads back, outside nothing changes.
-/
import Mathlib.Tactic.Ring

namespace Lib

/-- The contents of memory, address by address. -/
abbrev Mem := Nat → UInt8

/-- The address in a nullable pointer, 0 for null. -/
def toPtr (p : Option Nat) : Nat := p.getD 0

def ofPtr (v : Nat) : Option Nat := if v = 0 then none else some v

namespace Mem

/-- The little-endian value of the `n` bytes from `a` on. -/
def read (m : Mem) (a : Nat) : Nat → Nat
  | 0 => 0
  | n + 1 => (m a).toNat + 256 * read m (a + 1) n

/-- Write the low `n` bytes of `v` from `a` on. -/
def write (m : Mem) (a n v : Nat) : Mem := fun x =>
  if a ≤ x ∧ x < a + n then UInt8.ofNat (v / 256 ^ (x - a)) else m x

/-- Set `n` bytes from `a` on to `b`. -/
def fill (m : Mem) (a n : Nat) (b : UInt8) : Mem := fun x =>
  if a ≤ x ∧ x < a + n then b else m x

/-- Copy `n` bytes from `src` to `dst`. -/
def copy (m : Mem) (src dst n : Nat) : Mem := fun x =>
  if dst ≤ x ∧ x < dst + n then m (src + (x - dst)) else m x

variable {m m' : Mem} {a n v x : Nat}

theorem write_outside (h : ¬ (a ≤ x ∧ x < a + n)) : m.write a n v x = m x := if_neg h

theorem fill_outside {b : UInt8} (h : ¬ (a ≤ x ∧ x < a + n)) : m.fill a n b x = m x := if_neg h

theorem copy_outside {src : Nat} (h : ¬ (a ≤ x ∧ x < a + n)) : m.copy src a n x = m x := if_neg h

theorem copy_inside {src : Nat} (h : a ≤ x ∧ x < a + n) : m.copy src a n x = m (src + (x - a)) :=
  if_pos h

/-- Bytes that were copied elsewhere come back by copying them back, whatever happened to them
meanwhile. -/
theorem copy_back {src tmp : Nat} (hsaved : ∀ y, tmp ≤ y → y < tmp + n → m' y = m.copy src tmp n y)
    (hx : src ≤ x ∧ x < src + n) : m'.copy tmp src n x = m x := by
  have hin : tmp ≤ tmp + (x - src) ∧ tmp + (x - src) < tmp + n := by omega
  rw [copy_inside hx, hsaved _ hin.1 hin.2, copy_inside hin]
  congr 1
  omega

/-- A read depends only on the bytes it reads. -/
theorem read_congr : ∀ {n a : Nat}, (∀ x, a ≤ x → x < a + n → m' x = m x) →
    m'.read a n = m.read a n := by
  intro n
  induction n with
  | zero => intro a _; rfl
  | succ n ih =>
      intro a h
      have htail : m'.read (a + 1) n = m.read (a + 1) n :=
        ih fun x h1 h2 => h x (by omega) (by omega)
      show (m' a).toNat + 256 * m'.read (a + 1) n = (m a).toNat + 256 * m.read (a + 1) n
      rw [h a (Nat.le_refl a) (by omega), htail]

/-- A write elsewhere does not disturb a read. -/
theorem read_write_of_disjoint {b k : Nat} (h : a + n ≤ b ∨ b + k ≤ a) :
    (m.write b k v).read a n = m.read a n :=
  read_congr fun x h1 h2 => write_outside (by omega)

/-- The low bytes of what is written read back. -/
theorem read_write_mod : ∀ {n a v : Nat}, (m.write a n v).read a n = v % 256 ^ n := by
  intro n
  induction n with
  | zero =>
      intro a v
      rw [Nat.pow_zero, Nat.mod_one]
      rfl
  | succ n ih =>
      intro a v
      have hfirst : (m.write a (n + 1) v a).toNat = v % 256 := by
        unfold write
        rw [if_pos ⟨Nat.le_refl a, by omega⟩, Nat.sub_self, Nat.pow_zero, Nat.div_one]
        simp
      -- the bytes after the first are those of the quotient
      have hrest : (m.write a (n + 1) v).read (a + 1) n
          = (m.write (a + 1) n (v / 256)).read (a + 1) n := by
        refine read_congr fun x h1 h2 => ?_
        unfold write
        rw [if_pos ⟨by omega, by omega⟩, if_pos ⟨h1, h2⟩, Nat.div_div_eq_div_mul,
          show x - a = (x - (a + 1)) + 1 by omega, Nat.pow_succ, Nat.mul_comm]
      show (m.write a (n + 1) v a).toNat + 256 * (m.write a (n + 1) v).read (a + 1) n
        = v % 256 ^ (n + 1)
      rw [hfirst, hrest, ih, Nat.pow_succ', Nat.mod_mul]

/-- What is written reads back. -/
theorem read_write (h : v < 256 ^ n) : (m.write a n v).read a n = v := by
  rw [read_write_mod, Nat.mod_eq_of_lt h]

/-- The low bytes of a value that was written, read at a smaller width. -/
theorem read_prefix {k : Nat} : ∀ {n a : Nat}, m.read a n = m.read a (n + k) % 256 ^ n := by
  intro n
  induction n with
  | zero =>
      intro a
      show 0 = _
      rw [Nat.pow_zero, Nat.mod_one]
  | succ n ih =>
      intro a
      have hbyte : (m a).toNat < 256 := UInt8.toNat_lt (m a)
      have htail : m.read (a + 1) n = m.read (a + 1) (n + k) % 256 ^ n := ih
      rw [show n + 1 + k = (n + k) + 1 by omega]
      show (m a).toNat + 256 * m.read (a + 1) n
        = ((m a).toNat + 256 * m.read (a + 1) (n + k)) % 256 ^ (n + 1)
      rw [htail, Nat.pow_succ, Nat.mul_comm (256 ^ n) 256, Nat.mod_mul,
        Nat.add_mul_mod_self_left, Nat.mod_eq_of_lt hbyte,
        Nat.add_mul_div_left _ _ (by decide), Nat.div_eq_of_lt hbyte, Nat.zero_add]

end Mem

end Lib
