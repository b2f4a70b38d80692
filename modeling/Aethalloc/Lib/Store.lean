/-
Memory as the client of an allocator sees it.

A client holds pointers, and at each of them a number of bytes.  That is all it
knows: a `Store` maps every pointer held to the bytes there.  What an allocator may
do to it is said without a word about how: a request is refused and changes
nothing, or it is granted at an address whose range touches nothing that is held.

`Store.view` is the store that memory shows, given the ranges the client holds.
The lemmas say how the store follows when a range is added or dropped and when
bytes are written; they ask of memory only what happens inside the ranges.
-/
import Mathlib.Logic.Function.Basic
import Mathlib.Algebra.Group.Nat.Defs
import Aethalloc.Lib.Memory

namespace Lib

/-- The bytes held at each pointer. -/
abbrev Store := Nat → Option (List UInt8)

namespace Store

def empty : Store := fun _ => none

/-- The address is in a range that is held. -/
def Held (s : Store) (x : Nat) : Prop := ∃ p bs, s p = some bs ∧ p ≤ x ∧ x < p + bs.length

/-- The client gets the bytes at the pointer. -/
def put (s : Store) (p : Nat) (bs : List UInt8) : Store := Function.update s p (some bs)

/-- The client gives the pointer back. -/
def remove (s : Store) (p : Nat) : Store := Function.update s p none

/-- Every byte held becomes what `f` makes of it and of its address. -/
def modify (s : Store) (f : Nat → UInt8 → UInt8) : Store := fun p =>
  (s p).map (List.mapIdx fun i b => f (p + i) b)

/-- One byte is written. -/
def poke (s : Store) (addr : Nat) (byte : UInt8) : Store :=
  s.modify fun x b => if x = addr then byte else b

/-- A little-endian word of `n` bytes is written. -/
def write (s : Store) (addr n v : Nat) : Store :=
  s.modify fun x b =>
    if addr ≤ x ∧ x < addr + n then UInt8.ofNat (v / 256 ^ (x - addr)) else b

/-- An address that `n` bytes may be granted at. -/
structure Vacant (s : Store) (align p n : Nat) : Prop where
  notNull : p ≠ 0
  aligned : align ∣ p
  inSpace : p + n ≤ 2 ^ 64
  apart : ∀ x, p ≤ x → x < p + n → ¬ s.Held x

/-- What a request for `n` bytes may come to, when they have to meet `ok`. -/
inductive Alloc (s : Store) (align n : Nat) (ok : List UInt8 → Prop) : Option Nat → Store → Prop
  | refused : Alloc s align n ok none s
  | granted {p : Nat} {bs : List UInt8} (hpos : 0 < n) (hp : s.Vacant align p n)
      (hlen : bs.length = n) (hok : ok bs) : Alloc s align n ok (some p) (s.put p bs)

/-! ### What memory shows -/

/-- A range the client holds. -/
structure Range where
  ptr : Nat
  size : Nat
  deriving DecidableEq

def Range.Has (r : Range) (x : Nat) : Prop := r.ptr ≤ x ∧ x < r.ptr + r.size

/-- The address is in one of the ranges. -/
def Covered (rs : List Range) (x : Nat) : Prop := ∃ r ∈ rs, r.Has x

/-- The `n` bytes of memory from `p` on. -/
def bytesAt (mem : Mem) (p n : Nat) : List UInt8 := (List.range n).map fun i => mem (p + i)

/-- The store that memory shows in the ranges. -/
def view (mem : Mem) (rs : List Range) : Store := fun p =>
  (rs.find? (·.ptr = p)).map fun r => bytesAt mem p r.size

variable {mem mem' : Mem} {rs : List Range} {r : Range} {p n x : Nat}

@[simp] theorem bytesAt_length : (bytesAt mem p n).length = n := by simp [bytesAt]

theorem bytesAt_congr (h : ∀ i < n, mem' (p + i) = mem (p + i)) :
    bytesAt mem' p n = bytesAt mem p n := by
  unfold bytesAt
  refine List.map_congr_left fun i hi => ?_
  exact h i (List.mem_range.mp hi)

/-- A shorter range has the first bytes of a longer one. -/
theorem bytesAt_take {k : Nat} : (bytesAt mem p n).take k = bytesAt mem p (min k n) := by
  unfold bytesAt
  rw [← List.map_take, List.take_range]

/-- A pointer that is not held. -/
theorem view_none (h : ∀ r ∈ rs, r.ptr ≠ p) : view mem rs p = none := by
  unfold view
  rw [List.find?_eq_none.mpr fun r hr => by simpa using h r hr]
  rfl

/-- Pointers are held once. -/
def Distinct (rs : List Range) : Prop := (rs.map Range.ptr).Nodup

theorem Distinct.find (h : Distinct rs) (hr : r ∈ rs) : rs.find? (·.ptr = r.ptr) = some r := by
  induction rs with
  | nil => exact absurd hr List.not_mem_nil
  | cons r₀ rest ih =>
      obtain ⟨hnew, hrest⟩ := List.nodup_cons.mp h
      rcases List.mem_cons.mp hr with rfl | hr
      · simp
      · have hne : r₀.ptr ≠ r.ptr := by
          intro hc
          exact hnew (hc ▸ List.mem_map_of_mem hr)
        rw [List.find?_cons_of_neg (by simpa using hne)]
        exact ih hrest hr

theorem view_some (mem : Mem) (h : Distinct rs) (hr : r ∈ rs) :
    view mem rs r.ptr = some (bytesAt mem r.ptr r.size) := by
  unfold view
  rw [h.find hr]
  rfl

theorem held_view (h : Distinct rs) : (view mem rs).Held x ↔ Covered rs x := by
  constructor
  · rintro ⟨p, bs, hp, hlow, hhigh⟩
    obtain ⟨r, hr, rfl⟩ := Option.map_eq_some_iff.mp hp
    have hptr : r.ptr = p := by simpa using List.find?_some hr
    rw [bytesAt_length] at hhigh
    exact ⟨r, List.mem_of_find?_eq_some hr, by unfold Range.Has; omega⟩
  · rintro ⟨r, hr, hlow, hhigh⟩
    exact ⟨r.ptr, _, view_some mem h hr, hlow, by rw [bytesAt_length]; exact hhigh⟩

/-- Memory outside the ranges does not show. -/
theorem view_congr (h : ∀ x, Covered rs x → mem' x = mem x) : view mem' rs = view mem rs := by
  funext p
  unfold view
  cases hfind : rs.find? (·.ptr = p) with
  | none => rfl
  | some r =>
      have hptr : r.ptr = p := by simpa using List.find?_some hfind
      refine congrArg some (bytesAt_congr fun i hi => h _ ?_)
      exact ⟨r, List.mem_of_find?_eq_some hfind, by unfold Range.Has; omega⟩

/-- What is written to memory is written to the store. -/
theorem view_modify (f : Nat → UInt8 → UInt8) :
    view (fun x => f x (mem x)) rs = (view mem rs).modify f := by
  funext p
  unfold view modify
  rw [Option.map_map]
  congr 1
  funext r
  refine List.ext_getElem? fun i => ?_
  by_cases hi : i < r.size
  · simp [bytesAt, hi]
  · simp [bytesAt, hi]

theorem view_poke (addr : Nat) (byte : UInt8) :
    view (Function.update mem addr byte) rs = (view mem rs).poke addr byte := by
  have hmem : Function.update mem addr byte = fun x => if x = addr then byte else mem x := by
    funext x
    exact Function.update_apply ..
  rw [hmem]
  exact view_modify fun x b => if x = addr then byte else b

theorem view_write (addr n v : Nat) :
    view (mem.write addr n v) rs = (view mem rs).write addr n v :=
  view_modify fun x b => if addr ≤ x ∧ x < addr + n then UInt8.ofNat (v / 256 ^ (x - addr)) else b

/-- A range is added in front. -/
theorem view_cons : view mem (r :: rs) = (view mem rs).put r.ptr (bytesAt mem r.ptr r.size) := by
  funext q
  unfold put
  by_cases hq : q = r.ptr
  · subst hq
    rw [Function.update_self]
    unfold view
    simp
  · rw [Function.update_of_ne hq]
    unfold view
    rw [List.find?_cons_of_neg (by simpa using Ne.symm hq)]

/-- The ranges at a pointer are dropped. -/
theorem view_filter (q : Nat) : view mem (rs.filter (·.ptr ≠ q)) = (view mem rs).remove q := by
  funext p
  unfold remove
  by_cases hp : p = q
  · subst hp
    rw [Function.update_self]
    refine view_none fun r hr => ?_
    simpa using (List.mem_filter.mp hr).2
  · rw [Function.update_of_ne hp]
    unfold view
    congr 1
    rw [List.find?_filter]
    congr 1
    funext r
    by_cases hr : r.ptr = p
    · simp [hr, hp]
    · simp [hr]

/-- A range of bytes nobody held is granted; what was held shows as before. -/
theorem alloc_view {align : Nat} {ok : List UInt8 → Prop} (hr : Distinct rs) (hpos : 0 < n)
    (hnull : p ≠ 0) (haligned : align ∣ p) (hspace : p + n ≤ 2 ^ 64)
    (hapart : ∀ x, p ≤ x → x < p + n → ¬ Covered rs x)
    (hmem : ∀ x, Covered rs x → mem' x = mem x) (hok : ok (bytesAt mem' p n)) :
    (view mem rs).Alloc align n ok (some p) (view mem' (⟨p, n⟩ :: rs)) := by
  rw [view_cons, view_congr hmem]
  refine .granted hpos ⟨hnull, haligned, hspace, fun x hlow hhigh => ?_⟩ bytesAt_length hok
  rw [held_view hr]
  exact hapart x hlow hhigh

end Store

end Lib
