/-
Texts and the bytes they are sent as.

A text is a list of characters and goes over a wire as UTF-8.  Whoever reads it
takes it apart again: at the first newline, at the blanks between words, digit by
digit.  Each of these is proved to undo the putting together it is there for, on
any text that does not hold the separator itself.

A protocol's head is plain ASCII, one byte to a character, and is read as such
before anything is known of what follows it.
-/
import Mathlib.Data.List.Basic

namespace Lib

abbrev Text := List Char

/-! ### Encoding -/

/-- The bytes of a text. -/
def utf8 (s : Text) : List UInt8 := s.flatMap String.utf8EncodeChar

/-- The text of the bytes, where they are one. -/
def fromUtf8 (bs : List UInt8) : Option Text :=
  (bs.toByteArray.utf8Decode?).map Array.toList

theorem utf8_append (s t : Text) : utf8 (s ++ t) = utf8 s ++ utf8 t := List.flatMap_append

theorem fromUtf8_utf8 (s : Text) : fromUtf8 (utf8 s) = some s := by
  have hdecode : (utf8 s).toByteArray.utf8Decode? = some s.toArray :=
    List.utf8Decode?_utf8Encode (l := s)
  unfold fromUtf8
  rw [hdecode]
  simp

def Ascii (s : Text) : Prop := ∀ c ∈ s, c.toNat < 128

instance (s : Text) : Decidable (Ascii s) :=
  List.decidableBAll (fun c : Char => c.toNat < 128) s

/-- Each byte as a character of its own. -/
def latin (bs : List UInt8) : Text := bs.map fun b => Char.ofNat b.toNat

theorem Ascii.append {s t : Text} (hs : Ascii s) (ht : Ascii t) : Ascii (s ++ t) := by
  intro c hc
  rcases List.mem_append.mp hc with h | h
  · exact hs c h
  · exact ht c h

/-- An ASCII character is one byte. -/
theorem utf8EncodeChar_of_ascii {c : Char} (hc : c.toNat < 128) :
    String.utf8EncodeChar c = [c.toNat.toUInt8] := by
  have hsize : c.utf8Size = 1 := by
    apply Char.utf8Size_eq_one_iff.mpr
    apply UInt32.le_iff_toNat_le.mpr
    change c.toNat ≤ 127
    omega
  rw [String.utf8EncodeChar_eq_singleton hsize]
  rfl

theorem utf8_of_ascii {s : Text} (hs : Ascii s) : utf8 s = s.map fun c => c.toNat.toUInt8 := by
  induction s with
  | nil => rfl
  | cons c s ih =>
      have hrest : utf8 s = s.map fun c => c.toNat.toUInt8 :=
        ih fun d hd => hs d (List.mem_cons_of_mem c hd)
      change String.utf8EncodeChar c ++ utf8 s = _
      rw [utf8EncodeChar_of_ascii (hs c List.mem_cons_self), hrest]
      rfl

theorem toNat_toUInt8_of_ascii {c : Char} (hc : c.toNat < 128) :
    c.toNat.toUInt8.toNat = c.toNat := by
  simp only [Nat.toUInt8_eq, UInt8.toNat_ofNat']
  omega

theorem latin_utf8 {s : Text} (hs : Ascii s) : latin (utf8 s) = s := by
  rw [utf8_of_ascii hs]
  unfold latin
  rw [List.map_map]
  have hid : ∀ c ∈ s, ((fun b : UInt8 => Char.ofNat b.toNat) ∘ fun c : Char => c.toNat.toUInt8) c
      = id c := by
    intro c hc
    simp [toNat_toUInt8_of_ascii (hs c hc)]
  rw [List.map_congr_left hid, List.map_id]

/-- A character that is not in an ASCII text is not among its bytes. -/
theorem notMem_utf8 {s : Text} (hs : Ascii s) {d : Char} (hd : d ∉ s) (hd' : d.toNat < 128) :
    d.toNat.toUInt8 ∉ utf8 s := by
  intro hmem
  rw [utf8_of_ascii hs, List.mem_map] at hmem
  obtain ⟨c, hc, heq⟩ := hmem
  have hnat : c.toNat = d.toNat := by
    rw [← toNat_toUInt8_of_ascii (hs c hc), ← toNat_toUInt8_of_ascii hd', heq]
  have hcd : c = d := by
    rw [← Char.ofNat_toNat c, hnat, Char.ofNat_toNat]
  exact hd (hcd ▸ hc)

/-! ### Cutting -/

section Cut

variable {α : Type*} [DecidableEq α] {a : α} {xs ys : List α}

/-- What stands before the first `a` and what after it. -/
def cut (a : α) : List α → Option (List α × List α)
  | [] => none
  | x :: xs => if x = a then some ([], xs) else (cut a xs).map fun p => (x :: p.1, p.2)

/-- What has no `a` in it stays in front of the cut. -/
theorem cut_append (h : a ∉ xs) (ys : List α) :
    cut a (xs ++ ys) = (cut a ys).map fun p => (xs ++ p.1, p.2) := by
  induction xs with
  | nil => simp
  | cons x xs ih =>
      have hx : x ≠ a := fun heq => h (heq ▸ List.mem_cons_self)
      have hxs : a ∉ xs := fun hmem => h (List.mem_cons_of_mem x hmem)
      rw [List.cons_append, cut, if_neg hx, ih hxs, Option.map_map]
      rfl

theorem cut_append_cons (h : a ∉ xs) (ys : List α) : cut a (xs ++ a :: ys) = some (xs, ys) := by
  rw [cut_append h, cut, if_pos rfl]
  simp

theorem prefix_of_cut {p : List α × List α} (h : cut a xs = some p) : p.1 <+: xs := by
  induction xs generalizing p with
  | nil => cases h
  | cons x xs ih =>
      rw [cut] at h
      split at h
      · obtain rfl := Option.some.inj h
        exact List.nil_prefix
      · obtain ⟨q, hq, rfl⟩ := Option.map_eq_some_iff.mp h
        exact List.cons_prefix_cons.mpr ⟨rfl, ih hq⟩

/-- Without an `a` at the end. -/
def strip (a : α) (xs : List α) : List α := if xs.getLast? = some a then xs.dropLast else xs

theorem strip_append (h : a ∉ xs) (ys : List α) : strip a (xs ++ ys) = xs ++ strip a ys := by
  unfold strip
  cases hys : ys.getLast? with
  | none =>
      have hlast : xs.getLast? ≠ some a := fun hl => h (List.mem_of_getLast? hl)
      rw [List.getLast?_eq_none_iff.mp hys]
      simp [hlast]
  | some y =>
      have hne : ys ≠ [] := by
        intro hnil
        rw [hnil] at hys
        cases hys
      rw [List.getLast?_append, hys, Option.some_or]
      split
      · rw [List.dropLast_append_of_ne_nil hne]
      · rfl

theorem prefix_of_strip : strip a xs <+: xs := by
  unfold strip
  split
  · exact List.dropLast_prefix xs
  · exact List.prefix_rfl

end Cut

/-! ### Words -/

section Words

variable {α : Type*} {p : α → Bool} {w : List α}

/-- The parts between the separators, without the empty ones. -/
def words (p : α → Bool) (xs : List α) : List (List α) := (xs.splitOnP p).filter fun w => !w.isEmpty

theorem words_cons_append {c : α} (hw : ∀ x ∈ w, p x = false) (hne : w ≠ []) (hc : p c = true)
    (ys : List α) : words p (w ++ c :: ys) = w :: words p ys := by
  unfold words
  rw [List.splitOnP_append_cons_of_forall_mem hw c hc, List.filter_cons_of_pos]
  simpa using hne

theorem words_singleton (hw : ∀ x ∈ w, p x = false) (hne : w ≠ []) : words p w = [w] := by
  unfold words
  rw [List.splitOnP_eq_singleton hw, List.filter_cons_of_pos, List.filter_nil]
  simpa using hne

end Words

/-- Where no key stands twice, what is in a table is found in it. -/
theorem lookup_of_mem {α β : Type*} [BEq α] [LawfulBEq α] {l : List (α × β)} {k : α} {v : β}
    (hl : (l.map Prod.fst).Nodup) (h : (k, v) ∈ l) : l.lookup k = some v := by
  induction l with
  | nil => cases h
  | cons e l ih =>
      obtain ⟨k', v'⟩ := e
      rw [List.map_cons, List.nodup_cons] at hl
      rcases List.mem_cons.mp h with heq | hmem
      · obtain ⟨rfl, rfl⟩ := Prod.mk.inj heq
        exact List.lookup_cons_self
      · have hne : (k == k') = false := by
          rw [beq_eq_false_iff_ne]
          intro hk
          apply hl.1
          rw [← hk]
          exact List.mem_map.mpr ⟨(k, v), hmem, rfl⟩
        rw [List.lookup_cons, hne]
        exact ih hl.2 hmem

/-! ### Numbers -/

def decimal (n : Nat) : Text := Nat.toDigits 10 n

def readDecimal (s : Text) : Option Nat :=
  if s ≠ [] ∧ s.all Char.isDigit = true then some (Nat.ofDigitChars 10 s 0) else none

theorem isDigit_of_mem_decimal {n : Nat} {c : Char} (hc : c ∈ decimal n) : c.isDigit = true :=
  Nat.isDigit_of_mem_toDigits (by decide) (by decide) hc

theorem readDecimal_decimal (n : Nat) : readDecimal (decimal n) = some n := by
  have hdigits : decimal n ≠ [] ∧ (decimal n).all Char.isDigit = true := by
    refine ⟨Nat.toDigits_ne_nil, ?_⟩
    rw [List.all_eq_true]
    intro c hc
    exact isDigit_of_mem_decimal hc
  unfold readDecimal
  rw [if_pos hdigits]
  exact congrArg some Nat.ofDigitChars_ten_toDigits

theorem isDigit_bounds {c : Char} (hc : c.isDigit = true) : 48 ≤ c.toNat ∧ c.toNat ≤ 57 := by
  simp only [Char.isDigit, Bool.and_eq_true, decide_eq_true_eq, ge_iff_le,
    UInt32.le_iff_toNat_le] at hc
  exact hc

theorem decimal_ascii (n : Nat) : Ascii (decimal n) := by
  intro c hc
  have := isDigit_bounds (isDigit_of_mem_decimal hc)
  omega

theorem notMem_decimal {c : Char} (hc : c.isDigit = false) (n : Nat) : c ∉ decimal n := by
  intro hmem
  rw [isDigit_of_mem_decimal hmem] at hc
  cases hc

end Lib
