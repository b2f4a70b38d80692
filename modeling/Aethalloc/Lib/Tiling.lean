/-
Blocks of power-of-two size, counted point by point.

A block is an address and an order, and covers the `2 ^ order` addresses from
there on.  `cover l x` counts how many blocks of a list cover `x`.  A partition is
then an equation between counts: no address is lost and none is covered twice.
Splitting a block and merging two halves keep the count by one lemma, moving a
block from one list to another keeps the sum, and disjointness comes back out of
a count that is at most one.
-/
import Mathlib.Algebra.BigOperators.Intervals
import Mathlib.Algebra.Order.BigOperators.Group.List
import Mathlib.Data.List.Pairwise
import Mathlib.Tactic.Ring

namespace Lib

/-- An address and an order. -/
abbrev Block := Nat × Nat

/-- The block covers the address. -/
def Block.Covers (b : Block) (x : Nat) : Prop := b.1 ≤ x ∧ x < b.1 + 2 ^ b.2

/-- The two blocks share no address. -/
def Block.Apart (b b' : Block) : Prop := b.1 + 2 ^ b.2 ≤ b'.1 ∨ b'.1 + 2 ^ b'.2 ≤ b.1

theorem Block.Apart.symm {b b' : Block} (h : b.Apart b') : b'.Apart b := Or.symm h

theorem Block.Apart.not_covers {b b' : Block} {x : Nat} (h : b.Apart b') (hb : b.Covers x) :
    ¬ b'.Covers x := by
  unfold Block.Apart at h
  unfold Block.Covers at *
  omega

/-- How often a block covers an address. -/
def cov (b : Block) (x : Nat) : Nat := if b.1 ≤ x ∧ x < b.1 + 2 ^ b.2 then 1 else 0

/-- How many blocks of the list cover the address. -/
def cover (l : List Block) (x : Nat) : Nat := (l.map (cov · x)).sum

variable {b b' : Block} {l l' : List Block} {x : Nat}

theorem cov_of_covers (h : b.Covers x) : cov b x = 1 := if_pos h

theorem cov_of_not_covers (h : ¬ b.Covers x) : cov b x = 0 := if_neg h

@[simp] theorem cover_nil : cover [] x = 0 := rfl

@[simp] theorem cover_cons : cover (b :: l) x = cov b x + cover l x := by
  simp [cover]

@[simp] theorem cover_append : cover (l ++ l') x = cover l x + cover l' x := by
  simp [cover]

theorem cover_perm (h : l.Perm l') : cover l x = cover l' x := (h.map _).sum_eq

/-- A block's two halves cover what it covers. -/
theorem cov_split (a o x : Nat) : cov (a, o + 1) x = cov (a, o) x + cov (a + 2 ^ o, o) x := by
  have hwhole : Block.Covers (a, o + 1) x ↔
      Block.Covers (a, o) x ∨ Block.Covers (a + 2 ^ o, o) x := by
    simp only [Block.Covers, Nat.pow_succ]
    omega
  by_cases hlow : Block.Covers (a, o) x
  · have hhigh : ¬ Block.Covers (a + 2 ^ o, o) x :=
      Block.Apart.not_covers (Or.inl (Nat.le_refl _)) hlow
    rw [cov_of_covers (hwhole.mpr (Or.inl hlow)), cov_of_covers hlow, cov_of_not_covers hhigh]
  · by_cases hhigh : Block.Covers (a + 2 ^ o, o) x
    · rw [cov_of_covers (hwhole.mpr (Or.inr hhigh)), cov_of_not_covers hlow, cov_of_covers hhigh]
    · have hnone : ¬ Block.Covers (a, o + 1) x := fun hc => (hwhole.mp hc).elim hlow hhigh
      rw [cov_of_not_covers hnone, cov_of_not_covers hlow, cov_of_not_covers hhigh]

theorem one_le_cover (h : b ∈ l) (hx : b.Covers x) : 1 ≤ cover l x := by
  obtain ⟨pre, post, rfl⟩ := List.append_of_mem h
  rw [cover_append, cover_cons, cov_of_covers hx]
  omega

/-- An address that is counted is covered by some block. -/
theorem exists_of_cover_pos : ∀ {l : List Block}, 0 < cover l x → ∃ b ∈ l, b.Covers x := by
  intro l
  induction l with
  | nil => intro h; simp at h
  | cons b rest ih =>
      intro h
      by_cases hb : b.Covers x
      · exact ⟨b, by simp, hb⟩
      · rw [cover_cons, cov_of_not_covers hb, Nat.zero_add] at h
        obtain ⟨b', hmem, hb'⟩ := ih h
        exact ⟨b', List.mem_cons_of_mem _ hmem, hb'⟩

/-- When no address is counted twice, the blocks are pairwise apart. -/
theorem pairwise_apart : ∀ {l : List Block}, (∀ x, cover l x ≤ 1) → l.Pairwise Block.Apart := by
  intro l
  induction l with
  | nil => intro _; exact List.Pairwise.nil
  | cons b rest ih =>
      intro h
      refine List.pairwise_cons.mpr ⟨fun b' hb' => ?_, ih fun x => ?_⟩
      · by_contra hc
        -- the larger of the two starts is covered by both
        have hpos : 0 < 2 ^ b.2 := Nat.two_pow_pos _
        have hpos' : 0 < 2 ^ b'.2 := Nat.two_pow_pos _
        unfold Block.Apart at hc
        have hb₁ : b.Covers (max b.1 b'.1) := by unfold Block.Covers; omega
        have hb₂ : b'.Covers (max b.1 b'.1) := by unfold Block.Covers; omega
        have := h (max b.1 b'.1)
        have hone := one_le_cover hb' hb₂
        rw [cover_cons, cov_of_covers hb₁] at this
        omega
      · have := h x
        rw [cover_cons] at this
        omega

/-- Two different blocks of a list without double counting are apart. -/
theorem apart_of_mem (h : ∀ x, cover l x ≤ 1) (hb : b ∈ l) (hb' : b' ∈ l) (hne : b ≠ b') :
    b.Apart b' :=
  haveI : Std.Symm Block.Apart := ⟨fun _ _ => Block.Apart.symm⟩
  (pairwise_apart h).forall hb hb' hne

/-! ### Regions tiled by blocks -/

/-- The block lies in the region of order `K` at `r`, a multiple of its own size from `r`. -/
def Placed (K r : Nat) (b : Block) : Prop :=
  b.2 ≤ K ∧ r ≤ b.1 ∧ b.1 + 2 ^ b.2 ≤ r + 2 ^ K ∧ 2 ^ b.2 ∣ b.1 - r

/-- The lower half of a placed block is placed. -/
theorem Placed.lower {K r a o : Nat} (h : Placed K r (a, o + 1)) : Placed K r (a, o) := by
  have hpow : 2 ^ (o + 1) = 2 ^ o * 2 := Nat.pow_succ 2 o
  obtain ⟨hle, hra, hend, hdvd⟩ := h
  simp only at hle hra hend
  exact ⟨by show o ≤ K; omega, hra, by show a + 2 ^ o ≤ r + 2 ^ K; omega,
    (Nat.pow_dvd_pow 2 (Nat.le_succ o)).trans hdvd⟩

/-- The upper half of a placed block is placed. -/
theorem Placed.upper {K r a o : Nat} (h : Placed K r (a, o + 1)) : Placed K r (a + 2 ^ o, o) := by
  have hpow : 2 ^ (o + 1) = 2 ^ o * 2 := Nat.pow_succ 2 o
  obtain ⟨hle, hra, hend, hdvd⟩ := h
  simp only at hle hra hend
  refine ⟨by show o ≤ K; omega, by show r ≤ a + 2 ^ o; omega,
    by show a + 2 ^ o + 2 ^ o ≤ r + 2 ^ K; omega, ?_⟩
  show 2 ^ o ∣ a + 2 ^ o - r
  rw [Nat.sub_add_comm hra]
  exact Nat.dvd_add ((Nat.pow_dvd_pow 2 (Nat.le_succ o)).trans hdvd) (Nat.dvd_refl _)

/-- The blocks partition the regions of order `K` at the addresses `R`, which do not overlap. -/
structure Tiled (K : Nat) (R : List Nat) (B : List Block) : Prop where
  tiles : ∀ x, cover B x = cover (R.map (·, K)) x
  once : ∀ x, cover (R.map (·, K)) x ≤ 1
  placed : ∀ b ∈ B, ∃ r ∈ R, Placed K r b

namespace Tiled

variable {K a o r : Nat} {R : List Nat} {B B' : List Block}

theorem nil : Tiled K [] [] := ⟨fun _ => rfl, fun _ => Nat.zero_le 1, by simp⟩

theorem perm (h : Tiled K R B) (hp : B.Perm B') : Tiled K R B' where
  tiles x := by rw [← cover_perm hp]; exact h.tiles x
  once := h.once
  placed b hb := h.placed b (hp.mem_iff.mpr hb)

/-- No address is in two blocks. -/
theorem cover_le_one (h : Tiled K R B) (x : Nat) : cover B x ≤ 1 := by
  rw [h.tiles x]
  exact h.once x

theorem apart (h : Tiled K R B) (hb : b ∈ B) (hb' : b' ∈ B) (hne : b ≠ b') : b.Apart b' :=
  apart_of_mem h.cover_le_one hb hb' hne

/-- Two regions that share an address are one. -/
theorem region_unique (h : Tiled K R B) {r r' : Nat} (hr : r ∈ R) (hr' : r' ∈ R)
    (hx : r ≤ x ∧ x < r + 2 ^ K) (hx' : r' ≤ x ∧ x < r' + 2 ^ K) : r = r' := by
  by_contra hne
  have hap : Block.Apart (r, K) (r', K) :=
    apart_of_mem h.once (List.mem_map.mpr ⟨r, hr, rfl⟩) (List.mem_map.mpr ⟨r', hr', rfl⟩)
      (fun hc => hne (Prod.mk.inj hc).1)
  exact hap.not_covers hx hx'

/-- Every address of a region is in a block. -/
theorem exists_covers (h : Tiled K R B) (hr : r ∈ R) (hx : r ≤ x ∧ x < r + 2 ^ K) :
    ∃ b ∈ B, b.Covers x := by
  apply exists_of_cover_pos
  rw [h.tiles x]
  exact one_le_cover (List.mem_map.mpr ⟨r, hr, rfl⟩) hx

/-- A fresh region, as one block. -/
theorem map (h : Tiled K R B) (hfresh : ∀ r' ∈ R, Block.Apart (r, K) (r', K)) :
    Tiled K (r :: R) ((r, K) :: B) where
  tiles x := by
    rw [List.map_cons, cover_cons, cover_cons, h.tiles x]
  once x := by
    rw [List.map_cons, cover_cons]
    by_cases hx : Block.Covers (r, K) x
    · have hzero : ¬ 0 < cover (R.map (·, K)) x := by
        intro hpos
        obtain ⟨b, hb, hbx⟩ := exists_of_cover_pos hpos
        obtain ⟨r', hr', rfl⟩ := List.mem_map.mp hb
        exact (hfresh r' hr').not_covers hx hbx
      rw [cov_of_covers hx]
      omega
    · rw [cov_of_not_covers hx, Nat.zero_add]
      exact h.once x
  placed b hb := by
    rcases List.mem_cons.mp hb with rfl | hb
    · exact ⟨r, by simp, Nat.le_refl K, Nat.le_refl r, Nat.le_refl _, by simp⟩
    · obtain ⟨r', hr', hplaced⟩ := h.placed b hb
      exact ⟨r', List.mem_cons_of_mem _ hr', hplaced⟩

/-- Splitting a block into halves. -/
theorem split (h : Tiled K R ((a, o + 1) :: B)) :
    Tiled K R ((a, o) :: (a + 2 ^ o, o) :: B) where
  tiles x := by
    have := h.tiles x
    rw [cover_cons, cov_split] at this
    rw [cover_cons, cover_cons]
    omega
  once := h.once
  placed b hb := by
    obtain ⟨r, hr, hplaced⟩ := h.placed (a, o + 1) (by simp)
    rcases List.mem_cons.mp hb with rfl | hb
    · exact ⟨r, hr, hplaced.lower⟩
    · rcases List.mem_cons.mp hb with rfl | hb
      · exact ⟨r, hr, hplaced.upper⟩
      · exact h.placed b (List.mem_cons_of_mem _ hb)

/-- Merging two halves. -/
theorem merge (h : Tiled K R ((a, o) :: (a + 2 ^ o, o) :: B)) (hr : r ∈ R)
    (hplaced : Placed K r (a, o + 1)) : Tiled K R ((a, o + 1) :: B) where
  tiles x := by
    have := h.tiles x
    rw [cover_cons, cover_cons] at this
    rw [cover_cons, cov_split]
    omega
  once := h.once
  placed b hb := by
    rcases List.mem_cons.mp hb with rfl | hb
    · exact ⟨r, hr, hplaced⟩
    · exact h.placed b (List.mem_cons_of_mem _ (List.mem_cons_of_mem _ hb))

end Tiled

/-! ### Counting addresses -/

/-- How many addresses the blocks of the list have together. -/
def bytes (l : List Block) : Nat := (l.map (2 ^ ·.2)).sum

@[simp] theorem bytes_nil : bytes [] = 0 := rfl

@[simp] theorem bytes_cons : bytes (b :: l) = 2 ^ b.2 + bytes l := by
  simp [bytes]

@[simp] theorem bytes_append : bytes (l ++ l') = bytes l + bytes l' := by
  simp [bytes]

/-- A block covers as many addresses as it has. -/
theorem sum_cov {n : Nat} (hend : b.1 + 2 ^ b.2 ≤ n) : ∑ x ∈ Finset.range n, cov b x = 2 ^ b.2 := by
  have hset : (Finset.range n).filter (fun x => b.1 ≤ x ∧ x < b.1 + 2 ^ b.2)
      = Finset.Ico b.1 (b.1 + 2 ^ b.2) := by
    ext x
    rw [Finset.mem_filter, Finset.mem_range, Finset.mem_Ico]
    constructor
    · rintro ⟨-, hx⟩
      exact hx
    · intro hx
      exact ⟨by omega, hx⟩
  unfold cov
  rw [← Finset.card_filter, hset, Nat.card_Ico, Nat.add_sub_cancel_left]

/-- Counted address by address, the blocks cover what they have. -/
theorem sum_cover {n : Nat} : ∀ {l : List Block}, (∀ b ∈ l, b.1 + 2 ^ b.2 ≤ n) →
    ∑ x ∈ Finset.range n, cover l x = bytes l := by
  intro l
  induction l with
  | nil => intro _; simp
  | cons b rest ih =>
      intro hend
      simp only [cover_cons, bytes_cons]
      rw [Finset.sum_add_distrib, sum_cov (hend b (List.mem_cons_self ..)),
        ih fun b hb => hend b (List.mem_cons_of_mem _ hb)]

/-- Blocks that tile regions have as many addresses as the regions. -/
theorem Tiled.bytes_eq {K : Nat} {R : List Nat} {B : List Block} (h : Tiled K R B) :
    bytes B = R.length * 2 ^ K := by
  -- beyond all regions there is nothing to count
  obtain ⟨n, hn⟩ : ∃ n, ∀ r ∈ R, r + 2 ^ K ≤ n :=
    ⟨(R.map (· + 2 ^ K)).sum, fun r hr => List.le_sum_of_mem (List.mem_map.mpr ⟨r, hr, rfl⟩)⟩
  have hblocks : ∀ b ∈ B, b.1 + 2 ^ b.2 ≤ n := by
    intro b hb
    obtain ⟨r, hr, -, -, hend, -⟩ := h.placed b hb
    exact Nat.le_trans hend (hn r hr)
  have hregions : ∀ b ∈ R.map (·, K), b.1 + 2 ^ b.2 ≤ n := by
    intro b hb
    obtain ⟨r, hr, rfl⟩ := List.mem_map.mp hb
    exact hn r hr
  calc bytes B = ∑ x ∈ Finset.range n, cover B x := (sum_cover hblocks).symm
    _ = ∑ x ∈ Finset.range n, cover (R.map (·, K)) x := Finset.sum_congr rfl fun x _ => h.tiles x
    _ = bytes (R.map (·, K)) := sum_cover hregions
    _ = R.length * 2 ^ K := by simp [bytes, List.map_map, Function.comp_def]

/-! ### Siblings -/

/-- The other half of the block a block of order `o` at `a` was split from, in the region at `r`. -/
def sibling (r a o : Nat) : Nat := if (a - r) / 2 ^ o % 2 = 0 then a + 2 ^ o else a - 2 ^ o

/-- The sibling is the other half of an aligned block: the upper one or the lower one. -/
theorem sibling_cases {K r a o : Nat} (h : Placed K r (a, o)) (ho : o < K) :
    (sibling r a o = a + 2 ^ o ∧ Placed K r (a, o + 1)) ∨
      (a = sibling r a o + 2 ^ o ∧ Placed K r (sibling r a o, o + 1)) := by
  obtain ⟨-, hra, hend, m, hm⟩ := h
  simp only at hra hend hm
  have hpos : 0 < 2 ^ o := Nat.two_pow_pos o
  have hpow : 2 ^ (o + 1) = 2 ^ o * 2 := Nat.pow_succ 2 o
  obtain ⟨q, hq⟩ : 2 ^ (o + 1) ∣ 2 ^ K := Nat.pow_dvd_pow 2 ho
  have hdiv : (a - r) / 2 ^ o = m := by rw [hm]; exact Nat.mul_div_cancel_left m hpos
  unfold sibling
  rw [hdiv]
  obtain ⟨k, hk | hk⟩ : ∃ k, m = 2 * k ∨ m = 2 * k + 1 := ⟨m / 2, by omega⟩
  · left
    have hak : a - r = 2 ^ (o + 1) * k := by rw [hm, hk, hpow, Nat.mul_assoc]
    refine ⟨if_pos (by omega), ho, hra, ?_, ⟨k, hak⟩⟩
    have hlt : 2 ^ (o + 1) * k < 2 ^ (o + 1) * q := by omega
    have hstep : 2 ^ (o + 1) * (k + 1) ≤ 2 ^ (o + 1) * q :=
      Nat.mul_le_mul_left _ (Nat.lt_of_mul_lt_mul_left hlt)
    show a + 2 ^ (o + 1) ≤ r + 2 ^ K
    rw [Nat.mul_succ] at hstep
    omega
  · right
    have hak : a - r = 2 ^ (o + 1) * k + 2 ^ o := by rw [hm, hk, hpow]; ring
    rw [if_neg (by omega)]
    refine ⟨by omega, ho, by show r ≤ a - 2 ^ o; omega, ?_, ⟨k, ?_⟩⟩
    · show a - 2 ^ o + 2 ^ (o + 1) ≤ r + 2 ^ K
      omega
    · show a - 2 ^ o - r = 2 ^ (o + 1) * k
      omega

/-- The sibling of an upper half is the lower half. -/
theorem sibling_upper {K r a o : Nat} (h : Placed K r (a, o + 1)) :
    sibling r (a + 2 ^ o) o = a := by
  have hpos : 0 < 2 ^ o := Nat.two_pow_pos o
  obtain ⟨-, hra, -, k, hk⟩ := h
  simp only at hra hk
  have hodd : (a + 2 ^ o - r) / 2 ^ o = 2 * k + 1 := by
    rw [Nat.sub_add_comm hra, hk, Nat.pow_succ, Nat.mul_assoc, Nat.add_div_right _ hpos,
      Nat.mul_div_cancel_left _ hpos]
  unfold sibling
  rw [hodd, if_neg (by omega), Nat.add_sub_cancel]

/-- Of two aligned ranges that meet, the smaller lies in the larger. -/
theorem aligned_nested {d u w e x : Nat} (hu : d ∣ u) (he : d ∣ e) (hw : d ∣ w)
    (hx : u ≤ x ∧ x < u + e) (hx' : w ≤ x ∧ x < w + d) : u ≤ w ∧ w + d ≤ u + e := by
  obtain ⟨u, rfl⟩ := hu
  obtain ⟨e, rfl⟩ := he
  obtain ⟨w, rfl⟩ := hw
  have hlow : d * u < d * (w + 1) := by rw [Nat.mul_succ]; omega
  have hhigh : d * w < d * (u + e) := by rw [Nat.mul_add]; omega
  constructor
  · exact Nat.mul_le_mul_left d (Nat.lt_succ_iff.mp (Nat.lt_of_mul_lt_mul_left hlow))
  · have hstep : d * (w + 1) ≤ d * (u + e) :=
      Nat.mul_le_mul_left d (Nat.lt_of_mul_lt_mul_left hhigh)
    rw [Nat.mul_succ, Nat.mul_add] at hstep
    exact hstep

/--
At a block's sibling some block always begins, and it is no larger: a larger one
would reach over the block itself.  So whatever is read at that address as a
header is a header.
-/
theorem Tiled.sibling_start {K r a o : Nat} {R : List Nat} {B : List Block} (h : Tiled K R B)
    (hmem : (a, o) ∈ B) (hr : r ∈ R) (hplaced : Placed K r (a, o)) (ho : o < K) :
    ∃ p ≤ o, (sibling r a o, p) ∈ B := by
  -- the parent block, whose halves are the block and its sibling
  obtain ⟨c₀, hc₀, hac, hsc⟩ : ∃ c₀, Placed K r (c₀, o + 1) ∧ (a = c₀ ∨ a = c₀ + 2 ^ o) ∧
      (sibling r a o = c₀ ∨ sibling r a o = c₀ + 2 ^ o) := by
    rcases sibling_cases hplaced ho with ⟨hs, hp⟩ | ⟨hs, hp⟩
    · exact ⟨a, hp, Or.inl rfl, Or.inr hs⟩
    · exact ⟨_, hp, Or.inr hs, Or.inl rfl⟩
  obtain ⟨-, hrc, hcend, hcdvd⟩ := hc₀
  simp only at hrc hcend hcdvd
  have hpos : 0 < 2 ^ o := Nat.two_pow_pos o
  have hpow : 2 ^ (o + 1) = 2 ^ o * 2 := Nat.pow_succ 2 o
  generalize hsib : sibling r a o = x at *
  obtain ⟨⟨c, p⟩, hc, hcx⟩ := h.exists_covers (x := x) hr (by omega)
  obtain ⟨r', hr', -, hrc', hcend', hcdvd'⟩ := h.placed (c, p) hc
  simp only [Block.Covers] at hcx hrc' hcend' hcdvd'
  obtain rfl : r = r' := h.region_unique (x := x) hr hr' (by omega) (by omega)
  rcases Nat.lt_or_ge o p with hop | hop
  · exfalso
    have hnest := aligned_nested (x := x - r) ((Nat.pow_dvd_pow 2 hop).trans hcdvd')
      (Nat.pow_dvd_pow 2 hop) hcdvd (by omega) (by omega)
    have hne : (a, o) ≠ (c, p) := fun hcon => Nat.ne_of_lt hop (Prod.mk.inj hcon).2
    have hap : Block.Apart (a, o) (c, p) := h.apart hmem hc hne
    have hself : Block.Covers (a, o) a := ⟨Nat.le_refl a, by show a < a + 2 ^ o; omega⟩
    exact hap.not_covers hself ⟨by show c ≤ a; omega, by show a < c + 2 ^ p; omega⟩
  · refine ⟨p, hop, ?_⟩
    have hxdvd : 2 ^ p ∣ x - r := by
      refine (Nat.pow_dvd_pow 2 hop).trans ?_
      have hc₀dvd : 2 ^ o ∣ c₀ - r := (Nat.pow_dvd_pow 2 (Nat.le_succ o)).trans hcdvd
      rcases hsc with hx | hx
      · rw [hx]; exact hc₀dvd
      · rw [hx, Nat.sub_add_comm hrc]; exact Nat.dvd_add hc₀dvd (Nat.dvd_refl _)
    have hnest := aligned_nested (x := x - r) hcdvd' (Nat.dvd_refl _) hxdvd (by omega)
      ⟨Nat.le_refl _, Nat.lt_add_of_pos_right (Nat.two_pow_pos p)⟩
    obtain rfl : x = c := by omega
    exact hc

/-! ### Coalesced blocks

When no two blocks are siblings, the blocks of a set of addresses are determined
by the set.
-/

/-- No two of the blocks in the region at `r` are siblings. -/
def Coalesced (K r : Nat) (B : List Block) : Prop :=
  ∀ a o, (a, o) ∈ B → Placed K r (a, o) → o < K → (sibling r a o, o) ∉ B

/-- The block lies inside the other. -/
def Block.Inside (b b' : Block) : Prop := b'.1 ≤ b.1 ∧ b.1 + 2 ^ b.2 ≤ b'.1 + 2 ^ b'.2

theorem Block.Inside.antisymm {b b' : Block} (h : b.Inside b') (h' : b'.Inside b) : b = b' := by
  obtain ⟨h1, h2⟩ := h
  obtain ⟨h3, h4⟩ := h'
  have hpow : 2 ^ b.2 = 2 ^ b'.2 := by omega
  exact Prod.ext (by omega) (Nat.pow_right_injective (Nat.le_refl 2) hpow)

theorem Block.Inside.trans {b b' b'' : Block} (h : b.Inside b') (h' : b'.Inside b'') :
    b.Inside b'' := by
  unfold Block.Inside at *
  omega

theorem Block.Inside.covers {b b' : Block} (h : b.Inside b') (hx : b.Covers x) : b'.Covers x := by
  unfold Block.Inside at h
  unfold Block.Covers at *
  omega

theorem Block.covers_self (b : Block) : b.Covers b.1 :=
  ⟨Nat.le_refl _, Nat.lt_add_of_pos_right (Nat.two_pow_pos _)⟩

/-- Of two placed blocks that share an address, the smaller lies in the larger. -/
theorem Placed.inside {K r : Nat} {b b' : Block} (h : Placed K r b) (h' : Placed K r b')
    (hx : b.Covers x) (hx' : b'.Covers x) (hle : b.2 ≤ b'.2) : b.Inside b' := by
  obtain ⟨-, hrb, -, hdvd⟩ := h
  obtain ⟨-, hrb', -, hdvd'⟩ := h'
  unfold Block.Covers at hx hx'
  have hnest := aligned_nested (x := x - r) ((Nat.pow_dvd_pow 2 hle).trans hdvd')
    (Nat.pow_dvd_pow 2 hle) hdvd (by omega) (by omega)
  unfold Block.Inside
  omega

/-- The block of a tiling that covers an address of a region is placed in that region. -/
theorem Tiled.placed_of_covers {K r : Nat} {R : List Nat} {B : List Block} (h : Tiled K R B)
    (hr : r ∈ R) (hb : b ∈ B) (hx : b.Covers x) (hin : r ≤ x ∧ x < r + 2 ^ K) : Placed K r b := by
  obtain ⟨r', hr', hplaced⟩ := h.placed b hb
  have hlow := hplaced.2.1
  have hhigh := hplaced.2.2.1
  unfold Block.Covers at hx
  have hrr : r = r' := h.region_unique hr hr' hin (by omega)
  rw [hrr]
  exact hplaced

/--
An aligned range whose every address is in some block of a coalesced part lies in
one block of it: both halves do, and two halves that are blocks would be siblings.
-/
theorem Tiled.absorbs {K m r : Nat} {R : List Nat} {L B : List Block} (h : Tiled K R (L ++ B))
    (hr : r ∈ R) (hco : Coalesced K r B) (hmin : ∀ b ∈ B, m ≤ b.2) {o : Nat} (ho : m ≤ o) :
    ∀ c, Placed K r (c, o) → (∀ x, Block.Covers (c, o) x → ∃ b ∈ B, b.Covers x) →
      ∃ b ∈ B, Block.Inside (c, o) b := by
  -- a block that covers a range's first address and is no smaller holds the range
  have hhold : ∀ {c o : Nat} {b : Block}, Placed K r (c, o) → b ∈ B → b.Covers c → o ≤ b.2 →
      Block.Inside (c, o) b := by
    intro c o b hplaced hb hx hle
    have hself : Block.Covers (c, o) c := Block.covers_self (c, o)
    have hplaced' := h.placed_of_covers hr (List.mem_append_right L hb) hx
      ⟨hplaced.2.1, Nat.lt_of_lt_of_le hself.2 hplaced.2.2.1⟩
    exact hplaced.inside hplaced' hself hx hle
  induction o, ho using Nat.le_induction with
  | base =>
      intro c hplaced hfree
      obtain ⟨b, hb, hx⟩ := hfree c (Block.covers_self (c, m))
      exact ⟨b, hb, hhold hplaced hb hx (hmin b hb)⟩
  | succ o _ ih =>
      intro c hplaced hfree
      have hpos : 0 < 2 ^ o := Nat.two_pow_pos o
      have hpow : 2 ^ (o + 1) = 2 ^ o * 2 := Nat.pow_succ 2 o
      have hwhole : ∀ x, Block.Covers (c, o) x ∨ Block.Covers (c + 2 ^ o, o) x →
          ∃ b ∈ B, b.Covers x := by
        intro x hx
        refine hfree x ?_
        simp only [Block.Covers] at *
        omega
      obtain ⟨⟨a₁, p₁⟩, hb₁, hin₁⟩ := ih c hplaced.lower fun x hx => hwhole x (Or.inl hx)
      obtain ⟨⟨a₂, p₂⟩, hb₂, hin₂⟩ := ih (c + 2 ^ o) hplaced.upper fun x hx => hwhole x (Or.inr hx)
      have hx₁ : Block.Covers (a₁, p₁) c := hin₁.covers (Block.covers_self (c, o))
      rcases Nat.lt_or_ge o p₁ with hlt | hge
      · exact ⟨(a₁, p₁), hb₁, hhold hplaced hb₁ hx₁ hlt⟩
      · rcases Nat.lt_or_ge o p₂ with hlt₂ | hge₂
        · -- the block around the upper half is no smaller than the range, so it holds it
          have hx₂ : Block.Covers (a₂, p₂) (c + 2 ^ o) :=
            hin₂.covers (Block.covers_self (c + 2 ^ o, o))
          have hupper : Block.Covers (c, o + 1) (c + 2 ^ o) := by
            simp only [Block.Covers]
            omega
          have hplaced₂ := h.placed_of_covers hr (List.mem_append_right L hb₂) hx₂
            ⟨Nat.le_trans hplaced.2.1 (Nat.le_add_right _ _),
              Nat.lt_of_lt_of_le hupper.2 hplaced.2.2.1⟩
          exact ⟨(a₂, p₂), hb₂, hplaced.inside hplaced₂ hupper hx₂ hlt₂⟩
        · exfalso
          have hle₁ : 2 ^ p₁ ≤ 2 ^ o := Nat.pow_le_pow_right (by decide) hge
          have hle₂ : 2 ^ p₂ ≤ 2 ^ o := Nat.pow_le_pow_right (by decide) hge₂
          have heq₁ : Block.Inside (a₁, p₁) (c, o) := by
            simp only [Block.Inside] at *
            omega
          have heq₂ : Block.Inside (a₂, p₂) (c + 2 ^ o, o) := by
            simp only [Block.Inside] at *
            omega
          rw [heq₁.antisymm hin₁] at hb₁
          rw [heq₂.antisymm hin₂] at hb₂
          refine hco (c + 2 ^ o) o hb₂ hplaced.upper (Nat.lt_of_succ_le hplaced.1) ?_
          rw [sibling_upper hplaced]
          exact hb₁

/--
Two tilings of the same regions with the same blocks outside a coalesced part have
the same blocks in it, region by region.
-/
theorem Tiled.canonical {K m r : Nat} {R : List Nat} {L L' B B' : List Block}
    (h : Tiled K R (L ++ B)) (h' : Tiled K R (L' ++ B')) (hr : r ∈ R) (hco : Coalesced K r B)
    (hco' : Coalesced K r B') (hmin : ∀ b ∈ B, m ≤ b.2) (hmin' : ∀ b ∈ B', m ≤ b.2)
    (hL : ∀ b, b ∈ L ↔ b ∈ L') {b : Block} (hb : b ∈ B) (hplaced : Placed K r b) : b ∈ B' := by
  -- what one part covers, the other covers too
  have hcover : ∀ {L L' B B' : List Block}, Tiled K R (L ++ B) → Tiled K R (L' ++ B') →
      (∀ b ∈ L', b ∈ L) → ∀ b ∈ B, ∀ x, b.Covers x → ∃ b' ∈ B', b'.Covers x := by
    intro L L' B B' h h' hL b hb x hx
    obtain ⟨r', hr', -, hlow, hhigh, -⟩ := h.placed b (List.mem_append_right L hb)
    obtain ⟨b', hb', hx'⟩ := h'.exists_covers hr' (x := x) (by unfold Block.Covers at hx; omega)
    rcases List.mem_append.mp hb' with hlive | hfree
    · have hpw := pairwise_apart h.cover_le_one
      have hap := (List.pairwise_append.mp hpw).2.2 b' (hL b' hlive) b hb
      exact absurd hx (hap.not_covers hx')
    · exact ⟨b', hfree, hx'⟩
  obtain ⟨b', hb', hin⟩ := h'.absorbs hr hco' hmin' (hmin b hb) b.1 hplaced
    (hcover h h' (fun b hb => (hL b).mpr hb) b hb)
  have hself : b.Covers b.1 := Block.covers_self b
  have hplaced' : Placed K r b' := h'.placed_of_covers hr (List.mem_append_right L' hb')
    (hin.covers hself) ⟨hplaced.2.1, Nat.lt_of_lt_of_le hself.2 hplaced.2.2.1⟩
  obtain ⟨b'', hb'', hin'⟩ := h.absorbs hr hco hmin (hmin' b' hb') b'.1 hplaced'
    (hcover h' h (fun b hb => (hL b).mp hb) b' hb')
  -- the block around it on the way back is the block itself
  have hsame : b'' = b := by
    by_contra hne
    have hap := h.apart (List.mem_append_right L hb'') (List.mem_append_right L hb) hne
    exact hap.not_covers (hin'.covers (hin.covers hself)) hself
  rw [hsame] at hin'
  have hbb' : b = b' := hin.antisymm hin'
  rw [hbb']
  exact hb'

end Lib
