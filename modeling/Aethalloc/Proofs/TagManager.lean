/-
No tag is handed out twice.

What both managers do is to hand out the elements of the cycle 1, 2, …, 15, 1 in
turn.  `pool` is a manager that does this with a set of tags in place of the word
of bits, and a manager refines it if its calls have the same results on every word.
The rest is about the pool alone: its loop has as many turns as the cycle has tags,
so it comes by every tag from wherever it starts.  Two managers that refine the pool
give the same replies to the same calls.
-/
import Mathlib.Data.Finset.Filter
import Aethalloc.Lib.RoundRobin
import Aethalloc.Hess.X86

namespace Aethalloc.Hess

open Lib

variable {σ : Type}

/-! ### The cycle of tags -/

/-- The tag that is tried after this one. -/
def succTag (tag : Tag) : Tag := if tag ≥ 15 then 1 else tag + 1

/-- The tags that can be handed out. -/
def tags : Finset Tag := orbit succTag 1 15

theorem cycle_tags : succTag.IsPeriodicPt 15 1 := by decide

theorem mem_tags {tag : Tag} : tag ∈ tags ↔ 1 ≤ tag ∧ tag ≤ 15 := by
  constructor
  · have hall : ∀ i < 15, 1 ≤ succTag^[i] 1 ∧ succTag^[i] 1 ≤ 15 := by decide
    intro h
    obtain ⟨i, hi, rfl⟩ := mem_orbit.mp h
    exact hall i hi
  · have hall : ∀ i < 15, succTag^[i] 1 = UInt16.ofNat (i + 1) := by decide
    rintro ⟨hlow, hhigh⟩
    rw [UInt16.le_iff_toNat_le] at hlow hhigh
    have h1 : 1 ≤ tag.toNat := hlow
    have h15 : tag.toNat ≤ 15 := hhigh
    refine mem_orbit.mpr ⟨tag.toNat - 1, by omega, ?_⟩
    rw [hall _ (by omega), Nat.sub_add_cancel h1, UInt16.ofNat_toNat]

/-! ### The pool -/

/-- An element of the pool as a result of `allocate_tag`. -/
def taken : Option Tag → Except TagError Tag
  | some tag => .ok tag
  | none => .error .outOfTags

def poolAllocate (p : Pool Tag) : Except TagError Tag × Pool Tag :=
  (p.take succTag 15).map taken id

def poolFree (p : Pool Tag) (tag : Tag) : Except TagError Unit × Pool Tag :=
  if tag ∈ tags then (.ok (), p.give tag) else (.error .invalidTag, p)

/-- A manager with a set of tags. -/
def pool : TagManager (Pool Tag) where
  new := { next := 1, used := ∅ }
  isTagUsed := fun p tag => decide (tag ∈ p.used)
  allocateTag := poolAllocate
  freeTag := poolFree

/-- Wherever its loop starts, the pool finds a free tag if there is one. -/
theorem poolAllocate_cases {p : Pool Tag} (hnext : p.next ∈ tags) :
    (∃ tag ∈ tags, tag ∉ p.used ∧
      poolAllocate p = (.ok tag, { next := succTag tag, used := insert tag p.used })) ∨
    (tags ⊆ p.used ∧ ∃ next ∈ tags, poolAllocate p = (.error .outOfTags, { p with next })) := by
  have hround : orbit succTag p.next 15 = tags := orbit_of_mem cycle_tags hnext
  unfold poolAllocate
  rcases Pool.take_cases succTag 15 p with ⟨tag, htag, hfree, htake⟩ | ⟨hall, htake⟩
  · rw [hround] at htag
    rw [htake]
    exact Or.inl ⟨tag, htag, hfree, rfl⟩
  · rw [hround] at hall
    rw [htake]
    refine Or.inr ⟨hall, _, ?_, rfl⟩
    obtain ⟨i, -, hi⟩ := mem_orbit.mp hnext
    rw [← hi, ← Function.iterate_add_apply]
    exact iterate_mem_orbit (by decide) cycle_tags _

/-! ### The word of bits -/

/-- The tags whose bits are set. -/
def heldTags (w : UInt16) : Finset Tag :=
  tags.filter fun tag => w &&& ((1 : UInt16) <<< tag) ≠ 0

theorem toNat_lt_of_mem_tags {tag : Tag} (h : tag ∈ tags) : tag.toNat < 16 :=
  Nat.lt_succ_of_le (UInt16.le_iff_toNat_le.mp (mem_tags.mp h).2)

theorem toBitVec_bit {tag : Tag} (h : tag ∈ tags) :
    ((1 : UInt16) <<< tag).toBitVec = BitVec.twoPow 16 tag.toNat := by
  have hmod : (tag.toBitVec % 16).toNat = tag.toNat := Nat.mod_eq_of_lt (toNat_lt_of_mem_tags h)
  rw [BitVec.twoPow_eq, UInt16.toBitVec_shiftLeft, BitVec.shiftLeft_eq', hmod]
  rfl

/-- The test of both managers reads one bit. -/
theorem mem_heldTags {w : UInt16} {tag : Tag} :
    tag ∈ heldTags w ↔ tag ∈ tags ∧ w.toBitVec.getLsbD tag.toNat = true := by
  unfold heldTags
  rw [Finset.mem_filter]
  refine and_congr_right fun h => ?_
  have hlt := toNat_lt_of_mem_tags h
  rw [ne_eq, ← UInt16.toBitVec_inj, UInt16.toBitVec_and, toBitVec_bit h, BitVec.and_twoPow]
  cases hbit : w.toBitVec.getLsbD tag.toNat with
  | false => simp
  | true =>
      refine iff_of_true (fun hzero => ?_) rfl
      have hclear : (BitVec.twoPow 16 tag.toNat).getLsbD tag.toNat = false := by
        rw [if_pos rfl] at hzero
        rw [hzero]
        exact BitVec.getLsbD_zero
      rw [BitVec.getLsbD_twoPow] at hclear
      simp [hlt] at hclear

theorem heldTags_or {w : UInt16} {tag : Tag} (h : tag ∈ tags) :
    heldTags (w ||| ((1 : UInt16) <<< tag)) = insert tag (heldTags w) := by
  have hlt := toNat_lt_of_mem_tags h
  ext other
  rw [Finset.mem_insert, mem_heldTags, mem_heldTags, UInt16.toBitVec_or, toBitVec_bit h,
    BitVec.getLsbD_or, BitVec.getLsbD_twoPow]
  by_cases heq : other = tag
  · subst heq
    simp [h, hlt]
  · have hne : tag.toNat ≠ other.toNat := fun hc => heq (UInt16.toNat_inj.mp hc.symm)
    simp [heq, hne]

theorem heldTags_and_not {w : UInt16} {tag : Tag} (h : tag ∈ tags) :
    heldTags (w &&& ~~~((1 : UInt16) <<< tag)) = (heldTags w).erase tag := by
  have hlt := toNat_lt_of_mem_tags h
  ext other
  rw [Finset.mem_erase, mem_heldTags, mem_heldTags, UInt16.toBitVec_and, UInt16.toBitVec_not,
    toBitVec_bit h, BitVec.getLsbD_and, BitVec.getLsbD_not, BitVec.getLsbD_twoPow]
  by_cases heq : other = tag
  · subst heq
    simp [hlt]
  · have hne : tag.toNat ≠ other.toNat := fun hc => heq (UInt16.toNat_inj.mp hc.symm)
    rw [and_iff_right heq]
    refine and_congr_right fun hother => ?_
    simp [hne, toNat_lt_of_mem_tags hother]

/-! ### Refinement -/

/-- On every state whose next tag is one, the calls do what the pool does. -/
structure Refines (M : TagManager σ) (view : σ → Pool Tag) : Prop where
  new : view M.new = pool.new
  isTagUsed : ∀ m, ∀ tag ∈ tags, M.isTagUsed m tag = pool.isTagUsed (view m) tag
  allocateTag : ∀ m, (view m).next ∈ tags →
    (M.allocateTag m).map id view = pool.allocateTag (view m)
  freeTag : ∀ m tag, (M.freeTag m tag).map id view = pool.freeTag (view m) tag
  unchanged : ∀ m tag e m', M.freeTag m tag = (.error e, m') → m' = m

/-- A loop whose every turn does what the pool does. -/
theorem loop_refines {view : σ → Pool Tag} {loop : Nat → σ → Except TagError Tag × σ}
    (hend : ∀ m, loop 0 m = (.error .outOfTags, m))
    (hturn : ∀ n m, (view m).next ∈ tags → ∃ m₁ m₂,
      loop (n + 1) m =
        (if (view m).next ∈ (view m).used then loop n m₁ else (.ok (view m).next, m₂)) ∧
      view m₁ = { view m with next := succTag (view m).next } ∧
      view m₂ = { next := succTag (view m).next, used := insert (view m).next (view m).used }) :
    ∀ n m, (view m).next ∈ tags →
      (loop n m).map id view = ((view m).take succTag n).map taken id := by
  intro n
  induction n with
  | zero =>
      intro m _
      rw [hend]
      rfl
  | succ n ih =>
      intro m hnext
      obtain ⟨m₁, m₂, hloop, hm₁, hm₂⟩ := hturn n m hnext
      rw [hloop, Pool.take]
      by_cases hused : (view m).next ∈ (view m).used
      · rw [if_pos hused, if_pos hused, ← hm₁]
        refine ih m₁ ?_
        rw [hm₁]
        exact apply_mem_orbit (by decide) cycle_tags hnext
      · rw [if_neg hused, if_neg hused, ← hm₂]
        rfl

/-- A release that does what the pool does, and nothing for any other argument. -/
theorem free_refines {view : σ → Pool Tag} {free : σ → Tag → Except TagError Unit × σ}
    {release : σ → Tag → σ}
    (hfree : ∀ m tag, free m tag =
      if tag ∈ tags then (.ok (), release m tag) else (.error .invalidTag, m))
    (hview : ∀ m, ∀ tag ∈ tags, view (release m tag) = (view m).give tag) (m : σ) (tag : Tag) :
    (free m tag).map id view = poolFree (view m) tag := by
  unfold poolFree
  rw [hfree]
  split
  · exact congrArg (Prod.mk _) (hview m tag ‹_›)
  · rfl

theorem free_unchanged {free : σ → Tag → Except TagError Unit × σ} {release : σ → Tag → σ}
    (hfree : ∀ m tag, free m tag =
      if tag ∈ tags then (.ok (), release m tag) else (.error .invalidTag, m))
    (m : σ) (tag : Tag) (e : TagError) (m' : σ) (h : free m tag = (.error e, m')) : m' = m := by
  rw [hfree] at h
  split at h
  · cases h
  · cases h
    rfl

/-! ### Both managers -/

theorem bit_test_eq {w : UInt16} {tag : Tag} (h : tag ∈ tags) :
    (w &&& ((1 : UInt16) <<< tag) != 0) = decide (tag ∈ heldTags w) := by
  unfold heldTags
  rw [Bool.eq_iff_iff, bne_iff_ne, decide_eq_true_iff, Finset.mem_filter, and_iff_right h]

/-- The pool that a next tag and a word of bits stand for. -/
def viewOf (nextTag : Tag) (usedTags : UInt16) : Pool Tag :=
  { next := nextTag, used := heldTags usedTags }

theorem viewOf_new : viewOf 1 0 = pool.new := by
  unfold viewOf
  rw [show heldTags 0 = ∅ by decide]
  rfl

theorem viewOf_or (nextTag : Tag) (usedTags : UInt16) {tag : Tag} (h : tag ∈ tags) :
    viewOf nextTag (usedTags ||| ((1 : UInt16) <<< tag)) =
      { next := nextTag, used := insert tag (heldTags usedTags) } := by
  rw [← heldTags_or h]
  rfl

theorem viewOf_and_not (nextTag : Tag) (usedTags : UInt16) {tag : Tag} (h : tag ∈ tags) :
    viewOf nextTag (usedTags &&& ~~~((1 : UInt16) <<< tag)) =
      (viewOf nextTag usedTags).give tag := by
  unfold Pool.give viewOf
  rw [heldTags_and_not h]

theorem SoftwareTagManager.allocateLoop_succ (n : Nat) (m : SoftwareTagManager)
    (hnext : m.nextTag ∈ tags) :
    allocateLoop (n + 1) m =
      if m.nextTag ∈ heldTags m.usedTags then
        allocateLoop n { m with nextTag := succTag m.nextTag }
      else
        (.ok m.nextTag, { m with
          nextTag := succTag m.nextTag
          usedTags := m.usedTags ||| ((1 : UInt16) <<< m.nextTag) }) := by
  rw [allocateLoop]
  unfold isTagUsed
  simp only [bit_test_eq hnext]
  by_cases hused : m.nextTag ∈ heldTags m.usedTags
  · rw [if_pos hused, if_neg (by simp [hused])]
    rfl
  · rw [if_neg hused, if_pos (by simp [hused])]
    rfl

theorem SoftwareTagManager.freeTag_eq (m : SoftwareTagManager) (tag : Tag) :
    m.freeTag tag =
      if tag ∈ tags then (.ok (), m.markTagFree tag) else (.error .invalidTag, m) := by
  have hiff : tag ∈ tags ↔ MIN_TAG ≤ tag ∧ tag ≤ MAX_TAG := mem_tags
  unfold freeTag
  by_cases h : tag ∈ tags
  · rw [if_pos h, if_neg (not_not_intro (hiff.mp h))]
  · rw [if_neg h, if_pos (mt hiff.mpr h)]

def softwareView (m : SoftwareTagManager) : Pool Tag := viewOf m.nextTag m.usedTags

theorem software_allocate (m : SoftwareTagManager) (hnext : (softwareView m).next ∈ tags) :
    m.allocateTag.map id softwareView = poolAllocate (softwareView m) := by
  refine loop_refines (fun _ => rfl) (fun n m hnext => ?_) 15 m hnext
  exact ⟨_, _, m.allocateLoop_succ n hnext, rfl, viewOf_or _ _ hnext⟩

theorem software_refines : Refines software softwareView where
  new := viewOf_new
  isTagUsed := fun _ _ h => bit_test_eq h
  allocateTag := software_allocate
  freeTag := free_refines SoftwareTagManager.freeTag_eq fun _ _ h => viewOf_and_not _ _ h
  unchanged := free_unchanged SoftwareTagManager.freeTag_eq

theorem X86TagManager.allocateLoop_succ (n : Nat) (m : X86TagManager)
    (hnext : m.nextTag ∈ tags) :
    allocateLoop (n + 1) m =
      if m.nextTag ∈ heldTags m.usedTags then
        allocateLoop n { m with nextTag := succTag m.nextTag }
      else
        (.ok m.nextTag, { m with
          nextTag := succTag m.nextTag
          usedTags := m.usedTags ||| ((1 : UInt16) <<< m.nextTag) }) := by
  rw [allocateLoop]
  have htest := bit_test_eq (w := m.usedTags) hnext
  by_cases hused : m.nextTag ∈ heldTags m.usedTags
  · rw [if_pos hused, if_neg (by simpa [hused] using htest)]
    rfl
  · rw [if_neg hused, if_pos (by simpa [hused] using htest)]
    rfl

theorem X86TagManager.freeTag_eq (m : X86TagManager) (tag : Tag) :
    m.freeTag tag =
      if tag ∈ tags then
        (.ok (), { m with usedTags := m.usedTags &&& ~~~((1 : UInt16) <<< tag) })
      else
        (.error .invalidTag, m) := by
  have hiff : tag ∉ tags ↔ tag = 0 ∨ tag > 15 := by
    rw [mem_tags]
    grind
  unfold freeTag
  by_cases h : tag ∈ tags
  · rw [if_pos h, if_neg (mt hiff.mpr (not_not_intro h))]
  · rw [if_neg h, if_pos (hiff.mp h)]

def x86View (m : X86TagManager) : Pool Tag := viewOf m.nextTag m.usedTags

theorem x86_allocate (m : X86TagManager) (hnext : (x86View m).next ∈ tags) :
    m.allocateTag.map id x86View = poolAllocate (x86View m) := by
  refine loop_refines (fun _ => rfl) (fun n m hnext => ?_) 15 m hnext
  exact ⟨_, _, m.allocateLoop_succ n hnext, rfl, viewOf_or _ _ hnext⟩

theorem x86_refines (cpuid : UInt32 → CpuidResult) : Refines (x86 cpuid) x86View where
  new := viewOf_new
  isTagUsed := fun _ _ h => bit_test_eq h
  allocateTag := x86_allocate
  freeTag := free_refines X86TagManager.freeTag_eq fun _ _ h => viewOf_and_not _ _ h
  unchanged := free_unchanged X86TagManager.freeTag_eq

/-! ### Runs -/

/-- The pool's client holds exactly the tags that are in use. -/
structure Accounted (p : Client (Pool Tag)) : Prop where
  next : p.manager.next ∈ tags
  used : p.manager.used = p.allocated

theorem accounted_init : Accounted pool.init where
  next := mem_tags.mpr (by decide)
  used := rfl

theorem Accounted.call {p : Client (Pool Tag)} (h : Accounted p) (l : Call) :
    Accounted (pool.call p l) := by
  cases l with
  | allocateTag =>
      rcases poolAllocate_cases h.next with ⟨tag, htag, -, heq⟩ | ⟨-, next, hnext, heq⟩
      · have hcall : pool.allocateTag p.manager = _ := heq
        rw [TagManager.call, hcall]
        exact ⟨apply_mem_orbit (by decide) cycle_tags htag, congrArg (insert tag) h.used⟩
      · have hcall : pool.allocateTag p.manager = _ := heq
        rw [TagManager.call, hcall]
        exact ⟨hnext, h.used⟩
  | freeTag tag =>
      by_cases htag : tag ∈ tags
      · have hcall : pool.freeTag p.manager tag = (.ok (), p.manager.give tag) := if_pos htag
        rw [TagManager.call, hcall]
        exact ⟨h.next, congrArg (Finset.erase · tag) h.used⟩
      · have hcall : pool.freeTag p.manager tag = (.error .invalidTag, p.manager) := if_neg htag
        rw [TagManager.call, hcall]
        exact ⟨h.next, h.used⟩

/-- A client with the manager's state, and one with the pool's, after the same calls. -/
structure Follows (view : σ → Pool Tag) (c : Client σ) (p : Client (Pool Tag)) : Prop where
  manager : view c.manager = p.manager
  allocated : c.allocated = p.allocated
  replies : c.replies = p.replies
  accounted : Accounted p

section Refinement

variable {M : TagManager σ} {view : σ → Pool Tag} {c : Client σ} {p : Client (Pool Tag)}

theorem Follows.allocateTag (hM : Refines M view) (h : Follows view c p) :
    pool.allocateTag p.manager = (M.allocateTag c.manager).map id view := by
  rw [← h.manager, hM.allocateTag c.manager]
  rw [h.manager]
  exact h.accounted.next

theorem Follows.freeTag (hM : Refines M view) (h : Follows view c p) (tag : Tag) :
    pool.freeTag p.manager tag = (M.freeTag c.manager tag).map id view := by
  rw [← h.manager, hM.freeTag c.manager tag]

/-- One call keeps the two together. -/
theorem Follows.call (hM : Refines M view) (h : Follows view c p) (l : Call) :
    Follows view (M.call c l) (pool.call p l) := by
  refine ⟨?_, ?_, ?_, h.accounted.call l⟩
  all_goals
    cases l with
    | allocateTag =>
        rw [TagManager.call, TagManager.call, h.allocateTag hM]
        rcases M.allocateTag c.manager with ⟨r, m⟩
        cases r <;> simp [h.allocated, h.replies]
    | freeTag tag =>
        rw [TagManager.call, TagManager.call, h.freeTag hM]
        rcases M.freeTag c.manager tag with ⟨r, m⟩
        cases r <;> simp [h.allocated, h.replies]

/-- All runs do. -/
theorem follows_exec (hM : Refines M view) (calls : List Call) :
    ∃ c p, M.machine.exec M.init calls = some c ∧ pool.machine.exec pool.init calls = some p ∧
      Follows view c p :=
  Machine.exec_related (fun _ _ l h => ⟨_, _, rfl, rfl, h.call hM l⟩) calls _ _
    ⟨hM.new, rfl, rfl, accounted_init⟩

/-- A tag that the client does not have, unless it has them all. -/
theorem Follows.allocate_cases (hM : Refines M view) (h : Follows view c p) :
    (∃ tag ∈ tags, tag ∉ c.allocated ∧ (M.allocateTag c.manager).1 = .ok tag) ∨
    (tags ⊆ c.allocated ∧ (M.allocateTag c.manager).1 = .error .outOfTags) := by
  have hresult : (poolAllocate p.manager).1 = (M.allocateTag c.manager).1 :=
    congrArg Prod.fst (h.allocateTag hM)
  rw [h.allocated, ← h.accounted.used, ← hresult]
  rcases poolAllocate_cases h.accounted.next with ⟨tag, htag, hnew, heq⟩ | ⟨hall, _, -, heq⟩
  · exact Or.inl ⟨tag, htag, hnew, by rw [heq]⟩
  · exact Or.inr ⟨hall, by rw [heq]⟩

/-- A tag is released, and nothing else is. -/
theorem Refines.free_cases (hM : Refines M view) (m : σ) (tag : Tag) :
    (tag ∈ tags ∧ (M.freeTag m tag).1 = .ok () ∧
      view (M.freeTag m tag).2 = (view m).give tag) ∨
    (tag ∉ tags ∧ (M.freeTag m tag).1 = .error .invalidTag) := by
  have hcall : (M.freeTag m tag).map id view = poolFree (view m) tag := hM.freeTag m tag
  unfold poolFree at hcall
  by_cases htag : tag ∈ tags
  · rw [if_pos htag] at hcall
    exact Or.inl ⟨htag, congrArg Prod.fst hcall, congrArg Prod.snd hcall⟩
  · rw [if_neg htag] at hcall
    exact Or.inr ⟨htag, congrArg Prod.fst hcall⟩

theorem Refines.isTagUsed_iff (hM : Refines M view) (m : σ) {tag : Tag} (htag : tag ∈ tags) :
    M.isTagUsed m tag = true ↔ tag ∈ (view m).used := by
  rw [hM.isTagUsed m tag htag]
  exact decide_eq_true_iff

/-- What the calls do next, in terms of the tags the client has. -/
structure Exclusive (M : TagManager σ) (c : Client σ) : Prop where
  served : ∀ tag m, M.allocateTag c.manager = (.ok tag, m) →
    1 ≤ tag ∧ tag ≤ 15 ∧ tag ∉ c.allocated
  refused : ∀ e, (M.allocateTag c.manager).1 = .error e ↔
    e = .outOfTags ∧ ∀ tag, 1 ≤ tag → tag ≤ 15 → tag ∈ c.allocated
  rejected : ∀ tag, (∃ e, (M.freeTag c.manager tag).1 = .error e) ↔ ¬ (1 ≤ tag ∧ tag ≤ 15)
  unchanged : ∀ tag e m, M.freeTag c.manager tag = (.error e, m) → m = c.manager
  released : ∀ tag m, M.freeTag c.manager tag = (.ok (), m) → ∀ other, 1 ≤ other → other ≤ 15 →
    (M.isTagUsed m other = true ↔ other ≠ tag ∧ M.isTagUsed c.manager other = true)
  recorded : ∀ tag, 1 ≤ tag → tag ≤ 15 →
    (M.isTagUsed c.manager tag = true ↔ tag ∈ c.allocated)

theorem Follows.exclusive (hM : Refines M view) (h : Follows view c p) : Exclusive M c where
  served := by
    intro tag m heq
    rcases h.allocate_cases hM with ⟨tag', htag, hnew, hok⟩ | ⟨-, herr⟩
    · rw [heq] at hok
      obtain rfl := Except.ok.inj hok
      exact ⟨(mem_tags.mp htag).1, (mem_tags.mp htag).2, hnew⟩
    · rw [heq] at herr
      cases herr
  refused := by
    intro e
    rcases h.allocate_cases hM with ⟨tag, htag, hnew, hok⟩ | ⟨hall, herr⟩
    · refine iff_of_false (fun hc => ?_) (fun hc => ?_)
      · rw [hok] at hc
        cases hc
      · exact hnew (hc.2 tag (mem_tags.mp htag).1 (mem_tags.mp htag).2)
    · rw [herr]
      refine ⟨fun hc => ⟨(Except.error.inj hc).symm, fun tag hlow hhigh => ?_⟩, ?_⟩
      · exact hall (mem_tags.mpr ⟨hlow, hhigh⟩)
      · rintro ⟨rfl, -⟩
        rfl
  rejected := by
    intro tag
    rw [← mem_tags]
    rcases hM.free_cases c.manager tag with ⟨htag, hok, -⟩ | ⟨htag, herr⟩
    · rw [hok]
      exact iff_of_false nofun (not_not_intro htag)
    · exact iff_of_true ⟨_, herr⟩ htag
  unchanged := fun tag e m heq => hM.unchanged c.manager tag e m heq
  released := by
    intro tag m heq other hlow hhigh
    have hother := mem_tags.mpr ⟨hlow, hhigh⟩
    rcases hM.free_cases c.manager tag with ⟨-, -, hview⟩ | ⟨-, herr⟩
    · rw [heq] at hview
      rw [hM.isTagUsed_iff m hother, hM.isTagUsed_iff c.manager hother, hview]
      exact Finset.mem_erase
    · rw [heq] at herr
      cases herr
  recorded := by
    intro tag hlow hhigh
    rw [hM.isTagUsed_iff c.manager (mem_tags.mpr ⟨hlow, hhigh⟩), h.manager, h.accounted.used,
      h.allocated]

end Refinement

/--
**No tag is handed out twice.**  After every sequence of calls, whatever the arguments
of `free_tag` and whatever the processor is, each manager hands out only a tag from 1
to 15 that its client does not have, and refuses exactly when the client has all
fifteen; it rejects every other argument of `free_tag` and then is as before, and
otherwise releases that tag alone; and the two have given the same replies.
-/
theorem tags_exclusive (cpuid : UInt32 → CpuidResult) (calls : List Call) :
    ∃ c c', software.machine.exec software.init calls = some c ∧
      (x86 cpuid).machine.exec (x86 cpuid).init calls = some c' ∧
      Exclusive software c ∧ Exclusive (x86 cpuid) c' ∧ c.replies = c'.replies := by
  obtain ⟨c, p, hc, hp, h⟩ := follows_exec software_refines calls
  obtain ⟨c', p', hc', hp', h'⟩ := follows_exec (x86_refines cpuid) calls
  -- the pool is one machine, so it ended in one state
  obtain rfl : p = p' := Option.some.inj (hp.symm.trans hp')
  exact ⟨c, c', hc, hc', h.exclusive software_refines, h'.exclusive (x86_refines cpuid),
    h.replies.trans h'.replies.symm⟩

end Aethalloc.Hess
