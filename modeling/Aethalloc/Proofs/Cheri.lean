/-
The CHERI manager hands out the lowest free tag.

What is proved of the other managers holds of it as well: no tag twice, a refusal
only when all fifteen are out.  It does not follow their pool, which goes round in
turn, so the account is kept here directly: the tags whose bits are set are the ones
the client has.  From the search's starting at the first tag it follows more, that a
tag is never higher than it has to be.
-/
import Aethalloc.Hess.Cheri
import Aethalloc.Proofs.TagManager

namespace Aethalloc.Hess

open Lib

namespace CheriTagManager

variable {m : CheriTagManager} {tag : Tag}

theorem mem_tagRange : tag ∈ tagRange ↔ tag ∈ tags := by
  have hset : tagRange.toFinset = tags := by decide
  rw [← hset, List.mem_toFinset]

/-- What a search through tags in order finds: the first that is free. -/
theorem allocateLoop_cases (ts : List Tag) (hmem : ∀ t ∈ ts, t ∈ tags)
    (hsorted : ts.Pairwise (· < ·)) :
    (∃ tag ∈ ts, tag ∉ heldTags m.usedTags ∧
      (∀ lower ∈ ts, lower < tag → lower ∈ heldTags m.usedTags) ∧
      m.allocateLoop ts = (.ok tag, ⟨m.usedTags ||| ((1 : UInt16) <<< tag)⟩)) ∨
    ((∀ t ∈ ts, t ∈ heldTags m.usedTags) ∧ m.allocateLoop ts = (.error .outOfTags, m)) := by
  induction ts with
  | nil =>
      refine Or.inr ⟨fun t ht => ?_, rfl⟩
      cases ht
  | cons t ts ih =>
      obtain ⟨hfirst, hrest⟩ := List.pairwise_cons.mp hsorted
      have ht : t ∈ tags := hmem t List.mem_cons_self
      have htest : m.usedTags &&& ((1 : UInt16) <<< t) = 0 ↔ t ∉ heldTags m.usedTags := by
        unfold heldTags
        rw [Finset.mem_filter, and_iff_right ht, not_not]
      rw [allocateLoop]
      by_cases hfree : m.usedTags &&& ((1 : UInt16) <<< t) = 0
      · rw [if_pos hfree]
        refine Or.inl ⟨t, List.mem_cons_self, htest.mp hfree, ?_, rfl⟩
        intro lower hlower hlt
        rcases List.mem_cons.mp hlower with rfl | hlower
        · exact absurd hlt (UInt16.lt_irrefl _)
        · exact absurd (hfirst lower hlower) (UInt16.lt_asymm hlt)
      · rw [if_neg hfree]
        have hheld : t ∈ heldTags m.usedTags := not_not.mp fun hc => hfree (htest.mpr hc)
        rcases ih (fun t' ht' => hmem t' (List.mem_cons_of_mem t ht')) hrest with
          ⟨tag, htag, hnew, hlower, hok⟩ | ⟨hall, herr⟩
        · refine Or.inl ⟨tag, List.mem_cons_of_mem t htag, hnew, ?_, hok⟩
          intro lower hmem' hlt
          rcases List.mem_cons.mp hmem' with rfl | hmem'
          · exact hheld
          · exact hlower lower hmem' hlt
        · refine Or.inr ⟨?_, herr⟩
          intro t' ht'
          rcases List.mem_cons.mp ht' with rfl | ht'
          · exact hheld
          · exact hall t' ht'

theorem allocate_cases (m : CheriTagManager) :
    (∃ tag ∈ tags, tag ∉ heldTags m.usedTags ∧
      (∀ lower ∈ tags, lower < tag → lower ∈ heldTags m.usedTags) ∧
      m.allocateTag = (.ok tag, ⟨m.usedTags ||| ((1 : UInt16) <<< tag)⟩)) ∨
    ((∀ t ∈ tags, t ∈ heldTags m.usedTags) ∧ m.allocateTag = (.error .outOfTags, m)) := by
  rcases allocateLoop_cases (m := m) tagRange (fun t => mem_tagRange.mp) (by decide) with
    ⟨tag, htag, hnew, hlower, hok⟩ | ⟨hall, herr⟩
  · refine Or.inl ⟨tag, mem_tagRange.mp htag, hnew, ?_, hok⟩
    intro lower hmem
    exact hlower lower (mem_tagRange.mpr hmem)
  · refine Or.inr ⟨?_, herr⟩
    intro t ht
    exact hall t (mem_tagRange.mpr ht)

theorem free_cases (m : CheriTagManager) (tag : Tag) :
    (tag ∈ tags ∧ m.freeTag tag = (.ok (), ⟨m.usedTags &&& ~~~((1 : UInt16) <<< tag)⟩)) ∨
    (tag ∉ tags ∧ m.freeTag tag = (.error .invalidTag, m)) := by
  have hguard : tag = 0 ∨ tag > MAX_TAG ↔ tag ∉ tags := by
    rw [mem_tags, ← UInt16.toNat_inj, gt_iff_lt, UInt16.lt_iff_toNat_lt, UInt16.le_iff_toNat_le,
      UInt16.le_iff_toNat_le]
    change tag.toNat = 0 ∨ 15 < tag.toNat ↔ ¬ (1 ≤ tag.toNat ∧ tag.toNat ≤ 15)
    omega
  unfold freeTag
  by_cases hbad : tag = 0 ∨ tag > MAX_TAG
  · rw [if_pos hbad]
    exact Or.inr ⟨hguard.mp hbad, rfl⟩
  · rw [if_neg hbad]
    exact Or.inl ⟨not_not.mp fun hc => hbad (hguard.mpr hc), rfl⟩

/-! ### Runs -/

/-- The bits that are set are the tags the client has. -/
def Accounts (c : Client CheriTagManager) : Prop := c.allocated = heldTags c.manager.usedTags

theorem accounts_init : Accounts cheri.init := by
  unfold Accounts
  decide

theorem Accounts.call {c : Client CheriTagManager} (h : Accounts c) (l : Call) :
    Accounts (cheri.call c l) := by
  unfold Accounts at *
  cases l with
  | allocateTag =>
      rcases allocate_cases c.manager with ⟨tag, htag, -, -, hok⟩ | ⟨-, herr⟩
      · have hcall : cheri.allocateTag c.manager = _ := hok
        simp only [TagManager.call, hcall]
        rw [h, heldTags_or htag]
      · have hcall : cheri.allocateTag c.manager = _ := herr
        simp only [TagManager.call, hcall]
        exact h
  | freeTag tag =>
      rcases free_cases c.manager tag with ⟨htag, hok⟩ | ⟨-, herr⟩
      · have hcall : cheri.freeTag c.manager tag = _ := hok
        simp only [TagManager.call, hcall]
        rw [h, heldTags_and_not htag]
      · have hcall : cheri.freeTag c.manager tag = _ := herr
        simp only [TagManager.call, hcall]
        exact h

theorem accounts_exec (calls : List Call) :
    ∃ c, cheri.machine.exec cheri.init calls = some c ∧ Accounts c := by
  have hrun : ∀ (calls : List Call) (c : Client CheriTagManager), Accounts c →
      ∃ c', cheri.machine.exec c calls = some c' ∧ Accounts c' := by
    intro calls
    induction calls with
    | nil => exact fun c hc => ⟨c, rfl, hc⟩
    | cons l calls ih => exact fun c hc => ih (cheri.call c l) (hc.call l)
  exact hrun calls cheri.init accounts_init

/-! ### What the client can rely on -/

theorem isTagUsed_iff (m : CheriTagManager) (htag : tag ∈ tags) :
    cheri.isTagUsed m tag = true ↔ tag ∈ heldTags m.usedTags := by
  have htest : cheri.isTagUsed m tag = decide (tag ∈ heldTags m.usedTags) := bit_test_eq htag
  rw [htest, decide_eq_true_iff]

theorem Accounts.exclusive {c : Client CheriTagManager} (h : Accounts c) : Exclusive cheri c where
  served := by
    intro tag m heq
    rcases allocate_cases c.manager with ⟨tag', htag, hnew, -, hok⟩ | ⟨-, herr⟩
    · obtain ⟨hres, -⟩ := Prod.mk.inj (heq.symm.trans hok)
      obtain rfl := Except.ok.inj hres
      exact ⟨(mem_tags.mp htag).1, (mem_tags.mp htag).2, fun hc => hnew (h ▸ hc)⟩
    · cases heq.symm.trans herr
  refused := by
    intro e
    rcases allocate_cases c.manager with ⟨tag, htag, hnew, -, hok⟩ | ⟨hall, herr⟩
    · refine iff_of_false (fun hc => ?_) (fun hc => ?_)
      · have hcall : (cheri.allocateTag c.manager).1 = .ok tag := congrArg Prod.fst hok
        rw [hcall] at hc
        cases hc
      · have hmem := hc.2 tag (mem_tags.mp htag).1 (mem_tags.mp htag).2
        exact hnew (h ▸ hmem)
    · have hcall : (cheri.allocateTag c.manager).1 = .error .outOfTags := congrArg Prod.fst herr
      rw [hcall]
      refine ⟨fun hc => ⟨(Except.error.inj hc).symm, fun tag hlow hhigh => ?_⟩, ?_⟩
      · rw [h]
        exact hall tag (mem_tags.mpr ⟨hlow, hhigh⟩)
      · rintro ⟨rfl, -⟩
        rfl
  rejected := by
    intro tag
    rw [← mem_tags]
    rcases free_cases c.manager tag with ⟨htag, hok⟩ | ⟨htag, herr⟩
    · have hcall : (cheri.freeTag c.manager tag).1 = .ok () := congrArg Prod.fst hok
      rw [hcall]
      exact iff_of_false nofun (not_not_intro htag)
    · exact iff_of_true ⟨_, congrArg Prod.fst herr⟩ htag
  unchanged := by
    intro tag e m heq
    rcases free_cases c.manager tag with ⟨-, hok⟩ | ⟨-, herr⟩
    · cases heq.symm.trans hok
    · exact (Prod.mk.inj (heq.symm.trans herr)).2
  released := by
    intro tag m heq other hlow hhigh
    have hother := mem_tags.mpr ⟨hlow, hhigh⟩
    rcases free_cases c.manager tag with ⟨htag, hok⟩ | ⟨-, herr⟩
    · obtain ⟨-, rfl⟩ := Prod.mk.inj (heq.symm.trans hok)
      rw [isTagUsed_iff _ hother, isTagUsed_iff _ hother, heldTags_and_not htag]
      exact Finset.mem_erase
    · cases heq.symm.trans herr
  recorded := by
    intro tag hlow hhigh
    rw [isTagUsed_iff _ (mem_tags.mpr ⟨hlow, hhigh⟩), h]

/-- No tag below the one that is handed out is free, so it is at most one above the number of tags
that are out. -/
structure FirstFit (c : Client CheriTagManager) : Prop where
  lowest : ∀ tag m, cheri.allocateTag c.manager = (.ok tag, m) → ∀ lower, 1 ≤ lower →
    lower < tag → lower ∈ c.allocated
  bounded : ∀ tag m, cheri.allocateTag c.manager = (.ok tag, m) →
    tag.toNat ≤ c.allocated.card + 1

theorem Accounts.lowest {c : Client CheriTagManager} (h : Accounts c) {m : CheriTagManager}
    (heq : cheri.allocateTag c.manager = (.ok tag, m)) :
    tag ∈ tags ∧ ∀ lower, 1 ≤ lower → lower < tag → lower ∈ c.allocated := by
  rcases allocate_cases c.manager with ⟨tag', htag, -, hlower, hok⟩ | ⟨-, herr⟩
  · obtain ⟨hres, -⟩ := Prod.mk.inj (heq.symm.trans hok)
    obtain rfl := Except.ok.inj hres
    refine ⟨htag, fun lower hone hlt => ?_⟩
    rw [h]
    have hle : lower ≤ 15 := UInt16.le_trans (UInt16.le_of_lt hlt) (mem_tags.mp htag).2
    exact hlower lower (mem_tags.mpr ⟨hone, hle⟩) hlt
  · cases heq.symm.trans herr

theorem Accounts.firstFit {c : Client CheriTagManager} (h : Accounts c) : FirstFit c where
  lowest tag m heq := (h.lowest heq).2
  bounded := by
    intro tag m heq
    obtain ⟨htag, hlowest⟩ := h.lowest heq
    have hlt := toNat_lt_of_mem_tags htag
    -- the tags from 1 up to the one handed out are all with the client
    have hcard : (Finset.range (tag.toNat - 1)).card ≤ c.allocated.card := by
      refine Finset.card_le_card_of_injOn (fun i => UInt16.ofNat (i + 1)) ?_ ?_
      · intro i hi
        have hi' : i < tag.toNat - 1 := Finset.mem_range.mp hi
        have hnat : (UInt16.ofNat (i + 1)).toNat = i + 1 := by
          rw [UInt16.toNat_ofNat']
          omega
        apply hlowest
        · rw [UInt16.le_iff_toNat_le, hnat]
          change 1 ≤ i + 1
          omega
        · rw [UInt16.lt_iff_toNat_lt, hnat]
          omega
      · intro i hi j hj hij
        have hi' : i < tag.toNat - 1 := Finset.mem_range.mp hi
        have hj' : j < tag.toNat - 1 := Finset.mem_range.mp hj
        have hnat := congrArg UInt16.toNat hij
        simp only [UInt16.toNat_ofNat'] at hnat
        omega
    rw [Finset.card_range] at hcard
    omega

end CheriTagManager

/-- **First fit keeps to the tags that are free, and to the lowest of them**, after every sequence
of calls. -/
theorem cheri_first_fit (calls : List Call) :
    ∃ c, cheri.machine.exec cheri.init calls = some c ∧ Exclusive cheri c ∧
      CheriTagManager.FirstFit c := by
  obtain ⟨c, hrun, haccounts⟩ := CheriTagManager.accounts_exec calls
  exact ⟨c, hrun, haccounts.exclusive, haccounts.firstFit⟩

end Aethalloc.Hess
