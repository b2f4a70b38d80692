/-
The moves calls in simple-cache mode are made of.

A block goes from the client to a list or back, from a global list to a thread's, or
from fresh pages to either; the front part of a thread's list goes to a global one.
Each lemma takes the whole invariant over one such move.  What happens to the places
follows from the laws of bins, what happens to the ground is known, and of the lists
it has to be seen that the one word written belongs to none that should stay.
-/
import Aethalloc.Proofs.Abi.Simple.Invariant

namespace Aethalloc.Abi.Simple

open Lib

variable {F : Shelf → List Nat} {k : Core} {L L' : List Allocation} {a : Allocation}
  {s : Shelf} {l : List Nat} {t c b size align : Nat}

/-! ### What a move does to the contents -/

theorem contents_update (F : Shelf → List Nat) (L : List Allocation) (s : Shelf) (l : List Nat) :
    contents (Function.update F s l) L = Function.update (contents F L) (.listed s) l := by
  funext p
  cases p with
  | live c =>
      rw [Function.update_of_ne (by simp)]
      rfl
  | listed s' =>
      show Function.update F s l s' = _
      by_cases hs : s' = s
      · subst hs
        rw [Function.update_self, Function.update_self]
      · rw [Function.update_of_ne hs, Function.update_of_ne (by simpa using hs)]
        rfl

/-- A small allocation of the class joins the live blocks. -/
theorem contents_cons (F : Shelf → List Nat) (L : List Allocation) (hs : a.Small)
    (hc : classOf a.size = some c) : contents F (a :: L)
      = Function.update (contents F L) (.live c) (a.block :: liveBlocks L c) := by
  funext p
  cases p with
  | live c' =>
      show liveBlocks (a :: L) c' = _
      rw [liveBlocks_cons hs hc]
      by_cases hcc : c' = c
      · subst hcc
        rw [Function.update_self, Function.update_self]
      · rw [Function.update_of_ne hcc, Function.update_of_ne (by simpa using hcc)]
        rfl
  | listed s =>
      rw [Function.update_of_ne (by simp)]
      rfl

/-- A large allocation is at no place. -/
theorem contents_cons_large (F : Shelf → List Nat) (L : List Allocation) (hs : ¬ a.Small) :
    contents F (a :: L) = contents F L := by
  funext p
  cases p with
  | live c => show liveBlocks (a :: L) c = liveBlocks L c; rw [liveBlocks_cons_large hs]
  | listed s => rfl

theorem contents_perm (hp : L.Perm L') (p : Place) : (contents F L p).Perm (contents F L' p) := by
  cases p with
  | live c => exact (hp.filter _).map _
  | listed s => exact List.Perm.refl _

namespace Placed

variable {R R' : List Region} {carved : Nat → List Nat} {C C' : Place → List Nat} {p q : Place}
  {m n : List Nat}

/-- Blocks go from one place of a class to another. -/
theorem transfer (h : Placed R carved C) (hpq : p ≠ q) (hcls : p.cls = q.cls)
    (hp : (C p).Perm (l ++ m)) (hq : n.Perm (l ++ C q)) :
    Placed R carved (Function.update (Function.update C p m) q n) where
  exclusive := h.exclusive.transfer hpq hp hq
  grid r b hb := by
    have hheld : Held Place.cls C b r.cls := (Held.transfer_iff hpq hcls hp hq).mp ⟨r, rfl, hb⟩
    obtain ⟨r', hr', hb'⟩ := hheld
    rw [← hr']
    exact h.grid r' b hb'
  complete b c := (h.complete b c).trans (Held.transfer_iff hpq hcls hp hq).symm

/-- A new block comes to a place. -/
theorem add (h : Placed R carved C) (hcls : p.cls = c) (hb : Carved R b c)
    (hnew : ∀ r, b ∉ C r) :
    Placed R (Function.update carved c (b :: carved c)) (Function.update C p (b :: C p)) where
  exclusive := by
    refine h.exclusive.put (List.nodup_singleton b) (fun r x hx => ?_) (List.Perm.refl _)
    rw [List.mem_singleton.mp hx]
    exact hnew r
  grid r b' hb' := by
    by_cases hr : r = p
    · subst hr
      rw [Function.update_self] at hb'
      rcases List.mem_cons.mp hb' with rfl | hb'
      · rw [hcls]
        exact hb
      · exact h.grid r b' hb'
    · rw [Function.update_of_ne hr] at hb'
      exact h.grid r b' hb'
  complete b' c' := by
    have hheld : Held Place.cls (Function.update C p (b :: C p)) b' c'
        ↔ (p.cls = c' ∧ b' ∈ [b]) ∨ Held Place.cls C b' c' := Held.put_iff (List.Perm.refl _)
    rw [hheld, List.mem_singleton, ← h.complete, hcls]
    by_cases hc : c' = c
    · subst hc
      rw [Function.update_self, List.mem_cons]
      simp
    · rw [Function.update_of_ne hc]
      simp [Ne.symm hc]

theorem perm (h : Placed R carved C) (hp : ∀ r, (C r).Perm (C' r)) : Placed R carved C' where
  exclusive := h.exclusive.perm hp
  grid r b hb := h.grid r b ((hp r).mem_iff.mpr hb)
  complete b c := by
    rw [h.complete]
    exact exists_congr fun r => and_congr_right fun _ => (hp r).mem_iff

/-- Regions may come and go as long as the blocks keep theirs. -/
theorem frame (h : Placed R carved C) (hR : ∀ b c, Carved R b c → Carved R' b c) :
    Placed R' carved C where
  exclusive := h.exclusive
  grid r b hb := hR b r.cls (h.grid r b hb)
  complete := h.complete

end Placed

namespace Inv

/-! ### The lists in memory -/

/-- A head is null or the address of a block. -/
theorem fits (h : Inv F k L) (s : Shelf) : Link.pointer.Fits (k.heads s) := by
  have hchain := h.chains s
  cases hF : F s with
  | nil =>
      rw [hF, Chain.nil_iff] at hchain
      rw [hchain, Link.pointer_fits]
      simp
  | cons b l =>
      rw [hF, Chain.cons_iff] at hchain
      have hgrid : Carved k.arena.regions b s.cls := h.placed.grid (.listed s) b (by
        show b ∈ F s
        rw [hF]
        exact List.mem_cons_self ..)
      rw [hchain.1, Link.pointer_fits]
      rintro v ⟨⟩
      exact hgrid.pointer h.ground.regions

/-- Listed blocks other than the one written have their links elsewhere. -/
theorem apart (h : Inv F k L) (hb : Carved k.arena.regions b c) (hl : l ⊆ F s) (hnot : b ∉ l) :
    ∀ b' ∈ l, b' + Link.pointer.width ≤ b ∨ b + Link.pointer.width ≤ b' := by
  intro b' hb'
  have hgrid : Carved k.arena.regions b' s.cls := h.placed.grid (.listed s) b' (hl hb')
  have hne : b' ≠ b := fun hc => hnot (by rw [← hc]; exact hb')
  rw [Link.pointer_width]
  exact hb.apart h.ground.regions hgrid hne

/-- A list without a block does not see that block's first word. -/
theorem chain_word {mem : Mem} {p : Option Nat} (h : Inv F k L) (hb : Carved k.arena.regions b c)
    (hmem : ∀ x, ¬ (b ≤ x ∧ x < b + 8) → mem x = k.arena.mem x) (hl : l ⊆ F s) (hnot : b ∉ l)
    (hchain : Chain (Link.pointer.read k.arena.mem) p l) :
    Chain (Link.pointer.read mem) p l := by
  refine Link.chain_congr hchain fun b' hb' x h1 h2 => hmem x ?_
  have hap := h.apart hb hl hnot b' hb'
  rw [Link.pointer_width] at hap h2
  omega

/-- The head of a list moves on. -/
theorem pop_chains (h : Inv F k L) (hF : F s = b :: l) (s' : Shelf) :
    Chain (Link.pointer.read k.arena.mem)
      (Function.update k.heads s (Link.pointer.read k.arena.mem b) s')
      (Function.update F s l s') := by
  by_cases hs : s' = s
  · subst hs
    have hchain := h.chains s'
    rw [hF, Chain.cons_iff] at hchain
    rw [Function.update_self, Function.update_self]
    exact hchain.2
  · rw [Function.update_of_ne hs, Function.update_of_ne hs]
    exact h.chains s'

/-- The block at the head of a list is on no other, nor further on, nor live. -/
theorem pop_gone (h : Inv F k L) (hF : F s = b :: l) :
    (∀ s', b ∉ Function.update F s l s') ∧ ∀ c, b ∉ liveBlocks L c := by
  have hperm : (contents F L (.listed s)).Perm (b :: l) := by
    show (F s).Perm _
    rw [hF]
  obtain ⟨-, hgone⟩ := h.placed.exclusive.take hperm
  rw [← contents_update] at hgone
  exact ⟨fun s' => hgone (.listed s'), fun c => hgone (.live c)⟩

theorem pop_subset (hF : F s = b :: l) (s' : Shelf) : Function.update F s l s' ⊆ F s' := by
  by_cases hs : s' = s
  · subst hs
    rw [Function.update_self, hF]
    exact List.subset_cons_self b l
  · rw [Function.update_of_ne hs]
    exact List.Subset.refl _

/-- The block at the head of a list is of its class. -/
theorem pop_carved (h : Inv F k L) (hF : F s = b :: l) : Carved k.arena.regions b s.cls := by
  refine h.placed.grid (.listed s) b ?_
  show b ∈ F s
  rw [hF]
  exact List.mem_cons_self ..

/-- A block that is on none of the lists is put in front of one. -/
theorem push_chains {F' : Shelf → List Nat} {heads' : Shelf → Option Nat} (h : Inv F k L)
    (hchains : ∀ s, Chain (Link.pointer.read k.arena.mem) (heads' s) (F' s))
    (hfits : Link.pointer.Fits (heads' s)) (hsub : ∀ s, F' s ⊆ F s)
    (hb : Carved k.arena.regions b c) (hnot : ∀ s, b ∉ F' s) (s' : Shelf) :
    Chain (Link.pointer.read (Link.pointer.write k.arena.mem b (heads' s)))
      (Function.update heads' s (some b) s') (Function.update F' s (b :: F' s) s') := by
  by_cases hs : s' = s
  · subst hs
    rw [Function.update_self, Function.update_self]
    exact Link.chain_push (hchains s') hfits (h.apart hb (hsub s') (hnot s'))
  · rw [Function.update_of_ne hs, Function.update_of_ne hs]
    exact Link.chain_write (hchains s') (h.apart hb (hsub s') (hnot s'))

/-- One count follows its list. -/
theorem counts_update {n : Nat} (h : Inv F k L) (hn : n = l.length) (t' c' : Nat) :
    Function.update k.counts (t, c) n (t', c')
      = (Function.update F (.cache t c) l (.cache t' c')).length := by
  by_cases heq : t' = t ∧ c' = c
  · obtain ⟨rfl, rfl⟩ := heq
    rw [Function.update_self, Function.update_self, hn]
  · have hne : Shelf.cache t' c' ≠ Shelf.cache t c := by simpa using heq
    rw [Function.update_of_ne (by simpa using heq), Function.update_of_ne hne]
    exact h.counts t' c'

/-! ### Blocks change places -/

/-- A block of a thread's list becomes live. -/
theorem serve (h : Inv F k L) (hF : F (.cache t c) = b :: l) (hreq : SmallRequest size align c) :
    Inv (Function.update F (.cache t c) l)
      { k.setMem (k.arena.mem.write b 8 size) with
        heads := Function.update k.heads (.cache t c) (Link.pointer.read k.arena.mem b)
        counts := Function.update k.counts (t, c) (k.counts (t, c) - 1) }
      ({ ptr := b + CACHE_HEADER_SIZE, size := size, align := align } :: L) := by
  obtain ⟨hgone, hdead⟩ := h.pop_gone hF
  have hgrid : Carved k.arena.regions b c := h.pop_carved hF
  have hout : ∀ x, ¬ (b ≤ x ∧ x < b + 8) → k.arena.mem.write b 8 size x = k.arena.mem x :=
    fun x hx => Mem.write_outside hx
  have hself : (Allocation.mk (b + CACHE_HEADER_SIZE) size align).block = b := Nat.add_sub_cancel ..
  refine ⟨(h.ground.gainSmall align hgrid hdead hreq.pos hreq.small hreq.cls).1, fun s => ?_,
    h.counts_update ?_, ?_⟩
  · exact h.chain_word hgrid hout (pop_subset hF s) (hgone s) (h.pop_chains hF s)
  · rw [h.counts, hF]
    rfl
  · have hplaced := h.placed.transfer (p := .listed (.cache t c)) (q := .live c) (l := [b])
      (m := l) (n := b :: liveBlocks L c) (by simp) rfl (by show (F _).Perm _; rw [hF]; rfl)
      (List.Perm.refl _)
    rw [contents_cons _ _ (a := { ptr := b + CACHE_HEADER_SIZE, size := size, align := align })
      hreq.small hreq.cls, hself, contents_update]
    exact hplaced

/-- A block of a global list goes to a thread's. -/
theorem takeShared (h : Inv F k L) (hF : F (.shared c) = b :: l) :
    Inv (Function.update (Function.update F (.shared c) l) (.cache t c) (b :: F (.cache t c)))
      (Core.push { k with
        heads := Function.update k.heads (.shared c) (Link.pointer.read k.arena.mem b) } t c b)
      L := by
  obtain ⟨hgone, hdead⟩ := h.pop_gone hF
  have hgrid : Carved k.arena.regions b c := h.pop_carved hF
  have hhead : Function.update k.heads (.shared c) (Link.pointer.read k.arena.mem b) (.cache t c)
      = k.heads (.cache t c) := Function.update_of_ne (by simp) _ _
  have hlist : Function.update F (.shared c) l (.cache t c) = F (.cache t c) :=
    Function.update_of_ne (by simp) _ _
  have hfits := h.fits (.cache t c)
  rw [← hhead] at hfits
  refine ⟨h.ground.setWord hgrid hdead fun x hx => Link.pointer_outside hx, fun s => ?_,
    fun t' c' => ?_, ?_⟩
  · have hpush := h.push_chains (h.pop_chains hF) hfits (pop_subset hF) hgrid hgone s
    rw [hlist] at hpush
    exact hpush
  · have hcount : k.counts (t, c) + 1 = (b :: F (.cache t c)).length := by
      rw [h.counts, List.length_cons]
    rw [Function.update_comm (by simp)]
    show Function.update k.counts (t, c) (k.counts (t, c) + 1) (t', c') = _
    rw [h.counts_update hcount, Function.update_of_ne (by simp) _ (Function.update _ _ _)]
  · have hplaced := h.placed.transfer (p := .listed (.shared c)) (q := .listed (.cache t c))
      (l := [b]) (m := l) (n := b :: F (.cache t c)) (by simp) rfl
      (by show (F _).Perm _; rw [hF]; rfl) (List.Perm.refl _)
    rw [contents_update, contents_update]
    exact hplaced

/-- A block that is at no place goes from fresh pages to a thread's list. -/
theorem carveListed (h : Inv F k L) (hb : Carved k.arena.regions b c)
    (hnew : ∀ p, b ∉ contents F L p) :
    Inv (Function.update F (.cache t c) (b :: F (.cache t c)))
      (Core.push { k with carved := Function.update k.carved c (b :: k.carved c) } t c b) L := by
  refine ⟨h.ground.setWord hb (fun c => hnew (.live c)) fun x hx => Link.pointer_outside hx,
    h.push_chains h.chains (h.fits _) (fun s => List.Subset.refl _) hb fun s => hnew (.listed s),
    h.counts_update ?_, ?_⟩
  · rw [List.length_cons]
    show k.counts (t, c) + 1 = _
    rw [h.counts]
  · rw [contents_update]
    exact h.placed.add (p := .listed (.cache t c)) rfl hb hnew

/-- A block that is at no place goes from fresh pages to the client. -/
theorem carveLive (h : Inv F k L) (hreq : SmallRequest size align c)
    (hb : Carved k.arena.regions b c) (hnew : ∀ p, b ∉ contents F L p) :
    Inv F { k.setMem (k.arena.mem.write b 8 size) with
        carved := Function.update k.carved c (b :: k.carved c) }
      ({ ptr := b + CACHE_HEADER_SIZE, size := size, align := align } :: L) := by
  have hout : ∀ x, ¬ (b ≤ x ∧ x < b + 8) → k.arena.mem.write b 8 size x = k.arena.mem x :=
    fun x hx => Mem.write_outside hx
  have hself : (Allocation.mk (b + CACHE_HEADER_SIZE) size align).block = b := Nat.add_sub_cancel ..
  refine ⟨(h.ground.gainSmall align hb (fun c => hnew (.live c)) hreq.pos hreq.small hreq.cls).1,
    fun s => ?_, h.counts, ?_⟩
  · exact h.chain_word hb hout (List.Subset.refl _) (hnew (.listed s)) (h.chains s)
  · rw [contents_cons _ _ (a := { ptr := b + CACHE_HEADER_SIZE, size := size, align := align })
      hreq.small hreq.cls, hself]
    exact h.placed.add (p := .live c) rfl hb hnew

/-- The client's block goes to a thread's list. -/
theorem free (h : Inv F k (a :: L)) (hs : a.Small) (hclass : classOf a.size = some c) :
    Inv (Function.update F (.cache t c) (a.block :: F (.cache t c))) (k.push t c a.block) L := by
  have hplaced := h.placed
  rw [contents_cons F L hs hclass] at hplaced
  have hperm : (contents F (a :: L) (.live c)).Perm (a.block :: liveBlocks L c) := by
    rw [contents_cons F L hs hclass, Function.update_self]
  have hback : Function.update (contents F (a :: L)) (.live c) (liveBlocks L c) = contents F L := by
    rw [contents_cons F L hs hclass, Function.update_idem]
    exact Function.update_eq_self _ _
  obtain ⟨-, hgone⟩ := h.placed.exclusive.take hperm
  rw [hback] at hgone
  have hgrid : Carved k.arena.regions a.block c :=
    h.placed.grid (.live c) a.block (hperm.mem_iff.mpr (List.mem_cons_self ..))
  refine ⟨h.ground.forget.setWord hgrid (fun c => hgone (.live c)) fun x hx =>
      Link.pointer_outside hx,
    h.push_chains h.chains (h.fits _) (fun s => List.Subset.refl _) hgrid fun s =>
      hgone (.listed s), h.counts_update ?_, ?_⟩
  · rw [List.length_cons]
    show k.counts (t, c) + 1 = _
    rw [h.counts]
  · have hmoved := h.placed.transfer (p := .live c) (q := .listed (.cache t c)) (l := [a.block])
      (m := liveBlocks L c) (n := a.block :: F (.cache t c)) (by simp) rfl hperm
      (List.Perm.refl _)
    rw [hback] at hmoved
    rw [contents_update]
    exact hmoved

section Flush

variable {pre post : List Nat}

/-- A block in the middle of a thread's list is nowhere else. -/
theorem batch_tail (h : Inv F k L) (hF : F (.cache t c) = pre ++ b :: post) :
    b ∉ pre ∧ b ∉ post ∧ (∀ s ≠ .cache t c, b ∉ F s) ∧ ∀ c', b ∉ liveBlocks L c' := by
  have hmem : b ∈ contents F L (.listed (.cache t c)) := by
    show b ∈ F (.cache t c)
    simp [hF]
  have hnodup : (pre ++ b :: post).Nodup := by
    rw [← hF]
    exact h.placed.exclusive.nodup (.listed (.cache t c))
  refine ⟨fun hc => List.disjoint_of_nodup_append hnodup hc (List.mem_cons_self ..),
    (List.nodup_cons.mp hnodup.of_append_right).1, fun s hs hb => ?_, fun c' hb => ?_⟩
  · have hplace := h.placed.exclusive.unique (.listed s) _ b hb hmem
    exact hs (by simpa using hplace)
  · have hplace := h.placed.exclusive.unique (.live c') _ b hb hmem
    exact absurd hplace (by simp)

/-- First the batch is cut off, then it is joined to the global list. -/
theorem batch_chain (h : Inv F k L) (hF : F (.cache t c) = pre ++ b :: post) :
    Chain (Link.pointer.read (Link.pointer.write (Link.pointer.write k.arena.mem b none) b
      (k.heads (.shared c)))) (k.heads (.cache t c)) (pre ++ b :: F (.shared c)) := by
  obtain ⟨hpre, -, hother, -⟩ := h.batch_tail hF
  have hgrid : Carved k.arena.regions b c :=
    h.placed.grid (.listed (.cache t c)) b (by show b ∈ F _; simp [hF])
  have hpreApart := h.apart hgrid (s := .cache t c) (l := pre) (by simp [hF]) hpre
  have hsharedApart := h.apart hgrid (List.Subset.refl _) (hother (.shared c) (by simp))
  have hchain := h.chains (.cache t c)
  rw [hF] at hchain
  have hcut : Chain (Link.pointer.read (Link.pointer.write k.arena.mem b none))
      (k.heads (.cache t c)) (pre ++ [b]) := by
    refine Link.chain_relink hchain (Chain.nil_iff.mpr rfl) ?_ hpreApart (by simp)
    rw [Link.pointer_fits]
    simp
  have hshared : Chain (Link.pointer.read (Link.pointer.write k.arena.mem b none))
      (k.heads (.shared c)) (F (.shared c)) := Link.chain_write (h.chains (.shared c)) hsharedApart
  exact Link.chain_relink hcut hshared (h.fits _) hpreApart hsharedApart

/-- The front part of a thread's list goes to the global list. -/
theorem flush (h : Inv F k L) (hF : F (.cache t c) = pre ++ b :: post) :
    Inv (Function.update (Function.update F (.cache t c) post) (.shared c)
      (pre ++ b :: F (.shared c))) (k.flush t c b post.length) L := by
  obtain ⟨-, hpost, hother, hdead⟩ := h.batch_tail hF
  have hgrid : Carved k.arena.regions b c :=
    h.placed.grid (.listed (.cache t c)) b (by show b ∈ F _; simp [hF])
  have hout : ∀ x, ¬ (b ≤ x ∧ x < b + 8) →
      Link.pointer.write (Link.pointer.write k.arena.mem b none) b (k.heads (.shared c)) x
        = k.arena.mem x := by
    intro x hx
    rw [Link.pointer_outside hx, Link.pointer_outside hx]
  refine ⟨h.ground.setWord hgrid hdead hout, fun s => ?_, fun t' c' => ?_, ?_⟩
  · unfold Core.flush
    by_cases hshared : s = .shared c
    · subst hshared
      simp only [Function.update_self]
      exact h.batch_chain hF
    · simp only [Function.update_of_ne hshared]
      by_cases hcache : s = .cache t c
      · subst hcache
        have hchain := h.chains (.cache t c)
        rw [hF] at hchain
        simp only [Function.update_self]
        exact h.chain_word hgrid hout (s := .cache t c) (by simp [hF]) hpost hchain.tail_of_append
      · simp only [Function.update_of_ne hcache]
        exact h.chain_word hgrid hout (List.Subset.refl _) (hother s hcache) (h.chains s)
  · rw [Function.update_of_ne (by simp)]
    exact h.counts_update rfl t' c'
  · have hplaced := h.placed.transfer (p := .listed (.cache t c)) (q := .listed (.shared c))
      (l := pre ++ [b]) (m := post) (n := pre ++ b :: F (.shared c)) (by simp) rfl
      (by show (F _).Perm _; simp [hF])
      (by show (_ : List Nat).Perm (_ ++ F (.shared c)); simp)
    rw [contents_update, contents_update]
    exact hplaced

end Flush

/-! ### Memory and pages -/

/-- Memory may change wherever there is no header and no link. -/
theorem setMem {mem : Mem} (h : Inv F k L)
    (hheader : ∀ a ∈ L, ∀ x, Header k.arena.regions a x → mem x = k.arena.mem x)
    (hlink : ∀ s, ∀ b ∈ F s, ∀ x, b ≤ x → x < b + 8 → mem x = k.arena.mem x) :
    Inv F (k.setMem mem) L where
  ground := h.ground.setMem mem hheader
  chains s := by
    refine Link.chain_congr (h.chains s) fun b hb x h1 h2 => hlink s b hb x h1 ?_
    rw [Link.pointer_width] at h2
    exact h2
  counts := h.counts
  placed := h.placed

/-- The client writes inside what it holds, or outside the allocator's memory. -/
theorem clientWrite {x : Nat} {byte : UInt8} (h : Inv F k L)
    (hx : (∃ a ∈ L, a.InRange x) ∨ k.arena.foreign (x / PAGE_SIZE) = true) :
    Inv F (k.setMem (Function.update k.arena.mem x byte)) L := by
  refine h.setMem (fun a ha y hy => ?_) fun s b hb y h1 h2 => ?_
  · refine Function.update_of_ne (fun hc => ?_) _ _
    rw [hc] at hy
    rcases hx with ⟨a', ha', hx⟩ | hx
    · exact h.ground.range_no_header ha' hx ha hy
    · exact h.ground.foreign_no_header hx ha hy
  · refine Function.update_of_ne (fun hc => ?_) _ _
    subst hc
    have hgrid : Carved k.arena.regions b s.cls := h.placed.grid (.listed s) b hb
    have hblock := blockSize_pos s.cls
    have hin : b ≤ y ∧ y < b + blockSize s.cls := ⟨h1, by omega⟩
    rcases hx with ⟨a, ha, hx⟩ | hx
    · -- a listed block is not live
      refine h.ground.not_footprint hgrid (fun c hc => ?_) hin ha (h.ground.range_footprint ha hx)
      have := h.placed.exclusive.unique (.live c) (.listed s) b hc hb
      simp at this
    · obtain ⟨r, hr, -, hhas⟩ := hgrid.has
      have hmap := h.ground.regions.inMapped r hr y (hhas y hin.1 hin.2)
      rw [h.ground.regions.own _ hmap] at hx
      exact absurd hx (by decide)

/-- Fresh pages are mapped. -/
theorem map {base pages : Nat} (h : Inv F k L) (purpose : Purpose)
    (hfree : k.arena.Free base pages) (hpos : pages ≠ 0)
    (hsmall : ∀ c, purpose = .small c → c < 13 ∧ blockSize c ≤ pages * PAGE_SIZE) :
    Inv F { k with arena := k.arena.map base pages purpose } L where
  ground := (h.ground.map purpose hfree hpos hsmall).1
  chains s := by
    refine Link.chain_congr (h.chains s) fun b hb x h1 h2 => Mem.fill_outside ?_
    rw [Link.pointer_width] at h2
    have hgrid : Carved k.arena.regions b s.cls := h.placed.grid (.listed s) b hb
    have hblock := blockSize_pos s.cls
    exact hgrid.not_fresh h.ground.regions hfree hpos ⟨h1, by omega⟩
  counts := h.counts
  placed := h.placed.frame fun b c hb => hb.map base pages purpose

/-- No block is in fresh pages. -/
theorem fresh_nowhere {base pages : Nat} (h : Inv F k L) (hfree : k.arena.Free base pages)
    (hpos : pages ≠ 0) (hin : base ≤ b ∧ b < base + pages * PAGE_SIZE) (p : Place) :
    b ∉ contents F L p := by
  intro hb
  have hblock := blockSize_pos p.cls
  exact (h.placed.grid p b hb).not_fresh h.ground.regions hfree hpos ⟨Nat.le_refl b, by omega⟩ hin

/-- A fresh region becomes a large allocation. -/
theorem gainLarge {base pages user : Nat} (h : Inv F k L) (align : Nat)
    (hfree : k.arena.Free base pages) (hpos : pages ≠ 0) (hsize : 0 < size)
    (hlarge : ¬ (size ≤ MAX_CACHE_SIZE ∧ align ≤ 8)) (hlow : base + 32 ≤ user)
    (hhigh : user + size ≤ base + pages * PAGE_SIZE) :
    Inv F { k with arena := { k.arena.map base pages .large with
        mem := largeHeaders (k.arena.map base pages .large).mem base pages size user } }
      ({ ptr := user, size := size, align := align } :: L) := by
  have hmap := h.map .large hfree hpos (by simp)
  refine ⟨(h.ground.gainLarge align hfree hpos hsize hlarge hlow hhigh).1, fun s => ?_, h.counts,
    ?_⟩
  · refine Link.chain_congr (hmap.chains s) fun b hb x h1 h2 => ?_
    rw [Link.pointer_width] at h2
    have hgrid : Carved k.arena.regions b s.cls := h.placed.grid (.listed s) b hb
    have hblock := blockSize_pos s.cls
    have hout := hgrid.not_fresh h.ground.regions hfree hpos ⟨h1, by omega⟩
    exact largeHeaders_outside (by omega) (by omega) (by omega)
  · rw [contents_cons_large F L (a := { ptr := user, size := size, align := align }) hlarge]
    exact hmap.placed

/-- A large allocation ends, and its region stays or is given up. -/
theorem loseLarge {r : Region} {pages : Nat} (h : Inv F k (a :: L)) (hs : ¬ a.Small)
    (hr : LargeAt k.arena.mem k.arena.regions r a) (hpages : pages ≤ r.pages) :
    Inv F k L ∧ Inv F { k with arena := k.arena.unmap r.base pages } L := by
  have hplaced := h.placed
  rw [contents_cons_large F L hs] at hplaced
  exact ⟨⟨h.ground.forget, h.chains, h.counts, hplaced⟩, h.ground.loseLarge hs hr hpages, h.chains,
    h.counts, hplaced.frame fun b c hb => hb.unmap h.ground.regions hr.region hr.purpose pages⟩

/-- The order in which allocations are listed does not matter. -/
theorem perm (h : Inv F k L) (hp : L.Perm L') : Inv F k L' where
  ground := h.ground.perm hp
  chains := h.chains
  counts := h.counts
  placed := h.placed.perm (contents_perm hp)

end Inv

end Aethalloc.Abi.Simple
