/-
The steps that move blocks, one lemma each.

A block leaves a list from the front and comes to it at the front; a batch leaves a
thread's list when it is cut off behind its last block and comes to the global list
when the swap of `push_batch` succeeds.  The swap of a pop is the one step that needs
more than the thread's own knowledge: that nobody else is popping from the list.
-/
import Aethalloc.Proofs.Abi.Simple.Exchange.Invariant

namespace Aethalloc.Abi.SimpleExchange

open Lib

variable {Tid : Type} {place place' : Nat → Place Tid} {s s' : State Tid} {t t' : Tid}
  {b c size block : Nat} {l bs : List Nat} {p q : Place Tid}

section Step

variable [DecidableEq Tid]

/-- A thread moves on and nothing else happens. -/
theorem Inv.move {pc : Pc} (h : Inv place s) (hk : pc.Knows place s t) :
    Inv place (setPc s t pc) where
  list := h.list
  global := h.global
  knows := by
    intro t'
    by_cases ht : t' = t
    · subst ht
      show (Function.update s.pc t' pc t').Knows place (setPc s t' pc) t'
      rw [Function.update_self]
      cases pc <;> exact hk
    · have hsame : Same t' place place s (setPc s t pc) :=
        ⟨fun _ _ => Iff.rfl, fun _ _ => Iff.rfl, fun _ _ _ => rfl, fun _ _ _ => rfl, rfl, rfl,
          Function.update_of_ne ht _ _, fun _ _ _ hb => ⟨hb, rfl⟩⟩
      exact hsame.knows (h.knows t')
  carved := h.carved
  nonzero := h.nonzero
  nodup := h.nodup
  live := h.live
  sizes := h.sizes

/-- The knowledge of a thread that has just moved. -/
theorem knows_setPc {pc : Pc} (hk : pc.Knows place s t) :
    ((setPc s t pc).pc t).Knows place (setPc s t pc) t := by
  show (Function.update s.pc t pc t).Knows place (setPc s t pc) t
  rw [Function.update_self]
  cases pc <;> exact hk

/-- The first block of its list goes into the thread's hands. -/
theorem Inv.serve (h : Inv place s) (hno : NoHand place t) (hsize : headerClass size = some c)
    (hhead : s.heads t c = some block) :
    Inv (moved place [block] (.hand t c))
      (setPc (setList s t c (s.link block) (s.counts t c - 1)) t (.stamp c size block)) := by
  obtain ⟨l, hl, hlen⟩ := h.list t c
  rw [hhead] at hl
  obtain ⟨rest, rfl, hrest⟩ := hl.pop (p := .hand t c) (by simp)
  have hbs : ∀ b ∈ [block], place b = .cached t c := by
    intro b hb
    rw [List.mem_singleton.mp hb]
    exact hl.head
  refine h.moves hbs rfl (fun t' ht => not_relies_cached ht) (fun t' ht c' => ?_)
    (fun _ _ => rfl) (setList_rest rfl rfl rfl) rfl ?_ (knows_setPc ?_) ?_ h.nodup ?_ (by simp)
  · exact ⟨by simpa using fun hc => absurd hc.symm ht, by simp⟩
  · refine h.list_set hbs (fun c' hc => by simpa using hc.symm) (by simp) (fun _ _ => rfl) rfl rfl
      hrest ?_
    rw [← hlen]
    rfl
  · exact ⟨hno.take (List.nodup_singleton block), hsize⟩
  · exact h.global_moved hbs (by simp) (by simp) (fun _ _ => rfl) rfl
  · exact h.live_moved hbs (by simp) (by simp)

/-- The block is returned to the client. -/
theorem Inv.stamp (h : Inv place s) (hhand : Hand place t c [block])
    (hsize : headerClass size = some c) :
    Inv (moved place [block] (.live c))
      (setPc { setWord s block size with live := block :: s.live } t .idle) := by
  have hbs : ∀ b ∈ [block], place b = .hand t c := fun b hb => hhand.mem hb
  have hword : ∀ b, b ∉ [block] → Function.update s.word block size b = s.word b := fun b hb =>
    Function.update_of_ne (by simpa using hb) _ _
  have hnot : block ∉ s.live := by
    rw [h.live block, hbs block (List.mem_singleton_self block)]
    simp
  refine h.moves hbs rfl (fun t' ht => not_relies_hand ht) (by simp) hword
    (setPc_rest rfl rfl rfl) rfl ?_ (knows_setPc ?_) ?_ (List.nodup_cons.mpr ⟨hnot, h.nodup⟩)
    ?_ ?_
  · exact h.list_moved hbs (by simp) (by simp) hword rfl rfl
  · exact hhand.give_all (by simp)
  · exact h.global_moved hbs (by simp) (by simp) hword rfl
  · intro b
    show b ∈ block :: s.live ↔ _
    by_cases hb : b = block
    · subst hb
      simp [moved]
    · rw [moved_of_notMem (by simpa using hb), ← h.live b]
      simp [hb]
  · intro b hb c' hc
    obtain rfl : c = c' := by simpa using hc
    rw [List.mem_singleton.mp hb]
    show headerClass (Function.update s.word block size block) = some c
    rw [Function.update_self]
    exact hsize

/-- A block in the thread's hands goes to the front of its list. -/
theorem Inv.push_local {pc : Pc} (h : Inv place s) (hhand : Hand place t c l) (hb : block ∈ l)
    (hk : pc.Knows (moved place [block] (.cached t c)) (pushLocal s t c block) t) :
    Inv (moved place [block] (.cached t c)) (setPc (pushLocal s t c block) t pc) := by
  have hbs : ∀ b ∈ [block], place b = .hand t c := by
    intro b hmem
    rw [List.mem_singleton.mp hmem]
    exact hhand.mem hb
  have hword : ∀ b, b ∉ [block] →
      (setWord s block (toPtr (s.heads t c))).word b = s.word b := fun b hb =>
    Function.update_of_ne (by simpa using hb) _ _
  obtain ⟨l', hl', hlen⟩ := h.list t c
  have hnew : Holds (setWord s block (toPtr (s.heads t c))).link (some block)
      (moved place [block] (.cached t c)) (.cached t c) (block :: l') := by
    rw [link_setWord_toPtr h.heads_ne_zero]
    refine hl'.push ?_
    rw [hbs block (List.mem_singleton_self block)]
    simp
  refine h.moves hbs rfl (fun t' ht => not_relies_hand ht) (fun t' ht c' => ?_) hword
    (setList_rest rfl rfl rfl) rfl ?_ (knows_setPc hk) ?_ h.nodup ?_ (by simp)
  · exact ⟨by simp, by simpa using fun hc => absurd hc.symm ht⟩
  · refine h.list_set hbs (by simp) (fun c' hc => by simpa using hc.symm) hword rfl rfl hnew ?_
    rw [← hlen]
    rfl
  · exact h.global_moved hbs (by simp) (by simp) hword rfl
  · exact h.live_moved hbs (by simp) (by simp)

/-- A pop takes the first block of a global list, if no other thread is popping from it. -/
theorem Inv.pop {transferred : Nat} {next : Option Nat} (h : Inv place s) (hone : OnePop s)
    (hpc : s.pc t = .popCas c size transferred block next) (hhead : s.head c = some block) :
    Inv (moved place [block] (.hand t c))
      (setPc (setHead s c next) t (.keep c size transferred block)) := by
  have hk := h.knows t
  rw [hpc] at hk
  obtain ⟨⟨hno, hsize, -⟩, hplace, hlink⟩ := hk
  have hbs : ∀ b ∈ [block], place b = .global c := by
    intro b hb
    rw [List.mem_singleton.mp hb]
    exact hplace
  refine h.moves hbs rfl (fun t' ht hr => ?_) (fun t' ht c' => ?_) (fun _ _ => rfl)
    (setPc_rest rfl rfl rfl) rfl ?_ (knows_setPc ?_) (fun c' => ?_) h.nodup ?_ (by simp)
  · rcases hr with ⟨c', hc | hc⟩ | ⟨c', hpop, hc⟩
    · simp at hc
    · simp at hc
    · obtain rfl : c = c' := by simpa using hc
      exact ht (hone t' t c hpop (by rw [hpc]; rfl))
  · exact ⟨by simpa using fun hc => absurd hc.symm ht, by simp⟩
  · exact h.list_moved hbs (by simp) (by simp) (fun _ _ => rfl) rfl rfl
  · exact ⟨hno.take (List.nodup_singleton block), hsize⟩
  · obtain ⟨l, hl⟩ := h.global c'
    by_cases hc : c' = c
    · subst hc
      rw [hhead] at hl
      obtain ⟨rest, -, hrest⟩ := hl.pop (p := .hand t c') (by simp)
      refine ⟨rest, ?_⟩
      show Holds s.link (Function.update s.head c' next c') _ _ rest
      rw [Function.update_self, ← hlink]
      exact hrest
    · refine ⟨l, ?_⟩
      show Holds s.link (Function.update s.head c next c') _ _ l
      rw [Function.update_of_ne hc]
      refine hl.keep (fun _ _ => rfl) fun b => moved_iff_of_not (by simp) fun x hx hcc => ?_
      rw [hbs x hx] at hcc
      exact hc (by simpa using hcc.symm)
  · exact h.live_moved hbs (by simp) (by simp)

/-- A client gives a block back. -/
theorem Inv.dealloc (h : Inv place s) (hno : NoHand place t) (hb : block ∈ s.live) :
    ∃ place', Inv place'
      (setPc { s with live := s.live.erase block } t (.readSize block)) := by
  obtain ⟨c, hplace⟩ := (h.live block).mp hb
  have hbs : ∀ b ∈ [block], place b = .live c := by
    intro b hb
    rw [List.mem_singleton.mp hb]
    exact hplace
  refine ⟨moved place [block] (.hand t c), ?_⟩
  refine h.moves hbs rfl (fun t' ht => not_relies_live) (fun t' ht c' => ?_) (fun _ _ => rfl)
    (setPc_rest rfl rfl rfl) rfl ?_ (knows_setPc ?_) ?_ (h.nodup.erase block) (fun b => ?_)
    (by simp)
  · exact ⟨by simpa using fun hc => absurd hc.symm ht, by simp⟩
  · exact h.list_moved hbs (by simp) (by simp) (fun _ _ => rfl) rfl rfl
  · exact ⟨c, hno.take (List.nodup_singleton block), h.sizes block c hplace⟩
  · exact h.global_moved hbs (by simp) (by simp) (fun _ _ => rfl) rfl
  · show b ∈ s.live.erase block ↔ _
    rw [h.nodup.mem_erase_iff, h.live b]
    constructor
    · rintro ⟨hne, c', hc'⟩
      exact ⟨c', by rw [moved_of_notMem (by simpa using hne)]; exact hc'⟩
    · rintro ⟨c', hc'⟩
      rw [moved_iff_of_ne (by simp)] at hc'
      exact ⟨by simpa using hc'.1, c', hc'.2⟩

/-- The first blocks of its list, cut off behind the last of them, go into the thread's hands. -/
theorem Inv.detach {flushCount batchHead batchTail : Nat} (h : Inv place s) (hno : NoHand place t)
    (hw : Walked place s t c flushCount batchHead batchTail flushCount) :
    ∃ place', Inv place' (setPc (setList (setWord s batchTail 0) t c (s.link batchTail)
      (s.counts t c - flushCount)) t (.pushLoad c batchHead batchTail)) := by
  obtain ⟨hhead, -, pre, post, hchain, hwalked, hcached⟩ := hw
  obtain ⟨l, hl, hlen⟩ := h.list t c
  rw [hhead] at hl
  obtain rfl : l = pre ++ batchTail :: post := hl.1.unique hchain
  obtain ⟨-, hnd, hmem⟩ := hl
  rw [List.append_cons] at hnd hmem
  obtain ⟨hndpre, hndpost, hdisj⟩ := List.nodup_append.mp hnd
  have hbs : ∀ b ∈ pre ++ [batchTail], place b = .cached t c := fun b hb =>
    (hmem b).mp (List.mem_append_left _ hb)
  have hlink : (setWord s batchTail 0).link = Function.update s.link batchTail none := link_setWord
  have hword : ∀ b, b ∉ pre ++ [batchTail] → (setWord s batchTail 0).word b = s.word b := by
    intro b hb
    refine Function.update_of_ne (fun hc => hb ?_) _ _
    rw [hc]
    simp
  have hnew : Holds (setWord s batchTail 0).link (s.link batchTail)
      (moved place (pre ++ [batchTail]) (.hand t c)) (.cached t c) post := by
    rw [hlink]
    refine ⟨hchain.tail_of_append.update_of_notMem fun hin => ?_, hndpost, fun b => ?_⟩
    · exact hdisj batchTail (by simp) batchTail hin rfl
    · rw [moved_iff_of_ne (by simp), ← hmem b]
      constructor
      · intro hb
        exact ⟨fun hc => hdisj b hc b hb rfl, List.mem_append_right _ hb⟩
      · intro hb
        exact (List.mem_append.mp hb.2).resolve_left hb.1
  refine ⟨moved place (pre ++ [batchTail]) (.hand t c), ?_⟩
  refine h.moves hbs rfl (fun t' ht => not_relies_cached ht) (fun t' ht c' => ?_) hword
    (setList_rest rfl rfl rfl) rfl ?_ (knows_setPc ?_) ?_ h.nodup ?_ (by simp)
  · exact ⟨by simpa using fun hc => absurd hc.symm ht, by simp⟩
  · refine h.list_set hbs (fun c' hc => by simpa using hc.symm) (by simp) hword rfl rfl hnew ?_
    rw [← hlen, List.length_append, List.length_cons]
    omega
  · refine ⟨pre ++ [batchTail], hno.take hndpre, ?_, pre, rfl⟩
    show Chain (Function.update (setWord s batchTail 0).link batchTail none) _ _
    rw [hlink, Function.update_idem]
    refine hchain.relink (fun b hb => ?_) ?_
    · refine Function.update_of_ne (fun hc => ?_) _ _
      exact (List.nodup_append.mp hndpre).2.2 b hb batchTail (by simp) hc
    · exact Function.update_self ..
  · exact h.global_moved hbs (by simp) (by simp) hword rfl
  · exact h.live_moved hbs (by simp) (by simp)

/-- The last block of the batch is linked to the head that was loaded. -/
theorem Inv.push_write {batchHead batchTail : Nat} {current : Option Nat} (h : Inv place s)
    (hhand : Hand place t c l) (hb : Batch s.link batchHead batchTail l)
    (hcur : ∀ x, current = some x → x ≠ 0) :
    Inv place (setPc (setWord s batchTail (toPtr current)) t
      (.pushCas c batchHead batchTail current)) := by
  have hlink : (setWord s batchTail (toPtr current)).link =
      Function.update s.link batchTail current := link_setWord_toPtr hcur
  obtain ⟨hchain, pre, rfl⟩ := hb
  have hbs : ∀ b ∈ [batchTail], place b = .hand t c := by
    intro b hb
    exact hhand.mem (List.mem_append_right _ hb)
  have hword : ∀ b, b ∉ [batchTail] →
      (setWord s batchTail (toPtr current)).word b = s.word b := fun b hb =>
    Function.update_of_ne (by simpa using hb) _ _
  have hmoves : Inv (moved place [batchTail] (.hand t c))
      (setPc (setWord s batchTail (toPtr current)) t (.pushCas c batchHead batchTail current)) := by
    refine h.moves hbs rfl (fun t' ht => not_relies_hand ht) (fun t' ht c' => ?_) hword
      (setPc_rest rfl rfl rfl) rfl ?_ (knows_setPc ?_) ?_ h.nodup ?_ (by simp)
    · exact ⟨by simpa using fun hc => absurd hc.symm ht, by simp⟩
    · exact h.list_moved hbs (by simp) (by simp) hword rfl rfl
    · rw [moved_self hbs]
      refine ⟨pre ++ [batchTail], hhand, ⟨?_, pre, rfl⟩, ?_⟩
      · rw [hlink, Function.update_idem]
        exact hchain
      · rw [hlink, Function.update_self]
    · exact h.global_moved hbs (by simp) (by simp) hword rfl
    · exact h.live_moved hbs (by simp) (by simp)
  rw [moved_self hbs] at hmoves
  exact hmoves

/-- The swap of `push_batch` succeeds: the batch is in front of the global list. -/
theorem Inv.push_batch {batchHead batchTail : Nat} (h : Inv place s)
    (hhand : Hand place t c l) (hb : Batch s.link batchHead batchTail l)
    (hlink : s.link batchTail = s.head c) :
    Inv (moved place l (.global c)) (setPc (setHead s c (some batchHead)) t .idle) := by
  have hbs : ∀ b ∈ l, place b = .hand t c := fun b hb => hhand.mem hb
  refine h.moves hbs rfl (fun t' ht => not_relies_hand ht) (by simp) (fun _ _ => rfl)
    (setPc_rest rfl rfl rfl) rfl ?_ (knows_setPc ?_) (fun c' => ?_) h.nodup ?_ (by simp)
  · exact h.list_moved hbs (by simp) (by simp) (fun _ _ => rfl) rfl rfl
  · exact hhand.give_all (by simp)
  · obtain ⟨lg, hlg⟩ := h.global c'
    by_cases hc : c' = c
    · subst hc
      obtain ⟨hchain, hnd, hmem⟩ := hlg
      obtain ⟨hbatch, pre, rfl⟩ := hb
      refine ⟨pre ++ batchTail :: lg, ?_⟩
      show Holds s.link (Function.update s.head c' (some batchHead) c') _ _ _
      rw [Function.update_self]
      refine ⟨hbatch.relink (fun b hb => ?_) ?_, ?_, fun b => ?_⟩
      · refine (Function.update_of_ne (fun hc => ?_) _ _).symm
        exact (List.nodup_append.mp hhand.1).2.2 b hb batchTail (by simp) hc
      · rw [hlink]
        exact hchain
      · rw [List.append_cons]
        refine List.nodup_append.mpr ⟨hhand.1, hnd, fun x hx y hy hxy => ?_⟩
        have hx' := hbs x hx
        rw [hxy, (hmem y).mp hy] at hx'
        simp at hx'
      · rw [moved_iff, List.append_cons, List.mem_append, hmem b]
    · refine ⟨lg, ?_⟩
      show Holds s.link (Function.update s.head c (some batchHead) c') _ _ lg
      rw [Function.update_of_ne hc]
      refine hlg.keep (fun _ _ => rfl) fun b => moved_iff_of_not ?_ fun x hx hcc => ?_
      · simpa using fun hcc : c = c' => hc hcc.symm
      · rw [hbs x hx] at hcc
        simp at hcc
  · exact h.live_moved hbs (by simp) (by simp)

/-- The blocks of fresh pages are in the hands of the thread that asked for them. -/
theorem Inv.map {pc : Pc} (h : Inv place s) (hno : NoHand place t) (hnd : bs.Nodup)
    (hunused : Unused s bs)
    (hk : ∀ place', Hand place' t c bs → pc.Knows place' (noteCarved s c bs) t) :
    ∃ place', Inv place' (setPc (noteCarved s c bs) t pc) := by
  have hbs : ∀ b ∈ bs, place b = .unmapped := by
    intro b hb
    cases hplace : place b with
    | unmapped => rfl
    | cached t' c' =>
        exact absurd (List.mem_map_of_mem ((h.carved c' b).mpr (by rw [hplace]; rfl)))
          (hunused b hb).2
    | hand t' c' =>
        exact absurd (List.mem_map_of_mem ((h.carved c' b).mpr (by rw [hplace]; rfl)))
          (hunused b hb).2
    | global c' =>
        exact absurd (List.mem_map_of_mem ((h.carved c' b).mpr (by rw [hplace]; rfl)))
          (hunused b hb).2
    | live c' =>
        exact absurd (List.mem_map_of_mem ((h.carved c' b).mpr (by rw [hplace]; rfl)))
          (hunused b hb).2
  refine ⟨moved place bs (.hand t c), ?_⟩
  refine h.build (fun t' ht => ?_) ?_ (knows_setPc (hk _ (hno.take hnd))) ?_ ?_ ?_ h.nodup ?_ ?_
  · refine Same.of_moved (fun b hb hr => ?_) (fun c' => ?_) (fun _ _ => rfl) rfl rfl
      (Function.update_of_ne ht _ _)
    · rw [hbs b hb] at hr
      rcases hr with ⟨c', hc | hc⟩ | ⟨c', -, hc⟩ <;> simp at hc
    · exact ⟨by simpa using fun hc => absurd hc.symm ht, by simp⟩
  · exact h.list_moved hbs (by simp) (by simp) (fun _ _ => rfl) rfl rfl
  · exact h.global_moved hbs (by simp) (by simp) (fun _ _ => rfl) rfl
  · intro c' b
    show (c', b) ∈ bs.map (fun b => (c, b)) ++ s.carved ↔ _
    rw [List.mem_append, h.carved c' b]
    by_cases hb : b ∈ bs
    · rw [moved_of_mem hb, hbs b hb]
      simp [Place.cls, hb]
    · rw [moved_of_notMem hb]
      simp [hb]
  · intro c' b hb
    rcases List.mem_append.mp hb with hb | hb
    · obtain ⟨x, hx, hxb⟩ := List.mem_map.mp hb
      obtain ⟨-, rfl⟩ : c = c' ∧ x = b := by simpa using hxb
      exact (hunused x hx).1
    · exact h.nonzero c' b hb
  · exact h.live_moved hbs (by simp) (by simp)
  · intro b c' hb
    rw [moved_iff_of_ne (by simp)] at hb
    exact h.sizes b c' hb.2

end Step

end Aethalloc.Abi.SimpleExchange
