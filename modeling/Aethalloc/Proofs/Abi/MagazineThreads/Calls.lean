/-
The steps of a call before and after its exchange.

Blocks go from a magazine to a client and back, from fresh pages to a magazine, and
when a free finds its magazine full, with the magazine into a node that nobody
has used before.
-/
import Aethalloc.Proofs.Abi.MagazineThreads.Invariant

namespace Aethalloc.Abi.MagazineThreads

open Lib
open SimpleExchange (headerClass)
open MagazineExchange (Stage Own)

variable {Tid Node : Type} {stage stage' : Node → Stage Tid} {place place' : Nat → Place Tid Node}
  {s s' : State Tid Node} {t t' : Tid} {n : Node} {b c size block : Nat} {bs : List Nat}
  {p q : Place Tid Node} {m m' : Magazine}

section Step

variable [DecidableEq Tid]

omit [DecidableEq Tid] in
/-- The magazines of a thread, when one of them changes. -/
theorem fills_update {mags : Nat → Magazine} {f : Nat → Place Tid Node}
    (hothers : ∀ c', c' ≠ c → Fills place (f c') (mags c')) (hnew : Fills place (f c) m) :
    ∀ c', Fills place (f c') (Function.update mags c m c') := by
  intro c'
  by_cases hc : c' = c
  · rw [hc, Function.update_self]
    exact hnew
  · rw [Function.update_of_ne hc]
    exact hothers c' hc

/-- The last block of a magazine goes to the client. -/
theorem Inv.serve (h : Inv stage place s) (hno : NoHand place t)
    (hidle : s.exchange.pc t = .idle) (hsize : headerClass size = some c)
    (hpop : (s.allocMags t c).pop = (some block, m)) :
    Inv stage (moved place [block] (.live c)) (serve (setAllocMag s t c m) t size block) := by
  have hmag := h.allocMag t c
  have hslots := Magazine.slots_of_pop hmag.ok hpop
  have hok : m.OK := by
    rcases Magazine.pop_cases hmag.ok with ⟨-, hnone⟩ | ⟨b', m', hsome, hok, -⟩
    · rw [hnone] at hpop
      simp at hpop
    · rw [hsome] at hpop
      exact (Prod.mk.inj hpop).2 ▸ hok
  have hbs : ∀ b ∈ [block], place b = .allocMag t c := by
    intro b hb
    refine hmag.all.mem ?_
    rw [hslots]
    exact List.mem_append_right _ hb
  have hblock := hbs block (List.mem_singleton_self block)
  have hall := hmag.all
  rw [hslots] at hall
  refine h.moves hbs mine_allocMag mine_live rfl (fun t' ht => ?_) (fun c' => ?_)
    (fun c' => ?_) ?_ ?_
  · simp [MagazineThreads.serve, setTask, setAllocMag, Function.update_of_ne ht]
  · show Fills _ _ (Function.update s.allocMags t (Function.update (s.allocMags t) c m) t c')
    rw [Function.update_self]
    refine fills_update (f := .allocMag t) (fun c' hc => ?_) ?_ c'
    · exact (h.allocMag t c').moved hbs (by simpa using hc.symm) (by simp)
    · exact ⟨hok, hall.leave (by simp)⟩
  · exact (h.freeMag t c').moved hbs (by simp) (by simp)
  · rw [hidle]
    simp only [MagazineThreads.serve, setTask, Function.update_self]
    exact ⟨rfl, hno.moved (by simp)⟩
  · exact h.books.serve (h.books.carved_moved hbs rfl) (by simp [hblock]) (by simp [hblock]) hsize
      rfl rfl rfl rfl

/-- The thread's two magazines change places. -/
theorem Inv.swap (h : Inv stage place s) (htask : s.task t = .idle)
    (hempty : (s.allocMags t c).slots = []) :
    Inv stage (moved place (s.freeMags t c).slots (.allocMag t c))
      (setFreeMag (setAllocMag s t c (s.freeMags t c)) t c (s.allocMags t c)) := by
  have ha := h.agrees t
  rw [htask] at ha
  have hmag := h.allocMag t c
  have hfree := h.freeMag t c
  have hbs : ∀ b ∈ (s.freeMags t c).slots, place b = .freeMag t c := fun b hb => hfree.all.mem hb
  have hnone : ∀ b, place b ≠ .allocMag t c := by
    intro b hb
    have hin := (hmag.all.2 b).mpr hb
    rw [hempty] at hin
    simp at hin
  refine h.moves hbs mine_freeMag mine_allocMag rfl (fun t' ht => ?_) (fun c' => ?_)
    (fun c' => ?_) ?_ ?_
  · simp [setFreeMag, setAllocMag, Function.update_of_ne ht]
  · show Fills _ _ (Function.update s.allocMags t
      (Function.update (s.allocMags t) c (s.freeMags t c)) t c')
    rw [Function.update_self]
    refine fills_update (f := .allocMag t) (fun c' hc => ?_) ?_ c'
    · exact (h.allocMag t c').moved hbs (by simp) (by simpa using hc.symm)
    · exact ⟨hfree.ok, hfree.all.relocate hnone⟩
  · show Fills _ _ (Function.update s.freeMags t
      (Function.update (s.freeMags t) c (s.allocMags t c)) t c')
    rw [Function.update_self]
    refine fills_update (f := .freeMag t) (fun c' hc => ?_) ?_ c'
    · exact (h.freeMag t c').moved hbs (by simpa using hc.symm) (by simp)
    · refine ⟨hmag.ok, ?_⟩
      rw [hempty]
      exact AllAt.leave hfree.all (by simp)
  · show Agrees _ _ t (s.task t) (s.exchange.pc t)
    rw [htask]
    exact ⟨ha.1, ha.2.moved (by simp)⟩
  · exact h.books.quiet hbs (h.books.carved_moved hbs rfl) (by simp) (by simp) rfl rfl rfl rfl

/-- A client's block goes into the thread's free magazine. -/
theorem Inv.keep (h : Inv stage place s) (htask : s.task t = .idle) (hlive : place block = .live c)
    (hpush : (s.freeMags t c).push block = (true, m)) :
    Inv stage (moved place [block] (.freeMag t c))
      (setFreeMag { s with live := s.live.erase block } t c m) := by
  have ha := h.agrees t
  rw [htask] at ha
  have hmag := h.freeMag t c
  have hbs : ∀ b ∈ [block], place b = .live c := by
    intro b hb
    rw [List.mem_singleton.mp hb]
    exact hlive
  obtain ⟨hok, hslots⟩ : m.OK ∧ m.slots = (s.freeMags t c).slots ++ [block] := by
    rcases Magazine.push_cases hmag.ok with ⟨-, hfull⟩ | ⟨-, m', hroom, hok, hslots⟩
    · rw [hfull] at hpush
      simp at hpush
    · rw [hroom] at hpush
      exact (Prod.mk.inj hpush).2 ▸ ⟨hok, hslots⟩
  refine h.moves hbs mine_live mine_freeMag rfl (fun t' ht => ?_) (fun c' => ?_)
    (fun c' => ?_) ?_ ?_
  · simp [setFreeMag, Function.update_of_ne ht]
  · exact (h.allocMag t c').moved hbs (by simp) (by simp)
  · show Fills _ _ (Function.update s.freeMags t (Function.update (s.freeMags t) c m) t c')
    rw [Function.update_self]
    refine fills_update (f := .freeMag t) (fun c' hc => ?_) ?_ c'
    · exact (h.freeMag t c').moved hbs (by simp) (by simpa using hc.symm)
    · refine ⟨hok, ?_⟩
      rw [hslots]
      exact hmag.all.arrive (List.nodup_singleton block) (by simp [hlive])
  · show Agrees _ _ t (s.task t) (s.exchange.pc t)
    rw [htask]
    exact ⟨ha.1, ha.2.moved (by simp)⟩
  · exact h.books.release hbs rfl (by simp) rfl rfl rfl rfl rfl

omit [DecidableEq Tid] in
/-- A client's block finds the magazine full and no node. -/
theorem Inv.lose (h : Inv stage place s) (htask : s.task t = .idle)
    (hlive : place block = .live c) :
    Inv stage (moved place [block] (.lost c)) { s with
      live := s.live.erase block
      lost := block :: s.lost
      refused := s.refused + 1 } := by
  have ha := h.agrees t
  rw [htask] at ha
  have hbs : ∀ b ∈ [block], place b = .live c := by
    intro b hb
    rw [List.mem_singleton.mp hb]
    exact hlive
  refine h.moves (t := t) hbs mine_live mine_lost rfl (fun t' _ => ⟨rfl, rfl, rfl⟩)
    (fun c' => ?_) (fun c' => ?_) ?_ ?_
  · exact (h.allocMag t c').moved hbs (by simp) (by simp)
  · exact (h.freeMag t c').moved hbs (by simp) (by simp)
  · show Agrees _ _ t (s.task t) (s.exchange.pc t)
    rw [htask]
    exact ⟨ha.1, ha.2.moved (by simp)⟩
  · exact h.books.lose hbs rfl rfl rfl rfl rfl

/-- The magazine has been published, and the block goes into the new one. -/
theorem Inv.stash (h : Inv stage place s) (htask : s.task t = .stash c block)
    (hidle : s.exchange.pc t = .idle) :
    ∃ m, (s.freeMags t c).push block = (true, m) ∧
      Inv stage (moved place [block] (.freeMag t c)) (setTask (setFreeMag s t c m) t .idle) := by
  have ha := h.agrees t
  rw [htask] at ha
  obtain ⟨hhand, hempty, -⟩ := ha
  have hmag := h.freeMag t c
  have hblock : place block = .hand t c := (hhand block c).mpr ⟨rfl, rfl⟩
  have hbs : ∀ b ∈ [block], place b = .hand t c := by
    intro b hb
    rw [List.mem_singleton.mp hb]
    exact hblock
  rcases Magazine.push_cases (p := block) hmag.ok with ⟨hfull, -⟩ | ⟨-, m, hpush, hok, hslots⟩
  · rw [hempty] at hfull
    simp [MAGAZINE_CAPACITY] at hfull
  refine ⟨m, hpush, ?_⟩
  refine h.moves hbs mine_hand mine_freeMag rfl (fun t' ht => ?_) (fun c' => ?_)
    (fun c' => ?_) ?_ ?_
  · simp [setTask, setFreeMag, Function.update_of_ne ht]
  · exact (h.allocMag t c').moved hbs (by simp) (by simp)
  · show Fills _ _ (Function.update s.freeMags t (Function.update (s.freeMags t) c m) t c')
    rw [Function.update_self]
    refine fills_update (f := .freeMag t) (fun c' hc => ?_) ?_ c'
    · exact (h.freeMag t c').moved hbs (by simp) (by simpa using hc.symm)
    · refine ⟨hok, ?_⟩
      rw [hslots]
      exact hmag.all.arrive (List.nodup_singleton block) (by simp [hblock])
  · rw [hidle]
    simp only [setTask, Function.update_self]
    refine ⟨rfl, fun b c' hb => ?_⟩
    rw [moved_iff_of_ne (by simp), hhand b c'] at hb
    exact hb.1 (by simp [hb.2.2])
  · exact h.books.quiet hbs (h.books.carved_moved hbs rfl) (by simp) (by simp) rfl rfl rfl rfl

/-- The blocks behind the first of a fresh page go into the thread's magazine. -/
theorem Inv.carve (h : Inv stage place s) (htask : s.task t = .mapPage c size) (hnd : bs.Nodup)
    (hbs : ∀ b ∈ bs, place b = .unmapped) (hok : m.OK)
    (hslots : m.slots = (s.allocMags t c).slots ++ bs) :
    Inv stage (moved place bs (.allocMag t c)) (setAllocMag (noteCarved s c bs) t c m) := by
  have ha := h.agrees t
  rw [htask] at ha
  refine h.moves hbs mine_unmapped mine_allocMag rfl (fun t' ht => ?_) (fun c' => ?_)
    (fun c' => ?_) ?_ ?_
  · simp [setAllocMag, noteCarved, Function.update_of_ne ht]
  · show Fills _ _ (Function.update s.allocMags t (Function.update (s.allocMags t) c m) t c')
    rw [Function.update_self]
    refine fills_update (f := .allocMag t) (fun c' hc => ?_) ?_ c'
    · exact (h.allocMag t c').moved hbs (by simp) (by simpa using hc.symm)
    · refine ⟨hok, ?_⟩
      rw [hslots]
      refine (h.allocMag t c).all.arrive hnd fun b hb => ?_
      rw [hbs b hb]
      simp
  · exact (h.freeMag t c').moved hbs (by simp) (by simp)
  · show Agrees _ _ t (s.task t) (s.exchange.pc t)
    rw [htask]
    exact ⟨ha.1, ha.2.1.moved (by simp), ha.2.2⟩
  · exact h.books.quiet hbs (h.books.carved_note hbs rfl) (by simp) (by simp) rfl rfl rfl rfl

/-- The first block of fresh pages goes to the client. -/
theorem Inv.serve_fresh (h : Inv stage place s) (hno : NoHand place t)
    (hidle : s.exchange.pc t = .idle) (hsize : headerClass size = some c)
    (hblock : place block = .unmapped) :
    Inv stage (moved place [block] (.live c))
      (MagazineThreads.serve (noteCarved s c [block]) t size block) := by
  have hbs : ∀ b ∈ [block], place b = .unmapped := by
    intro b hb
    rw [List.mem_singleton.mp hb]
    exact hblock
  refine h.moves (t := t) hbs mine_unmapped mine_live rfl (fun t' ht => ?_) (fun c' => ?_)
    (fun c' => ?_) ?_ ?_
  · simp [MagazineThreads.serve, setTask, noteCarved, Function.update_of_ne ht]
  · exact (h.allocMag t c').moved hbs (by simp) (by simp)
  · exact (h.freeMag t c').moved hbs (by simp) (by simp)
  · rw [hidle]
    simp only [MagazineThreads.serve, setTask, Function.update_self]
    exact ⟨rfl, hno.moved (by simp)⟩
  · exact h.books.serve (h.books.carved_note hbs rfl) (by simp [hblock]) (by simp [hblock]) hsize
      rfl rfl rfl rfl

variable [DecidableEq Node]

/-- The thread has nothing cached and starts to fetch a magazine. -/
theorem Inv.fetch (h : Inv stage place s) (htask : s.task t = .idle)
    (hempty : (s.allocMags t c).slots = []) (hsize : headerClass size = some c)
    (hs : fetch s t c size = some s') : Inv stage place s' := by
  have ha := h.agrees t
  rw [htask] at ha
  unfold MagazineThreads.fetch at hs
  split at hs
  · simp at hs
  · rename_i e he
    obtain rfl := Option.some.inj hs
    have hstart : MagazineExchange.stepIdle s.exchange t (.popLoad c (s.allocMags t c)) = some e :=
      he
    have hex := MagazineExchange.stepIdle_inv h.exchange hstart
    unfold MagazineExchange.stepIdle at hstart
    rw [ha.1] at hstart
    obtain rfl := Option.some.inj hstart
    refine h.build hex (fun t' ht => ?_) (h.allocMag t) (h.freeMag t) ?_ h.full
      (fun b n c' hb => ?_) ⟨h.books.carved, h.books.nodup, h.books.live, h.books.sizes,
        h.books.lost, h.books.refused⟩
    · exact ⟨fun _ _ _ => Iff.rfl, rfl, rfl, Function.update_of_ne ht _ _,
        Function.update_of_ne ht _ _, fun _ _ _ => rfl⟩
    · simp only [setTask, MagazineExchange.setPc, Function.update_self]
      exact ⟨ha.2, hsize, rfl, hempty⟩
    · refine h.node_kept hb (fun hst => hst) fun t' ht' => ?_
      by_cases ht : t' = t
      · rw [ht, ha.1] at ht'
        simp [carried] at ht'
      · simpa [setTask, MagazineExchange.setPc, Function.update_of_ne ht] using ht'

/-- A full magazine is put into a node that was never given out, and the block that did not fit
stays in the thread's hands. -/
theorem Inv.publish (h : Inv stage place s) (htask : s.task t = .idle)
    (hlive : place block = .live c) (hnew : n ∉ s.exchange.obtained) :
    ∃ place', Inv (Function.update stage n (.filling t)) place'
      (setTask (setFreeMag { s with
        live := s.live.erase block
        exchange := MagazineExchange.setPc
          { s.exchange with obtained := n :: s.exchange.obtained } t
          (.store c n (s.freeMags t c)) } t c Magazine.new) t (.stash c block)) := by
  have ha := h.agrees t
  rw [htask] at ha
  have hmag := h.freeMag t c
  have hfresh : stage n = .fresh := by
    by_contra hc
    exact hnew ((h.exchange.obtained n).mpr hc)
  have hnobody : ∀ t' c', carried (s.exchange.pc t') ≠ some (n, c') := by
    intro t' c' hc
    rcases own_of_carried h.exchange hc with ho | ho <;> rw [hfresh] at ho <;> simp at ho
  have hnone : ∀ b c', place b ≠ .node n c' := by
    intro b c' hb
    rcases h.node b n c' hb with hst | ⟨t', ht'⟩
    · rw [hfresh] at hst
      simp at hst
    · exact hnobody t' c' ht'
  have hbs₁ : ∀ b ∈ (s.freeMags t c).slots, place b = .freeMag t c := fun b hb => hmag.all.mem hb
  have hbs₂ : ∀ b ∈ [block], moved place (s.freeMags t c).slots (.node n c) b = .live c := by
    intro b hb
    rw [List.mem_singleton.mp hb, moved_of_notMem fun hin => ?_]
    · exact hlive
    · rw [hbs₁ block hin] at hlive
      simp at hlive
  have hbooks₁ : Books (moved place (s.freeMags t c).slots (.node n c)) s :=
    h.books.quiet hbs₁ (h.books.carved_moved hbs₁ rfl) (by simp) (by simp) rfl rfl rfl rfl
  refine ⟨moved (moved place (s.freeMags t c).slots (.node n c)) [block] (.hand t c), ?_⟩
  refine h.build (t := t) (h.exchange.obtain_node hnew) (fun t' ht => ?_) (fun c' => ?_)
    (fun c' => ?_) ?_ (fun n' c' hn' => ?_) (fun b n' c' hb => ?_)
    (hbooks₁.release hbs₂ rfl (by simp) rfl rfl rfl rfl rfl)
  · refine ⟨fun r hr b => ?_, ?_, ?_, ?_, ?_, fun _ _ _ => rfl⟩
    · have hnode : ¬ Belongs s t' (.node n c) := by
        rintro (⟨c', hc⟩ | ⟨n', c', hc, heq⟩)
        · simp at hc
        · obtain ⟨rfl, rfl⟩ : n = n' ∧ c = c' := by simpa using heq
          exact hnobody t' c hc
      rw [places_moved hbs₂ (mine_live.not_belongs ht) (mine_hand.not_belongs ht) r hr b]
      exact places_moved hbs₁ (mine_freeMag.not_belongs ht) hnode r hr b
    · rfl
    · simp [setTask, setFreeMag, Function.update_of_ne ht]
    · simp [setTask, setFreeMag, Function.update_of_ne ht]
    · simp [setTask, setFreeMag, MagazineExchange.setPc, Function.update_of_ne ht]
  · exact ((h.allocMag t c').moved hbs₁ (by simp) (by simp)).moved hbs₂ (by simp) (by simp)
  · show Fills _ _ (Function.update s.freeMags t
      (Function.update (s.freeMags t) c Magazine.new) t c')
    rw [Function.update_self]
    refine fills_update (f := .freeMag t) (fun c' hc => ?_) ?_ c'
    · exact ((h.freeMag t c').moved hbs₁ (by simpa using hc.symm) (by simp)).moved hbs₂ (by simp)
        (by simp)
    · have hleft : Fills (moved place (s.freeMags t c).slots (.node n c)) (.freeMag t c)
          Magazine.new := by
        refine ⟨Magazine.new_ok, ?_⟩
        rw [Magazine.new_slots]
        exact AllAt.leave hmag.all (by simp)
      exact hleft.moved hbs₂ (by simp) (by simp)
  · simp only [setTask, setFreeMag, MagazineExchange.setPc, Function.update_self]
    refine ⟨fun b c' => ?_, by simp, rfl, ?_⟩
    · by_cases hc : c' = c
      · subst hc
        rw [moved_iff, moved_iff_of_ne (by simp), List.mem_singleton]
        simp [ha.2 b c']
      · rw [moved_iff_of_ne (by simpa using fun hcc : c = c' => hc hcc.symm),
          moved_iff_of_ne (by simp)]
        simp [ha.2 b c', hc]
    · have hsent : Fills (moved place (s.freeMags t c).slots (.node n c)) (.node n c)
          (s.freeMags t c) := ⟨hmag.ok, hmag.all.relocate fun b => hnone b c⟩
      exact hsent.moved hbs₂ (by simp) (by simp)
  · have hne : n' ≠ n := by
      rintro rfl
      rw [Function.update_self] at hn'
      simp at hn'
    rw [Function.update_of_ne hne] at hn'
    have hfull := (h.full n' c' hn').moved (p := .node n c) hbs₁ (by simp)
      (by simpa using fun hc : n = n' => absurd hc.symm hne)
    exact hfull.moved hbs₂ (by simp) (by simp)
  · rw [moved_iff_of_ne (by simp)] at hb
    by_cases hn : n' = n ∧ c' = c
    · obtain ⟨rfl, rfl⟩ := hn
      exact Or.inr ⟨t, by simp [setTask, setFreeMag, MagazineExchange.setPc, carried]⟩
    · have hne : (Place.node n c : Place Tid Node) ≠ .node n' c' := by
        simpa using fun hnn hcc => hn ⟨hnn.symm, hcc.symm⟩
      rw [moved_iff_of_ne hne] at hb
      refine h.node_kept hb.2.2 (fun hst => ?_) fun t' ht' => ?_
      · rw [Function.update_of_ne]
        · exact hst
        · rintro rfl
          rw [hfresh] at hst
          simp at hst
      · by_cases ht : t' = t
        · rw [ht, ha.1] at ht'
          simp [carried] at ht'
        · simpa [setTask, setFreeMag, MagazineExchange.setPc, Function.update_of_ne ht] using ht'

end Step

end Aethalloc.Abi.MagazineThreads
