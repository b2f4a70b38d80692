/-
The steps of the exchange, with the blocks they carry.

Most steps move the thread on and nothing else.  Four do more: the swap of
`pop_full` takes a node off the full stack, the swap of the magazines gives its
blocks to the thread, `push_empty` puts the empty node away, and the swap of
`push_full` offers a node's blocks to everybody.
-/
import Aethalloc.Proofs.Abi.MagazineThreads.Calls

namespace Aethalloc.Abi.MagazineThreads

open Lib
open MagazineExchange (Stage Own)

variable {Tid Node : Type} {stage stage' : Node → Stage Tid} {place place' : Nat → Place Tid Node}
  {s s' : State Tid Node} {t t' : Tid} {n : Node} {b c size block : Nat} {bs : List Nat}
  {p q : Place Tid Node} {m m' : Magazine}

section Step

variable [DecidableEq Tid] [DecidableEq Node]

/-! ### Steps of the exchange -/

omit [DecidableEq Tid] [DecidableEq Node] in
/-- The exchange moves, no block does, and the thread touches only magazines it works on. -/
theorem Inv.exchanges {e : MagazineExchange.State Tid Node} (h : Inv stage place s)
    (hex : MagazineExchange.Inv stage' e) (hpc : ∀ t', t' ≠ t → e.pc t' = s.exchange.pc t')
    (hmag : ∀ n, e.magazine n = s.exchange.magazine n ∨ Own stage t n)
    (hagrees : Agrees place { s with exchange := e } t (s.task t) (e.pc t))
    (hfull : ∀ n c, stage' n = .full c → Fills place (.node n c) (e.magazine n))
    (hnode : ∀ b n c, place b = .node n c →
      stage' n = .full c ∨ ∃ t, carried (e.pc t) = some (n, c)) :
    Inv stage' place { s with exchange := e } := by
  refine h.build hex (fun t' ht => ?_) (h.allocMag t) (h.freeMag t) hagrees hfull hnode
    ⟨h.books.carved, h.books.nodup, h.books.live, h.books.sizes, h.books.lost, h.books.refused⟩
  refine ⟨fun _ _ _ => Iff.rfl, rfl, rfl, rfl, hpc t' ht, fun n c hc => ?_⟩
  refine (hmag n).resolve_right fun ho => ?_
  exact ho.ne_of_ne (own_of_carried h.exchange hc) ht rfl

omit [DecidableEq Tid] [DecidableEq Node] in
/-- The same when all nodes stay at their stage. -/
theorem Inv.advance {e : MagazineExchange.State Tid Node} (h : Inv stage place s)
    (hex : MagazineExchange.Inv stage e) (hpc : ∀ t', t' ≠ t → e.pc t' = s.exchange.pc t')
    (hmag : ∀ n, e.magazine n = s.exchange.magazine n ∨ Own stage t n)
    (hcarried : ∀ x, carried (s.exchange.pc t) = some x → carried (e.pc t) = some x)
    (hagrees : Agrees place { s with exchange := e } t (s.task t) (e.pc t)) :
    Inv stage place { s with exchange := e } := by
  refine h.exchanges hex hpc hmag hagrees (fun n c hn => ?_) fun b n c hb => ?_
  · rw [(hmag n).resolve_right fun ho => ho.ne_full hn rfl]
    exact h.full n c hn
  · refine h.node_kept hb (fun hst => hst) fun t' ht' => ?_
    by_cases ht : t' = t
    · rw [ht] at ht' ⊢
      exact hcarried (n, c) ht'
    · rw [hpc t' ht]
      exact ht'

omit [DecidableEq Node] in
/-- A thread inside its exchange for `alloc` moves on. -/
theorem Inv.fetch_on {e : MagazineExchange.State Tid Node} {pc : MagazineExchange.Pc Node}
    (h : Inv stage place s) (htask : s.task t = .refill c size)
    (hex : MagazineExchange.Inv stage (MagazineExchange.setPc e t pc))
    (hpc : e.pc = s.exchange.pc)
    (hmag : ∀ n, e.magazine n = s.exchange.magazine n ∨ Own stage t n)
    (hcarried : carried (s.exchange.pc t) = none)
    (hfetch : Fetching place { s with exchange := MagazineExchange.setPc e t pc } t c pc) :
    Inv stage place { s with exchange := MagazineExchange.setPc e t pc } := by
  have ha := h.agrees t
  rw [htask] at ha
  refine h.advance (t := t) hex (fun t' ht => ?_) hmag (fun x hx => ?_) ?_
  · simp [MagazineExchange.setPc, Function.update_of_ne ht, hpc]
  · rw [hcarried] at hx
    simp at hx
  · rw [htask]
    simp only [MagazineExchange.setPc, Function.update_self]
    exact ⟨ha.1, ha.2.1, hfetch⟩

omit [DecidableEq Node] in
/-- A thread inside its exchange for `dealloc` moves on. -/
theorem Inv.send_on {e : MagazineExchange.State Tid Node} {pc : MagazineExchange.Pc Node}
    (h : Inv stage place s) (htask : s.task t = .stash c block)
    (hex : MagazineExchange.Inv stage (MagazineExchange.setPc e t pc))
    (hpc : e.pc = s.exchange.pc)
    (hmag : ∀ n, e.magazine n = s.exchange.magazine n ∨ Own stage t n)
    (hcarried : carried pc = carried (s.exchange.pc t))
    (hsend : Sending place { s with exchange := MagazineExchange.setPc e t pc } c pc) :
    Inv stage place { s with exchange := MagazineExchange.setPc e t pc } := by
  have ha := h.agrees t
  rw [htask] at ha
  refine h.advance (t := t) hex (fun t' ht => ?_) hmag (fun x hx => ?_) ?_
  · simp [MagazineExchange.setPc, Function.update_of_ne ht, hpc]
  · simp only [MagazineExchange.setPc, Function.update_self]
    rw [hcarried]
    exact hx
  · rw [htask]
    simp only [MagazineExchange.setPc, Function.update_self]
    exact ⟨ha.1, ha.2.1, hsend⟩

omit [DecidableEq Node] in
/-- The head of the loop of `pop_full`. -/
theorem Inv.pop_on (h : Inv stage place s) (htask : s.task t = .refill c size) {mine : Magazine}
    (hempty : (s.allocMags t c).slots = []) (hcarried : carried (s.exchange.pc t) = none) :
    Inv stage place { s with
      exchange := MagazineExchange.popFrom s.exchange t c mine (s.exchange.fullHead c) } := by
  have hex := h.exchange.enter_pop (t := t) c mine
  cases hhead : s.exchange.fullHead c with
  | none =>
      rw [hhead] at hex
      exact h.fetch_on htask hex rfl (fun _ => Or.inl rfl) hcarried trivial
  | some current =>
      rw [hhead] at hex
      exact h.fetch_on htask hex rfl (fun _ => Or.inl rfl) hcarried ⟨rfl, hempty⟩

/-- The swap of `pop_full` succeeds: the blocks of the node are on their way to the thread. -/
theorem Inv.pop_full (h : Inv stage place s) (htask : s.task t = .refill c size)
    {mine : Magazine} {next : Option Node}
    (hpc : s.exchange.pc t = .popCas c mine n next) (hhead : s.exchange.fullHead c = some n) :
    Inv (Function.update stage n (.taken t)) place { s with
      exchange := MagazineExchange.setPc { s.exchange with
        fullHead := Function.update s.exchange.fullHead c next
        popped := s.exchange.popped ++ [(c, n)] } t (.swap c mine n) } := by
  have ha := h.agrees t
  have hk := h.exchange.pc t
  rw [htask, hpc] at ha
  rw [hpc] at hk
  have hfull : stage n = .full c := h.exchange.head_full hhead
  refine h.exchanges (t := t) (h.exchange.pop_full hk.2 hhead) (fun t' ht => ?_)
    (fun _ => Or.inl rfl) ?_ (fun n' c' hn' => ?_) fun b n' c' hb => ?_
  · simp [MagazineExchange.setPc, Function.update_of_ne ht]
  · rw [htask]
    simp only [MagazineExchange.setPc, Function.update_self]
    exact ⟨ha.1, ha.2.1, rfl, ha.2.2.2, h.full n c hfull⟩
  · by_cases hn : n' = n
    · rw [hn, Function.update_self] at hn'
      simp at hn'
    · rw [Function.update_of_ne hn] at hn'
      exact h.full n' c' hn'
  · rcases h.node b n' c' hb with hst | ⟨t', ht'⟩
    · by_cases hn : n' = n
      · rw [hn, hfull] at hst
        obtain rfl : c = c' := by simpa using hst
        exact Or.inr ⟨t, by simp [MagazineExchange.setPc, carried, hn]⟩
      · rw [Function.update_of_ne hn]
        exact Or.inl hst
    · refine Or.inr ⟨t', ?_⟩
      have ht : t' ≠ t := by
        rintro rfl
        rw [hpc] at ht'
        simp [carried] at ht'
      simpa [MagazineExchange.setPc, Function.update_of_ne ht] using ht'

omit [DecidableEq Tid] [DecidableEq Node] in
/-- The blocks in a node that a thread carries are in the magazine it carries them in. -/
theorem Inv.node_carried (h : Inv stage place s) (hn : carried (s.exchange.pc t) = some (n, c))
    {c' : Nat} (hb : place b = .node n c') : c' = c := by
  have ho := own_of_carried h.exchange hn
  rcases h.node b n c' hb with hst | ⟨t', ht'⟩
  · exact absurd rfl (ho.ne_full hst)
  · by_cases ht : t' = t
    · rw [ht, hn] at ht'
      simpa using ht'.symm
    · exact absurd rfl (ho.ne_of_ne (own_of_carried h.exchange ht') ht)

/-- The magazines are swapped: the blocks of the node are the thread's. -/
theorem Inv.swap_node (h : Inv stage place s) (htask : s.task t = .refill c size)
    {mine : Magazine} {e : MagazineExchange.State Tid Node}
    (hpc : s.exchange.pc t = .swap c mine n)
    (hs : MagazineExchange.stepMove s.exchange t = some e) :
    Inv stage (moved place (s.exchange.magazine n).slots (.allocMag t c))
      { setAllocMag s t c (s.exchange.magazine n) with exchange := e } := by
  have ha := h.agrees t
  rw [htask, hpc] at ha
  obtain ⟨hno, hsize, -, hempty, hfills⟩ := ha
  have hex := MagazineExchange.stepMove_inv h.exchange hs
  have hn : carried (s.exchange.pc t) = some (n, c) := by rw [hpc]; rfl
  have ho := own_of_carried h.exchange hn
  simp only [MagazineExchange.stepMove, hpc] at hs
  obtain rfl := Option.some.inj hs
  have hbs : ∀ b ∈ (s.exchange.magazine n).slots, place b = .node n c :=
    fun b hb => hfills.all.mem hb
  have hnone : ∀ b, place b ≠ .allocMag t c := by
    intro b hb
    have hin := ((h.allocMag t c).all.2 b).mpr hb
    rw [hempty] at hin
    simp at hin
  refine h.build (t := t) hex (fun t' ht => ?_) (fun c' => ?_) (fun c' => ?_) ?_
    (fun n' c' hn' => ?_) (fun b n' c' hb => ?_)
    (h.books.quiet hbs (h.books.carved_moved hbs rfl) (by simp) (by simp) rfl rfl rfl rfl)
  · have hnot : ¬ Belongs s t' (.node n c) := by
      rintro (⟨c', hc⟩ | ⟨n', c', hc, heq⟩)
      · simp at hc
      · obtain ⟨rfl, rfl⟩ : n = n' ∧ c = c' := by simpa using heq
        exact ho.ne_of_ne (own_of_carried h.exchange hc) ht rfl
    refine ⟨places_moved hbs hnot (mine_allocMag.not_belongs ht), ?_, rfl, rfl, ?_, ?_⟩
    · simp [setAllocMag, Function.update_of_ne ht]
    · simp [MagazineExchange.setPc, Function.update_of_ne ht]
    · intro n' c' hc
      have hne : n' ≠ n := ho.ne_of_ne (own_of_carried h.exchange hc) ht
      simp [MagazineExchange.setPc, Function.update_of_ne hne]
  · show Fills _ _ (Function.update s.allocMags t
      (Function.update (s.allocMags t) c (s.exchange.magazine n)) t c')
    rw [Function.update_self]
    refine fills_update (f := .allocMag t) (fun c' hc => ?_) ?_ c'
    · exact (h.allocMag t c').moved hbs (by simp) (by simpa using hc.symm)
    · exact ⟨hfills.ok, hfills.all.relocate hnone⟩
  · exact (h.freeMag t c').moved hbs (by simp) (by simp)
  · show Agrees _ _ t (s.task t) _
    rw [htask]
    simp only [MagazineExchange.setPc, Function.update_self]
    exact ⟨hno.moved (by simp), hsize, trivial⟩
  · have hne : n' ≠ n := ho.ne_full hn'
    have hfull := (h.full n' c' hn').moved (p := .allocMag t c) hbs
      (by simpa using fun hc : n = n' => absurd hc.symm hne) (by simp)
    simpa [MagazineExchange.setPc, Function.update_of_ne hne] using hfull
  · rw [moved_iff_of_ne (by simp)] at hb
    have hne : n' ≠ n := by
      rintro rfl
      obtain rfl := h.node_carried hn hb.2
      exact hb.1 ((hfills.all.2 b).mpr hb.2)
    refine h.node_kept hb.2 (fun hst => hst) fun t' ht' => ?_
    have ht : t' ≠ t := by
      rintro rfl
      rw [hn] at ht'
      simp only [Option.some.injEq, Prod.mk.injEq] at ht'
      exact hne ht'.1.symm
    simpa [MagazineExchange.setPc, Function.update_of_ne ht] using ht'

/-- The swap of `push_empty` succeeds: the empty node is put away. -/
theorem Inv.push_empty (h : Inv stage place s) (htask : s.task t = .refill c size) {c₁ : Nat}
    {current : Option Node} (hpc : s.exchange.pc t = .emptyCas c₁ n current) :
    Inv (Function.update stage n .empty) place { s with
      exchange := MagazineExchange.setPc { s.exchange with
        emptyHead := Function.update s.exchange.emptyHead c₁ (some n) } t .idle } := by
  have ha := h.agrees t
  have hk := h.exchange.pc t
  rw [htask, hpc] at ha
  rw [hpc] at hk
  have htaken : stage n = .taken t := hk
  have hne : ∀ n' c', stage n' = .full c' → n' ≠ n := by
    rintro n' c' hn' rfl
    rw [htaken] at hn'
    simp at hn'
  refine h.exchanges (t := t) (h.exchange.push_empty htaken) (fun t' ht => ?_)
    (fun _ => Or.inl rfl) ?_ (fun n' c' hn' => ?_) fun b n' c' hb => ?_
  · simp [MagazineExchange.setPc, Function.update_of_ne ht]
  · rw [htask]
    simp only [MagazineExchange.setPc, Function.update_self]
    exact ⟨ha.1, ha.2.1, trivial⟩
  · by_cases hn : n' = n
    · rw [hn, Function.update_self] at hn'
      simp at hn'
    · rw [Function.update_of_ne hn] at hn'
      exact h.full n' c' hn'
  · refine h.node_kept hb (fun hst => ?_) fun t' ht' => ?_
    · rw [Function.update_of_ne (hne n' c' hst)]
      exact hst
    · have ht : t' ≠ t := by
        rintro rfl
        rw [hpc] at ht'
        simp [carried] at ht'
      simpa [MagazineExchange.setPc, Function.update_of_ne ht] using ht'

/-- The swap of `push_full` succeeds: the blocks of the node are for anybody. -/
theorem Inv.push_full (h : Inv stage place s) (htask : s.task t = .stash c block)
    {current : Option Node} (hpc : s.exchange.pc t = .fullCas c n current)
    (hhead : s.exchange.fullHead c = current) :
    Inv (Function.update stage n (.full c)) place { s with
      exchange := MagazineExchange.setPc { s.exchange with
        fullHead := Function.update s.exchange.fullHead c (some n)
        pushed := s.exchange.pushed ++ [(c, n)]
        published := s.exchange.published ++ [(n, s.exchange.magazine n)] } t .idle } := by
  have ha := h.agrees t
  have hk := h.exchange.pc t
  rw [htask, hpc] at ha
  rw [hpc] at hk
  obtain ⟨hhand, hempty, -, hfills⟩ := ha
  have hn : carried (s.exchange.pc t) = some (n, c) := by rw [hpc]; rfl
  refine h.exchanges (t := t) (h.exchange.push_full hk.1 hk.2 hhead) (fun t' ht => ?_)
    (fun _ => Or.inl rfl) ?_ (fun n' c' hn' => ?_) fun b n' c' hb => ?_
  · simp [MagazineExchange.setPc, Function.update_of_ne ht]
  · rw [htask]
    simp only [MagazineExchange.setPc, Function.update_self]
    exact ⟨hhand, hempty, trivial⟩
  · by_cases hnn : n' = n
    · rw [hnn, Function.update_self] at hn'
      obtain rfl : c = c' := by simpa using hn'
      rw [hnn]
      exact hfills
    · rw [Function.update_of_ne hnn] at hn'
      exact h.full n' c' hn'
  · by_cases hnn : n' = n
    · rw [hnn] at hb ⊢
      rw [h.node_carried hn hb, Function.update_self]
      exact Or.inl rfl
    · rw [Function.update_of_ne hnn]
      refine h.node_kept hb (fun hst => hst) fun t' ht' => ?_
      have ht : t' ≠ t := by
        rintro rfl
        rw [hn] at ht'
        simp only [Option.some.injEq, Prod.mk.injEq] at ht'
        exact hnn ht'.1.symm
      simpa [MagazineExchange.setPc, Function.update_of_ne ht] using ht'

end Step

end Aethalloc.Abi.MagazineThreads
