/-
What holds of the blocks while threads exchange magazines.

Every block has a place, and every container — a thread's two magazines, the
magazine of a node — holds exactly the blocks whose place it is.  A node's magazine
belongs to whoever works on the node; the stages of the node, from the proof that
the exchange is exact, say who that is.  Beside that there is what a thread knows in
the middle of a call, and the history of what was made, served and lost.

A step concerns one thread.  `Inv.build` is what the step has to show for that
thread, once it is clear that it leaves alone what belongs to the others, and
`Inv.moves` is the common case that blocks go from one of its places to another.
-/
import Aethalloc.Proofs.Magazine
import Aethalloc.Proofs.MagazineExchange
import Aethalloc.Abi.MagazineThreads

namespace Aethalloc.Abi.MagazineThreads

open Lib
open SimpleExchange (blocksPerPage headerClass)
open MagazineExchange (Stage Own)

variable {Tid Node : Type} {stage stage' : Node → Stage Tid} {place place' : Nat → Place Tid Node}
  {s s' : State Tid Node} {t t' : Tid} {n : Node} {b c size block : Nat} {bs : List Nat}
  {p q : Place Tid Node} {m m' : Magazine}

/-! ### What a thread knows -/

/-- The magazine has exactly the blocks of a place. -/
structure Fills (place : Nat → Place Tid Node) (q : Place Tid Node) (m : Magazine) : Prop where
  ok : m.OK
  all : AllAt place q m.slots

theorem Fills.keep (h : Fills place q m) (hplace : ∀ b, place' b = q ↔ place b = q) :
    Fills place' q m :=
  ⟨h.ok, h.all.keep hplace⟩

def NoHand (place : Nat → Place Tid Node) (t : Tid) : Prop := ∀ b c, place b ≠ .hand t c

theorem NoHand.moved (h : NoHand place t) (hp : ∀ c, p ≠ .hand t c) :
    NoHand (moved place bs p) t := by
  intro b c hb
  rw [moved_iff_of_ne (hp c)] at hb
  exact h b c hb.2

/-- The thread has one block in its hands. -/
def Hand (place : Nat → Place Tid Node) (t : Tid) (c block : Nat) : Prop :=
  ∀ b c', place b = .hand t c' ↔ c' = c ∧ b = block

/-- Inside the exchange of `alloc`. -/
def Fetching (place : Nat → Place Tid Node) (s : State Tid Node) (t : Tid) (c : Nat) :
    MagazineExchange.Pc Node → Prop
  | .idle | .clear .. | .emptyLoad .. | .emptyWrite .. | .emptyCas .. => True
  | .popLoad c' _ | .popRead c' _ _ | .popCas c' _ _ _ => c' = c ∧ (s.allocMags t c).slots = []
  | .swap c' _ n =>
      c' = c ∧ (s.allocMags t c).slots = [] ∧ Fills place (.node n c) (s.exchange.magazine n)
  | .store .. | .clearNext .. | .fullLoad .. | .fullWrite .. | .fullCas .. => False

/-- Inside the exchange of `dealloc`. -/
def Sending (place : Nat → Place Tid Node) (s : State Tid Node) (c : Nat) :
    MagazineExchange.Pc Node → Prop
  | .idle => True
  | .store c' n full => c' = c ∧ Fills place (.node n c) full
  | .clearNext c' n | .fullLoad c' n | .fullWrite c' n _ | .fullCas c' n _ =>
      c' = c ∧ Fills place (.node n c) (s.exchange.magazine n)
  | .popLoad .. | .popRead .. | .popCas .. | .swap .. | .clear .. | .emptyLoad .. | .emptyWrite ..
  | .emptyCas .. => False

/-- What a thread's call and its exchange have to do with each other. -/
def Agrees (place : Nat → Place Tid Node) (s : State Tid Node) (t : Tid) :
    Task → MagazineExchange.Pc Node → Prop
  | .idle, pc => pc = .idle ∧ NoHand place t
  | .mapPage c size, pc =>
      pc = .idle ∧ NoHand place t ∧ headerClass size = some c ∧ 1 < blocksPerPage size
  | .mapSingle c size, pc => pc = .idle ∧ NoHand place t ∧ headerClass size = some c
  | .refill c size, pc => NoHand place t ∧ headerClass size = some c ∧ Fetching place s t c pc
  | .stash c block, pc =>
      Hand place t c block ∧ (s.freeMags t c).slots = [] ∧ Sending place s c pc

/-- A place whose blocks are the thread's. -/
def Belongs (s : State Tid Node) (t : Tid) (q : Place Tid Node) : Prop :=
  (∃ c, q = .allocMag t c ∨ q = .freeMag t c ∨ q = .hand t c) ∨
    ∃ n c, carried (s.exchange.pc t) = some (n, c) ∧ q = .node n c

/-- What is the thread's is left as it was. -/
structure Same (t : Tid) (place place' : Nat → Place Tid Node) (s s' : State Tid Node) : Prop where
  places : ∀ q, Belongs s t q → ∀ b, place' b = q ↔ place b = q
  allocMags : s'.allocMags t = s.allocMags t
  freeMags : s'.freeMags t = s.freeMags t
  task : s'.task t = s.task t
  pc : s'.exchange.pc t = s.exchange.pc t
  magazine : ∀ n c, carried (s.exchange.pc t) = some (n, c) →
    s'.exchange.magazine n = s.exchange.magazine n

namespace Same

variable (h : Same t place place' s s')

include h in
theorem hand (b c : Nat) : place' b = .hand t c ↔ place b = .hand t c :=
  h.places _ (Or.inl ⟨c, Or.inr (Or.inr rfl)⟩) b

include h in
theorem allocMag (b c : Nat) : place' b = .allocMag t c ↔ place b = .allocMag t c :=
  h.places _ (Or.inl ⟨c, Or.inl rfl⟩) b

include h in
theorem freeMag (b c : Nat) : place' b = .freeMag t c ↔ place b = .freeMag t c :=
  h.places _ (Or.inl ⟨c, Or.inr (Or.inl rfl)⟩) b

include h in
theorem fills (hn : carried (s.exchange.pc t) = some (n, c)) (hf : Fills place (.node n c) m) :
    Fills place' (.node n c) m :=
  hf.keep (h.places _ (Or.inr ⟨n, c, hn, rfl⟩))

include h in
theorem fills_magazine (hn : carried (s.exchange.pc t) = some (n, c))
    (hf : Fills place (.node n c) (s.exchange.magazine n)) :
    Fills place' (.node n c) (s'.exchange.magazine n) := by
  rw [h.magazine n c hn]
  exact h.fills hn hf

include h in
theorem fetching (hf : Fetching place s t c (s.exchange.pc t)) :
    Fetching place' s' t c (s.exchange.pc t) := by
  have hfills := fun n => h.fills_magazine (n := n) (c := c)
  have halloc : s'.allocMags t c = s.allocMags t c := congrFun h.allocMags c
  cases hpc : s.exchange.pc t <;> rw [hpc] at hf hfills
  case popLoad c' mine => exact ⟨hf.1, halloc ▸ hf.2⟩
  case popRead c' mine current => exact ⟨hf.1, halloc ▸ hf.2⟩
  case popCas c' mine current next => exact ⟨hf.1, halloc ▸ hf.2⟩
  case swap c' mine n =>
    obtain ⟨rfl, hslots, hmag⟩ := hf
    exact ⟨rfl, halloc ▸ hslots, hfills n rfl hmag⟩
  all_goals exact hf

include h in
theorem sending (hf : Sending place s c (s.exchange.pc t)) :
    Sending place' s' c (s.exchange.pc t) := by
  have hfills := fun n => h.fills_magazine (n := n) (c := c)
  have hcargo := fun n m => h.fills (n := n) (c := c) (m := m)
  cases hpc : s.exchange.pc t <;> rw [hpc] at hf hfills hcargo
  case store c' n full =>
    obtain ⟨rfl, hmag⟩ := hf
    exact ⟨rfl, hcargo n full rfl hmag⟩
  case clearNext c' n =>
    obtain ⟨rfl, hmag⟩ := hf
    exact ⟨rfl, hfills n rfl hmag⟩
  case fullLoad c' n =>
    obtain ⟨rfl, hmag⟩ := hf
    exact ⟨rfl, hfills n rfl hmag⟩
  case fullWrite c' n current =>
    obtain ⟨rfl, hmag⟩ := hf
    exact ⟨rfl, hfills n rfl hmag⟩
  case fullCas c' n current =>
    obtain ⟨rfl, hmag⟩ := hf
    exact ⟨rfl, hfills n rfl hmag⟩
  all_goals exact hf

/-- What a thread knows survives what another does. -/
theorem agrees (h : Same t place place' s s') (ha : Agrees place s t (s.task t) (s.exchange.pc t)) :
    Agrees place' s' t (s'.task t) (s'.exchange.pc t) := by
  have hno : NoHand place t → NoHand place' t := fun hn b c hb => hn b c ((h.hand b c).mp hb)
  rw [h.task, h.pc]
  cases htask : s.task t with
  | idle =>
      rw [htask] at ha
      exact ⟨ha.1, hno ha.2⟩
  | refill c size =>
      rw [htask] at ha
      exact ⟨hno ha.1, ha.2.1, h.fetching ha.2.2⟩
  | mapPage c size =>
      rw [htask] at ha
      exact ⟨ha.1, hno ha.2.1, ha.2.2⟩
  | mapSingle c size =>
      rw [htask] at ha
      exact ⟨ha.1, hno ha.2.1, ha.2.2⟩
  | stash c block =>
      rw [htask] at ha
      obtain ⟨hhand, hslots, hsend⟩ := ha
      refine ⟨fun b c' => (h.hand b c').trans (hhand b c'), ?_, h.sending hsend⟩
      rw [h.freeMags]
      exact hslots

end Same

/-! ### The invariant -/

/-- The history is the one of the places. -/
structure Books (place : Nat → Place Tid Node) (s : State Tid Node) : Prop where
  carved : ∀ c b, (c, b) ∈ s.carved ↔ (place b).cls = some c
  nodup : s.live.Nodup
  live : ∀ b, b ∈ s.live ↔ ∃ c, place b = .live c
  sizes : ∀ b c, place b = .live c → headerClass (s.word b) = some c
  lost : ∀ b, b ∈ s.lost ↔ ∃ c, place b = .lost c
  refused : s.lost.length = s.refused

structure Inv (stage : Node → Stage Tid) (place : Nat → Place Tid Node) (s : State Tid Node) :
    Prop where
  exchange : MagazineExchange.Inv stage s.exchange
  allocMag : ∀ t c, Fills place (.allocMag t c) (s.allocMags t c)
  freeMag : ∀ t c, Fills place (.freeMag t c) (s.freeMags t c)
  full : ∀ n c, stage n = .full c → Fills place (.node n c) (s.exchange.magazine n)
  node : ∀ b n c, place b = .node n c →
    stage n = .full c ∨ ∃ t, carried (s.exchange.pc t) = some (n, c)
  agrees : ∀ t, Agrees place s t (s.task t) (s.exchange.pc t)
  books : Books place s

theorem inv_start : Inv (fun _ => .fresh) (fun _ => .unmapped) (start : State Tid Node) where
  exchange := MagazineExchange.inv_start
  allocMag t c := ⟨Magazine.new_ok, by simp [start, AllAt]⟩
  freeMag t c := ⟨Magazine.new_ok, by simp [start, AllAt]⟩
  full n c hn := by simp at hn
  node b n c hb := by simp at hb
  agrees t := ⟨rfl, fun b c => by simp⟩
  books := {
    carved := by simp [start, Place.cls]
    nodup := List.nodup_nil
    live := by simp [start]
    sizes := by simp
    lost := by simp [start]
    refused := rfl }

/-- A step of one thread: what it has to show, given that the others see nothing of it. -/
theorem Inv.build (h : Inv stage place s) (hex : MagazineExchange.Inv stage' s'.exchange)
    (hsame : ∀ t', t' ≠ t → Same t' place place' s s')
    (halloc : ∀ c, Fills place' (.allocMag t c) (s'.allocMags t c))
    (hfree : ∀ c, Fills place' (.freeMag t c) (s'.freeMags t c))
    (hagrees : Agrees place' s' t (s'.task t) (s'.exchange.pc t))
    (hfull : ∀ n c, stage' n = .full c → Fills place' (.node n c) (s'.exchange.magazine n))
    (hnode : ∀ b n c, place' b = .node n c →
      stage' n = .full c ∨ ∃ t, carried (s'.exchange.pc t) = some (n, c))
    (hbooks : Books place' s') : Inv stage' place' s' where
  exchange := hex
  allocMag := by
    intro t' c
    by_cases ht : t' = t
    · rw [ht]
      exact halloc c
    · have hs := hsame t' ht
      rw [hs.allocMags]
      exact (h.allocMag t' c).keep fun b => hs.allocMag b c
  freeMag := by
    intro t' c
    by_cases ht : t' = t
    · rw [ht]
      exact hfree c
    · have hs := hsame t' ht
      rw [hs.freeMags]
      exact (h.freeMag t' c).keep fun b => hs.freeMag b c
  full := hfull
  node := hnode
  agrees := by
    intro t'
    by_cases ht : t' = t
    · rw [ht]
      exact hagrees
    · exact (hsame t' ht).agrees (h.agrees t')
  books := hbooks

/-- Where the nodes with blocks are after a step that loses sight of none of them. -/
theorem Inv.node_kept (h : Inv stage place s) {pc : Tid → MagazineExchange.Pc Node}
    (hb : place b = .node n c) (hfull : stage n = .full c → stage' n = .full c)
    (hcarried : ∀ t, carried (s.exchange.pc t) = some (n, c) → carried (pc t) = some (n, c)) :
    stage' n = .full c ∨ ∃ t, carried (pc t) = some (n, c) := by
  rcases h.node b n c hb with hst | ⟨t, ht⟩
  · exact Or.inl (hfull hst)
  · exact Or.inr ⟨t, hcarried t ht⟩

/-! ### Whose a place is -/

/-- A thread works on the node it carries blocks in. -/
theorem own_of_carried {e : MagazineExchange.State Tid Node} (h : MagazineExchange.Inv stage e)
    (hc : carried (e.pc t) = some (n, c)) : Own stage t n := by
  have hpc := h.pc t
  cases hat : e.pc t <;> rw [hat] at hc hpc
  case swap c' mine node =>
    obtain ⟨rfl, -⟩ : node = n ∧ c' = c := by simpa [carried] using hc
    exact Or.inr hpc.1
  case store c' node full =>
    obtain ⟨rfl, -⟩ : node = n ∧ c' = c := by simpa [carried] using hc
    exact Or.inl hpc
  case clearNext c' node =>
    obtain ⟨rfl, -⟩ : node = n ∧ c' = c := by simpa [carried] using hc
    exact Or.inl hpc
  case fullLoad c' node =>
    obtain ⟨rfl, -⟩ : node = n ∧ c' = c := by simpa [carried] using hc
    exact Or.inl hpc
  case fullWrite c' node current =>
    obtain ⟨rfl, -⟩ : node = n ∧ c' = c := by simpa [carried] using hc
    exact Or.inl hpc
  case fullCas c' node current =>
    obtain ⟨rfl, -⟩ : node = n ∧ c' = c := by simpa [carried] using hc
    exact Or.inl hpc.1
  all_goals simp [carried] at hc

/-- What no thread but one may own. -/
def Mine (t : Tid) (q : Place Tid Node) : Prop :=
  ∃ c, q = .allocMag t c ∨ q = .freeMag t c ∨ q = .hand t c ∨ q = .live c ∨ q = .lost c ∨
    q = .unmapped

theorem mine_allocMag : Mine t (.allocMag t c : Place Tid Node) := ⟨c, by simp⟩

theorem mine_freeMag : Mine t (.freeMag t c : Place Tid Node) := ⟨c, by simp⟩

theorem mine_hand : Mine t (.hand t c : Place Tid Node) := ⟨c, by simp⟩

theorem mine_live : Mine t (.live c : Place Tid Node) := ⟨c, by simp⟩

theorem mine_lost : Mine t (.lost c : Place Tid Node) := ⟨c, by simp⟩

theorem mine_unmapped : Mine t (.unmapped : Place Tid Node) := ⟨0, by simp⟩

theorem Mine.not_belongs (hm : Mine t q) (ht : t' ≠ t) : ¬ Belongs s t' q := by
  obtain ⟨c, hm⟩ := hm
  rintro (⟨c', hc⟩ | ⟨n, c', -, hc⟩)
  · rcases hm with rfl | rfl | rfl | rfl | rfl | rfl <;> simp at hc
    all_goals exact ht hc.1.symm
  · rcases hm with rfl | rfl | rfl | rfl | rfl | rfl <;> simp at hc

theorem Mine.ne_node (hm : Mine t q) : ∀ n c, q ≠ .node n c := by
  obtain ⟨c, hm⟩ := hm
  intro n c'
  rcases hm with rfl | rfl | rfl | rfl | rfl | rfl <;> simp

/-- The blocks of others stay where they are. -/
theorem places_moved (hbs : ∀ b ∈ bs, place b = q) (hq : ¬ Belongs s t q) (hp : ¬ Belongs s t p) :
    ∀ r, Belongs s t r → ∀ b, moved place bs p b = r ↔ place b = r := by
  intro r hr b
  refine moved_iff_of_not (fun hc => hp (hc ▸ hr)) fun x hx hc => hq ?_
  rw [← hbs x hx, hc]
  exact hr

theorem Fills.moved {r : Place Tid Node} (h : Fills place r m) (hbs : ∀ b ∈ bs, place b = q)
    (hq : q ≠ r) (hp : p ≠ r) : Fills (moved place bs p) r m :=
  ⟨h.ok, h.all.keep_moved hp fun b hb => by rw [hbs b hb]; exact hq⟩

/-- Blocks go from one of a thread's places to another, and the exchange does not move. -/
theorem Inv.moves (h : Inv stage place s) (hbs : ∀ b ∈ bs, place b = q) (hq : Mine t q)
    (hp : Mine t p) (hex : s'.exchange = s.exchange)
    (hrest : ∀ t', t' ≠ t → s'.allocMags t' = s.allocMags t' ∧ s'.freeMags t' = s.freeMags t' ∧
      s'.task t' = s.task t')
    (halloc : ∀ c, Fills (moved place bs p) (.allocMag t c) (s'.allocMags t c))
    (hfree : ∀ c, Fills (moved place bs p) (.freeMag t c) (s'.freeMags t c))
    (hagrees : Agrees (moved place bs p) s' t (s'.task t) (s.exchange.pc t))
    (hbooks : Books (moved place bs p) s') : Inv stage (moved place bs p) s' := by
  refine h.build (hex ▸ h.exchange) (fun t' ht => ?_) halloc hfree (hex ▸ hagrees)
    (fun n c hn => ?_) (fun b n c hb => ?_) hbooks
  · obtain ⟨ha, hf, htask⟩ := hrest t' ht
    refine ⟨places_moved hbs (hq.not_belongs ht) (hp.not_belongs ht), ha, hf, htask, ?_, ?_⟩
    · rw [hex]
    · intro n c _
      rw [hex]
  · rw [hex]
    exact (h.full n c hn).moved hbs (hq.ne_node n c) (hp.ne_node n c)
  · rw [moved_iff_of_ne (hp.ne_node n c)] at hb
    rw [hex]
    exact h.node b n c hb.2

/-! ### The history -/

namespace Books

/-- Blocks keep their class. -/
theorem carved_moved (h : Books place s) (hbs : ∀ b ∈ bs, place b = q) (hcls : q.cls = p.cls)
    (c b : Nat) : (c, b) ∈ s.carved ↔ (moved place bs p b).cls = some c := by
  rw [h.carved c b]
  by_cases hb : b ∈ bs
  · rw [moved_of_mem hb, hbs b hb, hcls]
  · rw [moved_of_notMem hb]

/-- Blocks of fresh pages get one. -/
theorem carved_note (h : Books place s) (hbs : ∀ b ∈ bs, place b = .unmapped)
    (hcls : p.cls = some c) (c' b : Nat) :
    (c', b) ∈ (noteCarved s c bs).carved ↔ (moved place bs p b).cls = some c' := by
  show (c', b) ∈ bs.map (fun b => (c, b)) ++ s.carved ↔ _
  rw [List.mem_append, h.carved c' b]
  by_cases hb : b ∈ bs
  · rw [moved_of_mem hb, hbs b hb, hcls]
    simp [Place.cls, hb]
  · rw [moved_of_notMem hb]
    simp [hb]

theorem unmapped (h : Books place s) (hb : b ∉ s.carved.map Prod.snd) : place b = .unmapped := by
  cases hcls : (place b).cls with
  | none =>
      cases hplace : place b <;> rw [hplace] at hcls <;> simp [Place.cls] at hcls ⊢
  | some c => exact absurd (List.mem_map_of_mem ((h.carved c b).mpr hcls)) hb

/-- Blocks that move out of the clients' sight. -/
theorem quiet (h : Books place s) (hbs : ∀ b ∈ bs, place b = q)
    (hcarved : ∀ c b, (c, b) ∈ s'.carved ↔ (moved place bs p b).cls = some c)
    (hq : ∀ c, q ≠ .live c ∧ q ≠ .lost c) (hp : ∀ c, p ≠ .live c ∧ p ≠ .lost c)
    (hlive : s'.live = s.live) (hword : s'.word = s.word)
    (hlost : s'.lost = s.lost) (hrefused : s'.refused = s.refused) :
    Books (moved place bs p) s' := by
  have hnot : ∀ (r : Place Tid Node), q ≠ r → ∀ x ∈ bs, place x ≠ r := by
    intro r hr x hx
    rw [hbs x hx]
    exact hr
  refine ⟨hcarved, hlive ▸ h.nodup, fun b => ?_, fun b c hb => ?_, fun b => ?_, ?_⟩
  · rw [hlive, h.live b]
    exact exists_congr fun c => (moved_iff_of_not (hp c).1 (hnot _ (hq c).1)).symm
  · rw [moved_iff_of_not (hp c).1 (hnot _ (hq c).1)] at hb
    rw [hword]
    exact h.sizes b c hb
  · rw [hlost, h.lost b]
    exact exists_congr fun c => (moved_iff_of_not (hp c).2 (hnot _ (hq c).2)).symm
  · rw [hlost, hrefused]
    exact h.refused

/-- A block goes to a client. -/
theorem serve (h : Books place s)
    (hcarved : ∀ c' b, (c', b) ∈ s'.carved ↔ (moved place [block] (.live c) b).cls = some c')
    (hlive : ∀ c, place block ≠ .live c) (hlost : ∀ c, place block ≠ .lost c)
    (hsize : headerClass size = some c) (hlive' : s'.live = block :: s.live)
    (hword : s'.word = Function.update s.word block size) (hlost' : s'.lost = s.lost)
    (hrefused : s'.refused = s.refused) : Books (moved place [block] (.live c)) s' := by
  refine ⟨hcarved, ?_, fun b => ?_, fun b c' hb => ?_, fun b => ?_, ?_⟩
  · rw [hlive']
    refine List.nodup_cons.mpr ⟨fun hin => ?_, h.nodup⟩
    obtain ⟨c', hc'⟩ := (h.live block).mp hin
    exact hlive c' hc'
  · rw [hlive', List.mem_cons]
    by_cases hb : b = block
    · simp [hb, moved]
    · rw [moved_of_notMem (by simpa using hb), ← h.live b]
      simp [hb]
  · rw [hword]
    by_cases hb' : b = block
    · rw [hb', moved_of_mem (List.mem_singleton_self block)] at hb
      obtain rfl : c = c' := by simpa using hb
      rw [hb', Function.update_self]
      exact hsize
    · rw [moved_of_notMem (by simpa using hb')] at hb
      rw [Function.update_of_ne hb']
      exact h.sizes b c' hb
  · rw [hlost', h.lost b]
    refine exists_congr fun c' => (moved_iff_of_not (by simp) fun x hx => ?_).symm
    rw [List.mem_singleton.mp hx]
    exact hlost c'
  · rw [hlost', hrefused]
    exact h.refused

/-- The clients, when one of them gives a block back. -/
theorem live_erase (h : Books place s) (hp : ∀ c, p ≠ .live c) (b : Nat) :
    b ∈ s.live.erase block ↔ ∃ c, moved place [block] p b = .live c := by
  rw [h.nodup.mem_erase_iff, h.live b]
  constructor
  · rintro ⟨hne, c', hc'⟩
    exact ⟨c', by rw [moved_of_notMem (by simpa using hne)]; exact hc'⟩
  · rintro ⟨c', hc'⟩
    rw [moved_iff_of_ne (hp c')] at hc'
    exact ⟨by simpa using hc'.1, c', hc'.2⟩

/-- A client gives a block back. -/
theorem release (h : Books place s) (hbs : ∀ b ∈ [block], place b = .live c)
    (hcls : some c = p.cls) (hp : ∀ c, p ≠ .live c ∧ p ≠ .lost c) (hcarved : s'.carved = s.carved)
    (hlive : s'.live = s.live.erase block) (hword : s'.word = s.word)
    (hlost : s'.lost = s.lost) (hrefused : s'.refused = s.refused) :
    Books (moved place [block] p) s' := by
  refine ⟨?_, ?_, fun b => ?_, fun b c' hb => ?_, fun b => ?_, ?_⟩
  · rw [hcarved]
    exact h.carved_moved hbs hcls
  · rw [hlive]
    exact h.nodup.erase block
  · rw [hlive]
    exact h.live_erase (fun c => (hp c).1) b
  · rw [moved_iff_of_ne (hp c').1] at hb
    rw [hword]
    exact h.sizes b c' hb.2
  · rw [hlost, h.lost b]
    refine exists_congr fun c' => (moved_iff_of_not (hp c').2 fun x hx => ?_).symm
    rw [hbs x hx]
    simp
  · rw [hlost, hrefused]
    exact h.refused

/-- A block that no magazine takes. -/
theorem lose (h : Books place s) (hbs : ∀ b ∈ [block], place b = .live c)
    (hcarved : s'.carved = s.carved) (hlive : s'.live = s.live.erase block)
    (hword : s'.word = s.word) (hlost : s'.lost = block :: s.lost)
    (hrefused : s'.refused = s.refused + 1) : Books (moved place [block] (.lost c)) s' := by
  refine ⟨?_, ?_, fun b => ?_, fun b c' hb => ?_, fun b => ?_, ?_⟩
  · rw [hcarved]
    exact h.carved_moved hbs rfl
  · rw [hlive]
    exact h.nodup.erase block
  · rw [hlive]
    exact h.live_erase (by simp) b
  · rw [moved_iff_of_ne (by simp)] at hb
    rw [hword]
    exact h.sizes b c' hb.2
  · rw [hlost, List.mem_cons, h.lost b]
    by_cases hb : b = block
    · simp [hb, moved]
    · rw [moved_of_notMem (by simpa using hb)]
      simp [hb]
  · rw [hlost, hrefused, List.length_cons, h.refused]

end Books

end Aethalloc.Abi.MagazineThreads
