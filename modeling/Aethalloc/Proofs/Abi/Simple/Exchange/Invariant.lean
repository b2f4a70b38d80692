/-
What holds of the blocks while threads pass them on through the global lists.

Every block has a place, and every list — a thread's own and the global one of its
class — is made of exactly the blocks whose place it is.  Beside that there is what
a thread knows in the middle of a call: the blocks in its hands, how far it has
walked along its list, and, while it pops, that the block it found is still on the
global list and what its link is.

A step concerns one thread.  `Inv.build` is what the step has to show for that
thread, once it is clear that it leaves alone what the others rely on, and
`Inv.moves` is the case that blocks go from one place to another.
-/
import Mathlib.Algebra.Group.Nat.Defs
import Aethalloc.Lib.Places
import Aethalloc.Abi.SimpleExchange

namespace Aethalloc.Abi.SimpleExchange

open Lib

variable {Tid : Type} {place place' : Nat → Place Tid} {s s' : State Tid} {t t' : Tid}
  {b c size block : Nat} {l bs : List Nat} {p q : Place Tid}

/-! ### Links -/

theorem link_setWord {v : Nat} :
    (setWord s block v).link = Function.update s.link block (if v = 0 then none else some v) := by
  funext x
  by_cases hx : x = block
  · subst hx
    simp [State.link, setWord]
  · simp [State.link, setWord, Function.update_of_ne hx]

/-- A pointer that is written into a block is the block's link. -/
theorem link_setWord_toPtr {v : Option Nat} (hv : ∀ x, v = some x → x ≠ 0) :
    (setWord s block (toPtr v)).link = Function.update s.link block v := by
  rw [link_setWord]
  cases v with
  | none => rfl
  | some x =>
      have hx : x ≠ 0 := hv x rfl
      simp [toPtr, hx]

theorem link_congr (h : s'.word b = s.word b) : s'.link b = s.link b := by
  unfold State.link
  rw [h]

/-! ### Lists and hands -/

/-- The list that starts at a pointer is made of the blocks at one place. -/
def Holds (link : Nat → Option Nat) (ptr : Option Nat) (place : Nat → Place Tid) (q : Place Tid)
    (l : List Nat) : Prop :=
  Chain link ptr l ∧ AllAt place q l

namespace Holds

variable {link link' : Nat → Option Nat} {ptr : Option Nat}

/-- A list does not notice what happens at other places. -/
theorem keep (h : Holds link ptr place q l) (hlink : ∀ b, place b = q → link' b = link b)
    (hplace : ∀ b, place' b = q ↔ place b = q) : Holds link' ptr place' q l := by
  obtain ⟨hchain, hall⟩ := h
  exact ⟨hchain.congr fun b hb => hlink b (hall.mem hb), hall.keep hplace⟩

theorem push (h : Holds link ptr place q l) (hb : place block ≠ q) :
    Holds (Function.update link block ptr) (some block) (moved place [block] q) q (block :: l) := by
  obtain ⟨hchain, hnd, hmem⟩ := h
  have hnot : block ∉ l := fun hin => hb ((hmem block).mp hin)
  refine ⟨hchain.push hnot, List.nodup_cons.mpr ⟨hnot, hnd⟩, fun x => ?_⟩
  rw [moved_iff, List.mem_cons, List.mem_singleton, hmem x]

theorem pop (h : Holds link (some block) place q l) (hp : p ≠ q) :
    ∃ rest, l = block :: rest ∧ Holds link (link block) (moved place [block] p) q rest := by
  obtain ⟨hchain, hnd, hmem⟩ := h
  obtain ⟨rest, rfl, hrest⟩ := hchain.exists_cons_of_some
  obtain ⟨hnot, hnd'⟩ := List.nodup_cons.mp hnd
  refine ⟨rest, rfl, hrest, hnd', fun x => ?_⟩
  rw [moved_iff_of_ne hp, List.mem_singleton, ← hmem x, List.mem_cons]
  constructor
  · intro hx
    exact ⟨fun hc => hnot (hc ▸ hx), Or.inr hx⟩
  · intro hx
    exact hx.2.resolve_left hx.1

/-- The first block of a list is one of its blocks. -/
theorem head (h : Holds link (some block) place q l) : place block = q := by
  obtain ⟨hchain, hall⟩ := h
  obtain ⟨rest, rfl, -⟩ := hchain.exists_cons_of_some
  exact hall.mem (List.mem_cons_self ..)

end Holds

/-- The thread has exactly these blocks in its hands. -/
def Hand (place : Nat → Place Tid) (t : Tid) (c : Nat) (l : List Nat) : Prop :=
  l.Nodup ∧ ∀ b c', place b = .hand t c' ↔ c' = c ∧ b ∈ l

def NoHand (place : Nat → Place Tid) (t : Tid) : Prop := ∀ b c, place b ≠ .hand t c

namespace Hand

theorem mem (h : Hand place t c l) (hb : b ∈ l) : place b = .hand t c := (h.2 b c).mpr ⟨rfl, hb⟩

/-- What a thread gives away leaves its hands. -/
theorem give_second {a : Nat} (h : Hand place t c (a :: b :: l)) (hp : ∀ c', p ≠ .hand t c') :
    Hand (moved place [b] p) t c (a :: l) := by
  obtain ⟨hnd, hmem⟩ := h
  simp only [List.nodup_cons, List.mem_cons, not_or] at hnd
  obtain ⟨⟨hab, hal⟩, hbl, hl⟩ := hnd
  refine ⟨List.nodup_cons.mpr ⟨hal, hl⟩, fun x c' => ?_⟩
  rw [moved_iff_of_ne (hp c'), hmem x c', List.mem_singleton, List.mem_cons, List.mem_cons,
    List.mem_cons]
  constructor
  · rintro ⟨hxb, hc, hx⟩
    exact ⟨hc, hx.imp_right fun hx => hx.resolve_left hxb⟩
  · rintro ⟨hc, rfl | hx⟩
    · exact ⟨hab, hc, Or.inl rfl⟩
    · exact ⟨fun hxb => hbl (hxb ▸ hx), hc, Or.inr (Or.inr hx)⟩

theorem give_all (h : Hand place t c l) (hp : ∀ c', p ≠ .hand t c') :
    NoHand (moved place l p) t := by
  intro b c' hb
  rw [moved_iff_of_ne (hp c'), h.2 b c'] at hb
  exact hb.1 hb.2.2

end Hand

/-- A thread with empty hands takes blocks. -/
theorem NoHand.take (h : NoHand place t) (hnd : bs.Nodup) :
    Hand (moved place bs (.hand t c)) t c bs := by
  refine ⟨hnd, fun b c' => ?_⟩
  by_cases hc : c' = c
  · subst hc
    rw [moved_iff]
    simp [h b c']
  · have hne : Place.hand t c ≠ Place.hand t c' := by simpa using fun hcc => hc hcc.symm
    rw [moved_iff_of_ne hne]
    simp [h b c', hc]

/-! ### What a thread knows -/

/-- The blocks from the first to the last of a batch, whatever the last one's link is. -/
def Batch (link : Nat → Option Nat) (batchHead batchTail : Nat) (l : List Nat) : Prop :=
  Chain (Function.update link batchTail none) (some batchHead) l ∧ ∃ pre, l = pre ++ [batchTail]

/-- The walk along the thread's list has met so many blocks, the last one `batchTail`. -/
def Walked (place : Nat → Place Tid) (s : State Tid) (t : Tid)
    (c flushCount batchHead batchTail walked : Nat) : Prop :=
  s.heads t c = some batchHead ∧ flushCount = s.counts t c / 2 ∧
    ∃ pre post, Chain s.link (some batchHead) (pre ++ batchTail :: post) ∧
      pre.length + 1 = walked ∧ ∀ b ∈ pre ++ batchTail :: post, place b = .cached t c

/-- The blocks of a page that are still to go to the thread's list. -/
def uncarved (size base i : Nat) : List Nat :=
  (List.range' i (blocksPerPage size - i)).map fun j => base + j * blockSize size

def Pc.Knows (place : Nat → Place Tid) (s : State Tid) (t : Tid) : Pc → Prop
  | .idle => NoHand place t
  | .serve c size block =>
      NoHand place t ∧ headerClass size = some c ∧ s.heads t c = some block
  | .stamp c size block => Hand place t c [block] ∧ headerClass size = some c
  | .probe c size | .mapSingle c size => NoHand place t ∧ headerClass size = some c
  | .popLoad c size transferred =>
      NoHand place t ∧ headerClass size = some c ∧ (0 < transferred → s.heads t c ≠ none)
  | .popRead c size transferred current =>
      (NoHand place t ∧ headerClass size = some c ∧ (0 < transferred → s.heads t c ≠ none)) ∧
        place current = .global c
  | .popCas c size transferred current next =>
      (NoHand place t ∧ headerClass size = some c ∧ (0 < transferred → s.heads t c ≠ none)) ∧
        place current = .global c ∧ s.link current = next
  | .keep c size _ block => Hand place t c [block] ∧ headerClass size = some c
  | .mapPage c size =>
      NoHand place t ∧ headerClass size = some c ∧ 1 < blocksPerPage size
  | .carve c size base i =>
      Hand place t c (base :: uncarved size base i) ∧ headerClass size = some c ∧
        i < blocksPerPage size
  | .readSize block => ∃ c, Hand place t c [block] ∧ headerClass (s.word block) = some c
  | .free c block => Hand place t c [block]
  | .walk c flushCount batchHead batchTail walked =>
      NoHand place t ∧ walked < flushCount ∧
        Walked place s t c flushCount batchHead batchTail walked
  | .cut c flushCount batchHead batchTail =>
      NoHand place t ∧ Walked place s t c flushCount batchHead batchTail flushCount
  | .detach c flushCount batchHead batchTail newLocalHead =>
      NoHand place t ∧ Walked place s t c flushCount batchHead batchTail flushCount ∧
        s.link batchTail = newLocalHead
  | .pushLoad c batchHead batchTail =>
      ∃ l, Hand place t c l ∧ Batch s.link batchHead batchTail l
  | .pushWrite c batchHead batchTail current =>
      ∃ l, Hand place t c l ∧ Batch s.link batchHead batchTail l ∧
        ∀ x, current = some x → x ≠ 0
  | .pushCas c batchHead batchTail current =>
      ∃ l, Hand place t c l ∧ Batch s.link batchHead batchTail l ∧ s.link batchTail = current

/-- What a thread relies on is left as it was. -/
structure Same (t : Tid) (place place' : Nat → Place Tid) (s s' : State Tid) : Prop where
  hand : ∀ b c, place' b = .hand t c ↔ place b = .hand t c
  cached : ∀ b c, place' b = .cached t c ↔ place b = .cached t c
  hand_word : ∀ b c, place b = .hand t c → s'.word b = s.word b
  cached_word : ∀ b c, place b = .cached t c → s'.word b = s.word b
  heads : s'.heads t = s.heads t
  counts : s'.counts t = s.counts t
  pc : s'.pc t = s.pc t
  top : ∀ b c, (s.pc t).popping = some c → place b = .global c →
    place' b = .global c ∧ s'.word b = s.word b

namespace Same

variable (h : Same t place place' s s')

include h in
theorem hand_link (hb : place b = .hand t c) : s'.link b = s.link b :=
  link_congr (h.hand_word b c hb)

include h in
theorem noHand (hn : NoHand place t) : NoHand place' t := fun b c hb => hn b c ((h.hand b c).mp hb)

include h in
theorem hand_eq (hh : Hand place t c l) : Hand place' t c l :=
  ⟨hh.1, fun b c' => (h.hand b c').trans (hh.2 b c')⟩

include h in
theorem walked {flushCount batchHead batchTail n : Nat}
    (hw : Walked place s t c flushCount batchHead batchTail n) :
    Walked place' s' t c flushCount batchHead batchTail n := by
  obtain ⟨hhead, hcount, pre, post, hchain, hlen, hcached⟩ := hw
  refine ⟨?_, ?_, pre, post, ?_, hlen, fun b hb => (h.cached b c).mpr (hcached b hb)⟩
  · rw [h.heads]
    exact hhead
  · rw [h.counts]
    exact hcount
  · exact hchain.congr fun b hb => link_congr (h.cached_word b c (hcached b hb))

include h in
theorem batch {batchHead batchTail : Nat} (hh : Hand place t c l)
    (hb : Batch s.link batchHead batchTail l) : Batch s'.link batchHead batchTail l := by
  obtain ⟨hchain, hlast⟩ := hb
  refine ⟨hchain.congr fun b hb => ?_, hlast⟩
  by_cases hbt : b = batchTail
  · rw [hbt, Function.update_self, Function.update_self]
  · rw [Function.update_of_ne hbt, Function.update_of_ne hbt]
    exact h.hand_link (hh.mem hb)

/-- What a thread knows survives what another does. -/
theorem knows (h : Same t place place' s s') (hk : (s.pc t).Knows place s t) :
    (s'.pc t).Knows place' s' t := by
  rw [h.pc]
  have hbatch : ∀ c transferred : Nat, (0 < transferred → s.heads t c ≠ none) →
      0 < transferred → s'.heads t c ≠ none := by
    intro c transferred hpos
    rw [h.heads]
    exact hpos
  have htop := h.top
  cases hpc : s.pc t <;> rw [hpc] at hk htop
  case idle => exact h.noHand hk
  case serve c size block =>
    refine ⟨h.noHand hk.1, hk.2.1, ?_⟩
    rw [h.heads]
    exact hk.2.2
  case stamp c size block => exact ⟨h.hand_eq hk.1, hk.2⟩
  case probe c size => exact ⟨h.noHand hk.1, hk.2⟩
  case popLoad c size transferred => exact ⟨h.noHand hk.1, hk.2.1, hbatch c transferred hk.2.2⟩
  case popRead c size transferred current =>
    obtain ⟨⟨hno, hsize, hpos⟩, hcur⟩ := hk
    exact ⟨⟨h.noHand hno, hsize, hbatch c transferred hpos⟩, (htop current c rfl hcur).1⟩
  case popCas c size transferred current next =>
    obtain ⟨⟨hno, hsize, hpos⟩, hcur, hlink⟩ := hk
    obtain ⟨hcur', hword⟩ := htop current c rfl hcur
    refine ⟨⟨h.noHand hno, hsize, hbatch c transferred hpos⟩, hcur', ?_⟩
    rw [link_congr hword]
    exact hlink
  case keep c size transferred block => exact ⟨h.hand_eq hk.1, hk.2⟩
  case mapPage c size => exact ⟨h.noHand hk.1, hk.2⟩
  case mapSingle c size => exact ⟨h.noHand hk.1, hk.2⟩
  case carve c size base i => exact ⟨h.hand_eq hk.1, hk.2⟩
  case readSize block =>
    obtain ⟨c, hhand, hclass⟩ := hk
    refine ⟨c, h.hand_eq hhand, ?_⟩
    rw [h.hand_word block c (hhand.mem (List.mem_singleton_self block))]
    exact hclass
  case free c block => exact h.hand_eq hk
  case walk c flushCount batchHead batchTail walked =>
    exact ⟨h.noHand hk.1, hk.2.1, h.walked hk.2.2⟩
  case cut c flushCount batchHead batchTail => exact ⟨h.noHand hk.1, h.walked hk.2⟩
  case detach c flushCount batchHead batchTail newLocalHead =>
    obtain ⟨hno, hwalked, hlink⟩ := hk
    refine ⟨h.noHand hno, h.walked hwalked, ?_⟩
    obtain ⟨-, -, pre, post, -, -, hcached⟩ := hwalked
    rw [link_congr (h.cached_word batchTail c (hcached batchTail (by simp)))]
    exact hlink
  case pushLoad c batchHead batchTail =>
    obtain ⟨l, hhand, hb⟩ := hk
    exact ⟨l, h.hand_eq hhand, h.batch hhand hb⟩
  case pushWrite c batchHead batchTail current =>
    obtain ⟨l, hhand, hb, hcur⟩ := hk
    exact ⟨l, h.hand_eq hhand, h.batch hhand hb, hcur⟩
  case pushCas c batchHead batchTail current =>
    obtain ⟨l, hhand, hb, hlink⟩ := hk
    refine ⟨l, h.hand_eq hhand, h.batch hhand hb, ?_⟩
    obtain ⟨-, pre, rfl⟩ := hb
    rw [h.hand_link (hhand.mem (by simp))]
    exact hlink

end Same

/-- A place whose blocks the thread relies on. -/
def Relies (s : State Tid) (t : Tid) (p : Place Tid) : Prop :=
  (∃ c, p = .hand t c ∨ p = .cached t c) ∨ ∃ c, (s.pc t).popping = some c ∧ p = .global c

/-- Blocks that a thread does not rely on are moved, not into its hands or lists, and nothing
else is written. -/
theorem Same.of_moved (hold : ∀ b ∈ bs, ¬ Relies s t (place b))
    (hnew : ∀ c, p ≠ .hand t c ∧ p ≠ .cached t c)
    (hword : ∀ b, b ∉ bs → s'.word b = s.word b) (hheads : s'.heads t = s.heads t)
    (hcounts : s'.counts t = s.counts t) (hpc : s'.pc t = s.pc t) :
    Same t place (moved place bs p) s s' where
  hand b c := moved_iff_of_not (hnew c).1 fun x hx hc => hold x hx (Or.inl ⟨c, Or.inl hc⟩)
  cached b c := moved_iff_of_not (hnew c).2 fun x hx hc => hold x hx (Or.inl ⟨c, Or.inr hc⟩)
  hand_word b c hb := hword b fun hin => hold b hin (Or.inl ⟨c, Or.inl hb⟩)
  cached_word b c hb := hword b fun hin => hold b hin (Or.inl ⟨c, Or.inr hb⟩)
  heads := hheads
  counts := hcounts
  pc := hpc
  top b c hpop hb := by
    have hnot : b ∉ bs := fun hin => hold b hin (Or.inr ⟨c, hpop, hb⟩)
    exact ⟨(moved_of_notMem hnot).trans hb, hword b hnot⟩

/-! ### The invariant -/

structure Inv (place : Nat → Place Tid) (s : State Tid) : Prop where
  list : ∀ t c, ∃ l, Holds s.link (s.heads t c) place (.cached t c) l ∧ l.length = s.counts t c
  global : ∀ c, ∃ l, Holds s.link (s.head c) place (.global c) l
  knows : ∀ t, (s.pc t).Knows place s t
  carved : ∀ c b, (c, b) ∈ s.carved ↔ (place b).cls = some c
  nonzero : ∀ c b, (c, b) ∈ s.carved → b ≠ 0
  nodup : s.live.Nodup
  live : ∀ b, b ∈ s.live ↔ ∃ c, place b = .live c
  sizes : ∀ b c, place b = .live c → headerClass (s.word b) = some c

theorem inv_start : Inv (fun _ => .unmapped) (start : State Tid) where
  list t c := ⟨[], ⟨rfl, List.nodup_nil, by simp⟩, rfl⟩
  global c := ⟨[], rfl, List.nodup_nil, by simp⟩
  knows t := fun b c => by simp
  carved := by simp [start, Place.cls]
  nonzero := by simp [start]
  nodup := List.nodup_nil
  live := by simp [start]
  sizes := by simp

/-- A step of one thread: what it has to show, given that the others see nothing of it. -/
theorem Inv.build (h : Inv place s) (hsame : ∀ t', t' ≠ t → Same t' place place' s s')
    (hlist : ∀ c, ∃ l, Holds s'.link (s'.heads t c) place' (.cached t c) l ∧
      l.length = s'.counts t c)
    (hknows : (s'.pc t).Knows place' s' t)
    (hglobal : ∀ c, ∃ l, Holds s'.link (s'.head c) place' (.global c) l)
    (hcarved : ∀ c b, (c, b) ∈ s'.carved ↔ (place' b).cls = some c)
    (hnonzero : ∀ c b, (c, b) ∈ s'.carved → b ≠ 0) (hnodup : s'.live.Nodup)
    (hlive : ∀ b, b ∈ s'.live ↔ ∃ c, place' b = .live c)
    (hsizes : ∀ b c, place' b = .live c → headerClass (s'.word b) = some c) : Inv place' s' where
  list := by
    intro t' c
    by_cases ht : t' = t
    · rw [ht]
      exact hlist c
    · have hs := hsame t' ht
      obtain ⟨l, hl, hlen⟩ := h.list t' c
      refine ⟨l, ?_, ?_⟩
      · rw [hs.heads]
        exact hl.keep (fun b hb => link_congr (hs.cached_word b c hb)) fun b => hs.cached b c
      · rw [hs.counts]
        exact hlen
  global := hglobal
  knows := by
    intro t'
    by_cases ht : t' = t
    · rw [ht]
      exact hknows
    · exact (hsame t' ht).knows (h.knows t')
  carved := hcarved
  nonzero := hnonzero
  nodup := hnodup
  live := hlive
  sizes := hsizes

/-- A block in use is not at address zero. -/
theorem Inv.ne_zero (h : Inv place s) (hb : (place b).cls = some c) : b ≠ 0 :=
  h.nonzero c b ((h.carved c b).mpr hb)

/-- The heads of the threads' lists are pointers. -/
theorem Inv.heads_ne_zero (h : Inv place s) : ∀ x, s.heads t c = some x → x ≠ 0 := by
  intro x hx
  obtain ⟨l, hl, -⟩ := h.list t c
  rw [hx] at hl
  exact h.ne_zero (c := c) (by rw [hl.head]; rfl)

theorem Inv.head_ne_zero (h : Inv place s) : ∀ x, s.head c = some x → x ≠ 0 := by
  intro x hx
  obtain ⟨l, hl⟩ := h.global c
  rw [hx] at hl
  exact h.ne_zero (c := c) (by rw [hl.head]; rfl)

theorem not_relies_hand (ht : t' ≠ t) : ¬ Relies s t' (.hand t c) := by
  rintro (⟨c', hc | hc⟩ | ⟨c', -, hc⟩)
  · exact ht (by simpa using hc.symm : t' = t ∧ c' = c).1
  · simp at hc
  · simp at hc

theorem not_relies_cached (ht : t' ≠ t) : ¬ Relies s t' (.cached t c) := by
  rintro (⟨c', hc | hc⟩ | ⟨c', -, hc⟩)
  · simp at hc
  · exact ht (by simpa using hc.symm : t' = t ∧ c' = c).1
  · simp at hc

theorem not_relies_live : ¬ Relies s t' (.live c) := by
  rintro (⟨c', hc | hc⟩ | ⟨c', -, hc⟩) <;> simp at hc

/-- Blocks go from one place to another of the same class. -/
theorem Inv.moves (h : Inv place s) (hbs : ∀ b ∈ bs, place b = q) (hcls : q.cls = p.cls)
    (hold : ∀ t', t' ≠ t → ¬ Relies s t' q)
    (hnew : ∀ t', t' ≠ t → ∀ c, p ≠ .hand t' c ∧ p ≠ .cached t' c)
    (hword : ∀ b, b ∉ bs → s'.word b = s.word b)
    (hrest : ∀ t', t' ≠ t →
      s'.heads t' = s.heads t' ∧ s'.counts t' = s.counts t' ∧ s'.pc t' = s.pc t')
    (hcarved : s'.carved = s.carved)
    (hlist : ∀ c, ∃ l, Holds s'.link (s'.heads t c) (moved place bs p) (.cached t c) l ∧
      l.length = s'.counts t c)
    (hknows : (s'.pc t).Knows (moved place bs p) s' t)
    (hglobal : ∀ c, ∃ l, Holds s'.link (s'.head c) (moved place bs p) (.global c) l)
    (hnodup : s'.live.Nodup) (hlive : ∀ b, b ∈ s'.live ↔ ∃ c, moved place bs p b = .live c)
    (hsizes : ∀ b ∈ bs, ∀ c, p = .live c → headerClass (s'.word b) = some c) :
    Inv (moved place bs p) s' := by
  refine h.build (fun t' ht => ?_) hlist hknows hglobal ?_ ?_ hnodup hlive ?_
  · obtain ⟨hheads, hcounts, hpc⟩ := hrest t' ht
    refine Same.of_moved (fun b hb => ?_) (hnew t' ht) hword hheads hcounts hpc
    rw [hbs b hb]
    exact hold t' ht
  · intro c b
    rw [hcarved, h.carved c b]
    by_cases hb : b ∈ bs
    · rw [moved_of_mem hb, hbs b hb, hcls]
    · rw [moved_of_notMem hb]
  · rw [hcarved]
    exact h.nonzero
  · intro b c hb
    by_cases hin : b ∈ bs
    · rw [moved_of_mem hin] at hb
      exact hsizes b hin c hb
    · rw [moved_of_notMem hin] at hb
      rw [hword b hin]
      exact h.sizes b c hb

/-- The global lists, when blocks move elsewhere. -/
theorem Inv.global_moved (h : Inv place s) (hbs : ∀ b ∈ bs, place b = q)
    (hq : ∀ c, q ≠ .global c) (hp : ∀ c, p ≠ .global c)
    (hword : ∀ b, b ∉ bs → s'.word b = s.word b) (hhead : s'.head = s.head) :
    ∀ c, ∃ l, Holds s'.link (s'.head c) (moved place bs p) (.global c) l := by
  intro c
  obtain ⟨l, hl⟩ := h.global c
  have hnot : ∀ x ∈ bs, place x ≠ .global c := fun x hx hc => hq c ((hbs x hx).symm.trans hc)
  refine ⟨l, ?_⟩
  rw [hhead]
  exact hl.keep (fun b hb => link_congr (hword b fun hin => hnot b hin hb))
    fun b => moved_iff_of_not (hp c) hnot

/-- What the clients have, when blocks move elsewhere. -/
theorem Inv.live_moved (h : Inv place s) (hbs : ∀ b ∈ bs, place b = q)
    (hq : ∀ c, q ≠ .live c) (hp : ∀ c, p ≠ .live c) :
    ∀ b, b ∈ s.live ↔ ∃ c, moved place bs p b = .live c := by
  intro b
  rw [h.live b]
  refine exists_congr fun c => (moved_iff_of_not (hp c) fun x hx hc => ?_).symm
  exact hq c ((hbs x hx).symm.trans hc)

/-- The lists of a thread, when blocks move elsewhere. -/
theorem Inv.list_moved (h : Inv place s) (hbs : ∀ b ∈ bs, place b = q)
    (hq : ∀ c, q ≠ .cached t c) (hp : ∀ c, p ≠ .cached t c)
    (hword : ∀ b, b ∉ bs → s'.word b = s.word b) (hheads : s'.heads t = s.heads t)
    (hcounts : s'.counts t = s.counts t) :
    ∀ c, ∃ l, Holds s'.link (s'.heads t c) (moved place bs p) (.cached t c) l ∧
      l.length = s'.counts t c := by
  intro c
  obtain ⟨l, hl, hlen⟩ := h.list t c
  have hnot : ∀ x ∈ bs, place x ≠ .cached t c := fun x hx hc => hq c ((hbs x hx).symm.trans hc)
  refine ⟨l, ?_, ?_⟩
  · rw [hheads]
    exact hl.keep (fun b hb => link_congr (hword b fun hin => hnot b hin hb))
      fun b => moved_iff_of_not (hp c) hnot
  · rw [hcounts]
    exact hlen

section Step

variable [DecidableEq Tid]

/-- The lists of a thread, when one of them changes and blocks of that class move. -/
theorem Inv.list_set (h : Inv place s) {s₁ : State Tid} {hd : Option Nat} {n : Nat}
    (hbs : ∀ b ∈ bs, place b = q) (hq : ∀ c', c' ≠ c → q ≠ .cached t c')
    (hp : ∀ c', c' ≠ c → p ≠ .cached t c') (hword : ∀ b, b ∉ bs → s₁.word b = s.word b)
    (hheads : s₁.heads = s.heads) (hcounts : s₁.counts = s.counts)
    (hnew : Holds s₁.link hd (moved place bs p) (.cached t c) l) (hlen : l.length = n) :
    ∀ c', ∃ l, Holds s₁.link ((setList s₁ t c hd n).heads t c') (moved place bs p)
      (.cached t c') l ∧ l.length = (setList s₁ t c hd n).counts t c' := by
  intro c'
  by_cases hc : c' = c
  · subst hc
    refine ⟨l, ?_, ?_⟩
    · simpa [setList] using hnew
    · simpa [setList] using hlen
  · obtain ⟨l', hl', hlen'⟩ := h.list t c'
    have hnot : ∀ x ∈ bs, place x ≠ .cached t c' :=
      fun x hx hcc => hq c' hc ((hbs x hx).symm.trans hcc)
    refine ⟨l', ?_, ?_⟩
    · have hkeep : Holds s₁.link (s.heads t c') (moved place bs p) (.cached t c') l' :=
        hl'.keep (fun b hb => link_congr (hword b fun hin => hnot b hin hb))
          fun b => moved_iff_of_not (hp c' hc) hnot
      simpa [setList, hc, hheads] using hkeep
    · simpa [setList, hc, hcounts] using hlen'

/-- Another thread's list, count and place in the program. -/
theorem setList_rest {s₁ : State Tid} {hd : Option Nat} {n : Nat} {pc : Pc}
    (hheads : s₁.heads = s.heads) (hcounts : s₁.counts = s.counts) (hpc : s₁.pc = s.pc) :
    ∀ t', t' ≠ t → (setPc (setList s₁ t c hd n) t pc).heads t' = s.heads t' ∧
      (setPc (setList s₁ t c hd n) t pc).counts t' = s.counts t' ∧
      (setPc (setList s₁ t c hd n) t pc).pc t' = s.pc t' := by
  intro t' ht
  simp [setList, setPc, Function.update_of_ne ht, hheads, hcounts, hpc]

theorem setPc_rest {s₁ : State Tid} {pc : Pc}
    (hheads : s₁.heads = s.heads) (hcounts : s₁.counts = s.counts) (hpc : s₁.pc = s.pc) :
    ∀ t', t' ≠ t → (setPc s₁ t pc).heads t' = s.heads t' ∧
      (setPc s₁ t pc).counts t' = s.counts t' ∧ (setPc s₁ t pc).pc t' = s.pc t' := by
  intro t' ht
  simp [setPc, Function.update_of_ne ht, hheads, hcounts, hpc]

end Step

end Aethalloc.Abi.SimpleExchange
