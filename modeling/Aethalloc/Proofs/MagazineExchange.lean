/-
The exchange of magazines is exact.

`pop_full` reads the link of a node that another thread may have popped in the
meantime, cleared and linked into the empty stack.  The link it then holds is
worthless, and what saves the swap is a fact about the whole protocol: a node
never returns to a full stack.  Every node goes through five stages in one
direction — fresh, being filled by one thread, on the full stack of one class,
taken by one thread, on the empty stack — so a pop whose swap still finds its node
at the head knows that the node has been on the stack ever since it was first
seen there, and that its link is the one it read.

The stages are not in the program; the invariant supplies them.
-/
import Mathlib.Data.List.Nodup
import Aethalloc.Core.MagazineExchange

namespace Aethalloc.MagazineExchange

open Lib

variable {Tid Node : Type}

/-- Where a node is on its way. -/
inductive Stage (Tid : Type)
  | fresh
  | filling (t : Tid)
  | full (c : Nat)
  | taken (t : Tid)
  | empty

/-- What a thread knows at each point of the two protocols. -/
def PcOK (stage : Node → Stage Tid) (s : State Tid Node) (t : Tid) : Pc Node → Prop
  | .idle | .popLoad .. => True
  | .popRead c _ current => (c, current) ∈ s.pushed
  | .popCas c _ current next =>
      (c, current) ∈ s.pushed ∧ (stage current = .full c → s.next current = next)
  | .swap _ _ node => stage node = .taken t ∧ (node, s.magazine node) ∈ s.published
  | .clear _ node | .emptyLoad _ node | .emptyWrite _ node _ | .emptyCas _ node _ =>
      stage node = .taken t
  | .store _ node _ | .clearNext _ node | .fullLoad _ node | .fullWrite _ node _ =>
      stage node = .filling t
  | .fullCas _ node current => stage node = .filling t ∧ s.next node = current

structure Inv (stage : Node → Stage Tid) (s : State Tid Node) : Prop where
  chain : ∀ c, ∃ l, Chain s.next (s.fullHead c) l ∧ l.Nodup ∧ ∀ n, n ∈ l ↔ stage n = .full c
  obtained : ∀ n, n ∈ s.obtained ↔ stage n ≠ .fresh
  pushed : ∀ c n, stage n = .full c →
    (c, n) ∈ s.pushed ∧ (c, n) ∉ s.popped ∧ (n, s.magazine n) ∈ s.published
  pushed_stage : ∀ c n, (c, n) ∈ s.pushed → stage n = .full c ∨ (c, n) ∈ s.popped
  popped_stage : ∀ c n, (c, n) ∈ s.popped → (∃ t, stage n = .taken t) ∨ stage n = .empty
  popped_nodup : (s.popped.map Prod.snd).Nodup
  delivered : ∀ x ∈ s.delivered, x ∈ s.published
  pc : ∀ t, PcOK stage s t (s.pc t)

theorem inv_start : Inv (fun _ => .fresh) (start : State Tid Node) where
  chain := fun c => ⟨[], rfl, List.nodup_nil, by simp⟩
  obtained := by simp [start]
  pushed := by simp
  pushed_stage := by simp [start]
  popped_stage := by simp [start]
  popped_nodup := List.nodup_nil
  delivered := by simp [start]
  pc := fun t => trivial

/-! ### What one thread knows survives what another does -/

variable {stage stage' : Node → Stage Tid} {s s' : State Tid Node} {t : Tid}

/--
A thread's knowledge is kept by any change that leaves its own nodes and their
links and magazines alone, puts no pushed node back on a full stack, and does not
touch the links of the nodes on the full stacks.
-/
theorem PcOK.frame {pc : Pc Node} (h : PcOK stage s t pc)
    (hpushed : ∀ x ∈ s.pushed, x ∈ s'.pushed) (hpub : ∀ x ∈ s.published, x ∈ s'.published)
    (hfill : ∀ n, stage n = .filling t → stage' n = .filling t ∧ s'.next n = s.next n)
    (htaken : ∀ n, stage n = .taken t → stage' n = .taken t ∧ s'.magazine n = s.magazine n)
    (hfull : ∀ c n, (c, n) ∈ s.pushed → stage' n = .full c →
      stage n = .full c ∧ s'.next n = s.next n) : PcOK stage' s' t pc := by
  cases pc with
  | idle => trivial
  | popLoad c mine => trivial
  | popRead c mine current => exact hpushed _ h
  | popCas c mine current next =>
      refine ⟨hpushed _ h.1, fun hc => ?_⟩
      obtain ⟨hstage, hnext⟩ := hfull c current h.1 hc
      rw [hnext]
      exact h.2 hstage
  | swap c mine node =>
      obtain ⟨hst, hmag⟩ := htaken node h.1
      refine ⟨hst, ?_⟩
      rw [hmag]
      exact hpub _ h.2
  | clear c node => exact (htaken node h).1
  | emptyLoad c node => exact (htaken node h).1
  | emptyWrite c node current => exact (htaken node h).1
  | emptyCas c node current => exact (htaken node h).1
  | store c node full => exact (hfill node h).1
  | clearNext c node => exact (hfill node h).1
  | fullLoad c node => exact (hfill node h).1
  | fullWrite c node current => exact (hfill node h).1
  | fullCas c node current =>
      obtain ⟨hst, hnext⟩ := hfill node h.1
      refine ⟨hst, ?_⟩
      rw [hnext]
      exact h.2

/-- A node that was ever pushed is on its full stack or has left it for good. -/
theorem Inv.pushed_cases (h : Inv stage s) {c : Nat} {n : Node} (hp : (c, n) ∈ s.pushed) :
    stage n = .full c ∨ (∃ t, stage n = .taken t) ∨ stage n = .empty := by
  rcases h.pushed_stage c n hp with hst | hpop
  · exact Or.inl hst
  · exact Or.inr (h.popped_stage c n hpop)

/-- The head of a full stack is a node on it. -/
theorem Inv.head_full (h : Inv stage s) {c : Nat} {n : Node} (hn : s.fullHead c = some n) :
    stage n = .full c := by
  obtain ⟨l, hchain, -, hmem⟩ := h.chain c
  rw [hn] at hchain
  obtain ⟨rest, rfl, -⟩ := hchain.exists_cons_of_some
  exact (hmem n).mp (by simp)

/-! ### One step keeps the invariant -/

variable {node : Node}

/-- The node is one the thread is working on. -/
def Own (stage : Node → Stage Tid) (t : Tid) (node : Node) : Prop :=
  stage node = .filling t ∨ stage node = .taken t

theorem Own.ne_full (ho : Own stage t node) {n : Node} {c : Nat} (hn : stage n = .full c) :
    n ≠ node := by
  rintro rfl
  rcases ho with ho | ho <;> rw [hn] at ho <;> simp at ho

/-- No two threads work on one node. -/
theorem Own.ne_of_ne (ho : Own stage t node) {t' : Tid} {n : Node} (ho' : Own stage t' n)
    (ht : t' ≠ t) : n ≠ node := by
  rintro rfl
  rcases ho with ho | ho <;> rcases ho' with ho' | ho' <;> rw [ho] at ho' <;> simp at ho'
  all_goals exact ht ho'.symm

section Step

variable [DecidableEq Tid]

/-- The knowledge of all threads, from that of the one that moved and that of the others. -/
theorem pcOK_update {pcs : Tid → Pc Node} {pc : Pc Node} (hme : PcOK stage s t pc)
    (hother : ∀ t', t' ≠ t → PcOK stage s t' (pcs t')) :
    ∀ t', PcOK stage s t' (Function.update pcs t pc t') := by
  intro t'
  by_cases ht : t' = t
  · rw [ht, Function.update_self]
    exact hme
  · rw [Function.update_of_ne ht]
    exact hother t' ht

/-- A step that only moves the thread on. -/
theorem Inv.move (h : Inv stage s) {pc : Pc Node} (hpc : PcOK stage (setPc s t pc) t pc) :
    Inv stage (setPc s t pc) where
  chain := h.chain
  obtained := h.obtained
  pushed := h.pushed
  pushed_stage := h.pushed_stage
  popped_stage := h.popped_stage
  popped_nodup := h.popped_nodup
  delivered := h.delivered
  pc := pcOK_update hpc fun t' _ => (h.pc t').frame (fun _ hx => hx) (fun _ hx => hx)
    (fun _ hn => ⟨hn, rfl⟩) (fun _ hn => ⟨hn, rfl⟩) fun _ _ _ hn => ⟨hn, rfl⟩

theorem Inv.enter_pop (h : Inv stage s) (c : Nat) (mine : Magazine) :
    Inv stage (popFrom s t c mine (s.fullHead c)) := by
  cases hhead : s.fullHead c with
  | none => exact h.move trivial
  | some current => exact h.move (h.pushed c current (h.head_full hhead)).1

variable [DecidableEq Node]

/-- A thread writes the link of a node it is working on. -/
theorem Inv.write_next (h : Inv stage s) (ho : Own stage t node) {v : Option Node} {pc : Pc Node}
    (hpc : PcOK stage (setPc { s with next := Function.update s.next node v } t pc) t pc) :
    Inv stage (setPc { s with next := Function.update s.next node v } t pc) := by
  refine { h with chain := ?_, pc := pcOK_update hpc fun t' ht => ?_ }
  · intro c
    obtain ⟨l, hchain, hnd, hmem⟩ := h.chain c
    exact ⟨l, hchain.update_of_notMem fun hin => ho.ne_full ((hmem node).mp hin) rfl, hnd, hmem⟩
  · refine (h.pc t').frame (fun _ hx => hx) (fun _ hx => hx) ?_ (fun _ hn => ⟨hn, rfl⟩) ?_
    · exact fun n hn => ⟨hn, Function.update_of_ne (ho.ne_of_ne (Or.inl hn) ht) _ _⟩
    · exact fun c n _ hn => ⟨hn, Function.update_of_ne (ho.ne_full hn) _ _⟩

/-- A thread writes the magazine of a node it is working on. -/
theorem Inv.write_magazine (h : Inv stage s) (ho : Own stage t node) {m : Magazine}
    {delivered : List (Node × Magazine)} (hdel : ∀ x ∈ delivered, x ∈ s.published)
    {pc : Pc Node}
    (hpc : PcOK stage (setPc { s with
      magazine := Function.update s.magazine node m, delivered := delivered } t pc) t pc) :
    Inv stage (setPc { s with
      magazine := Function.update s.magazine node m, delivered := delivered } t pc) := by
  refine { h with
    pushed := ?_
    delivered := hdel
    pc := pcOK_update hpc fun t' ht => ?_ }
  · intro c n hn
    obtain ⟨hp, hnp, hpub⟩ := h.pushed c n hn
    refine ⟨hp, hnp, ?_⟩
    show (n, Function.update s.magazine node m n) ∈ s.published
    rw [Function.update_of_ne (ho.ne_full hn)]
    exact hpub
  · refine (h.pc t').frame (fun _ hx => hx) (fun _ hx => hx) (fun _ hn => ⟨hn, rfl⟩) ?_
      fun _ _ _ hn => ⟨hn, rfl⟩
    exact fun n hn => ⟨hn, Function.update_of_ne (ho.ne_of_ne (Or.inr hn) ht) _ _⟩

omit [DecidableEq Tid] in
/-- A stage that is neither the old nor the new one of the node is held by the same nodes. -/
theorem update_stage {st st' : Stage Tid} {n : Node} (hnew : st' ≠ st) (hold : stage node ≠ st') :
    Function.update stage node st n = st' ↔ stage n = st' := by
  by_cases hn : n = node
  · rw [hn, Function.update_self]
    exact ⟨fun hc => absurd hc.symm hnew, fun hc => absurd hc hold⟩
  · rw [Function.update_of_ne hn]

omit [DecidableEq Tid] in
/-- A node on its way stays one that was given out. -/
theorem Inv.obtained_update (h : Inv stage s) {st : Stage Tid} (hold : stage node ≠ .fresh)
    (hnew : st ≠ .fresh) : ∀ n, n ∈ s.obtained ↔ Function.update stage node st n ≠ .fresh := by
  intro n
  by_cases hn : n = node
  · rw [hn, Function.update_self, h.obtained node]
    exact iff_of_true hold hnew
  · rw [h.obtained n, Function.update_of_ne hn]

omit [DecidableEq Tid] [DecidableEq Node] in
theorem Inv.not_popped (h : Inv stage s) (htaken : ∀ t, stage node ≠ .taken t)
    (hempty : stage node ≠ .empty) (c : Nat) : (c, node) ∉ s.popped := by
  intro hp
  rcases h.popped_stage c node hp with ⟨t, hn⟩ | hn
  · exact htaken t hn
  · exact hempty hn

omit [DecidableEq Tid] in
/-- Nodes that were popped do not notice what happens to one that was not. -/
theorem Inv.popped_update (h : Inv stage s) {st : Stage Tid} (hnot : ∀ c, (c, node) ∉ s.popped)
    {c : Nat} {n : Node} (hp : (c, n) ∈ s.popped) :
    (∃ t, Function.update stage node st n = .taken t) ∨
      Function.update stage node st n = .empty := by
  have hne : n ≠ node := fun hc => hnot c (hc ▸ hp)
  rw [Function.update_of_ne hne]
  exact h.popped_stage c n hp

omit [DecidableEq Tid] in
/-- The full stacks with a node, linked to the old head, in front of one of them. -/
theorem Inv.chain_push (h : Inv stage s) {c : Nat} (hstage : ∀ c', stage node ≠ .full c')
    (hlink : s.next node = s.fullHead c) : ∀ c', ∃ l,
      Chain s.next (Function.update s.fullHead c (some node) c') l ∧ l.Nodup ∧
        ∀ n, n ∈ l ↔ Function.update stage node (.full c) n = .full c' := by
  intro c'
  obtain ⟨l, hchain, hnd, hmem⟩ := h.chain c'
  have hnl : node ∉ l := fun hin => hstage c' ((hmem node).mp hin)
  by_cases hc : c' = c
  · subst hc
    refine ⟨node :: l, ?_, List.nodup_cons.mpr ⟨hnl, hnd⟩, fun n => ?_⟩
    · rw [Function.update_self]
      refine ⟨rfl, ?_⟩
      rw [hlink]
      exact hchain
    · by_cases hn : n = node
      · simp [hn]
      · rw [Function.update_of_ne hn, ← hmem n]
        simp [hn]
  · refine ⟨l, ?_, hnd, fun n => ?_⟩
    · rw [Function.update_of_ne hc]
      exact hchain
    · rw [hmem n, update_stage (by simpa using hc) (hstage c')]

omit [DecidableEq Tid] in
/-- The full stacks without the first node of one of them. -/
theorem Inv.chain_pop (h : Inv stage s) {c : Nat} {st : Stage Tid} (hst : ∀ c', st ≠ .full c')
    (hhead : s.fullHead c = some node) : ∀ c', ∃ l,
      Chain s.next (Function.update s.fullHead c (s.next node) c') l ∧ l.Nodup ∧
        ∀ n, n ∈ l ↔ Function.update stage node st n = .full c' := by
  intro c'
  obtain ⟨l, hchain, hnd, hmem⟩ := h.chain c'
  by_cases hc : c' = c
  · subst hc
    rw [hhead] at hchain
    obtain ⟨rest, rfl, hrest⟩ := hchain.exists_cons_of_some
    obtain ⟨hnr, hndr⟩ := List.nodup_cons.mp hnd
    refine ⟨rest, ?_, hndr, fun n => ?_⟩
    · rw [Function.update_self]
      exact hrest
    · by_cases hn : n = node
      · subst hn
        rw [Function.update_self]
        exact iff_of_false hnr (hst c')
      · rw [Function.update_of_ne hn, ← hmem n]
        simp [hn]
  · refine ⟨l, ?_, hnd, fun n => ?_⟩
    · rw [Function.update_of_ne hc]
      exact hchain
    · have hcc : stage node ≠ .full c' := by
        rw [h.head_full hhead]
        simpa using fun h' => hc h'.symm
      rw [hmem n, update_stage (hst c').symm hcc]

/-- The node was never given out: it starts its way in the hands of the thread. -/
theorem Inv.obtain_node (h : Inv stage s) (hnew : node ∉ s.obtained) {c : Nat}
    {full : Magazine} :
    Inv (Function.update stage node (.filling t))
      (setPc { s with obtained := node :: s.obtained } t (.store c node full)) := by
  have hfresh : stage node = .fresh := by
    by_contra hc
    exact hnew ((h.obtained node).mpr hc)
  have hfull : ∀ n c, Function.update stage node (.filling t) n = .full c ↔ stage n = .full c :=
    fun n c => update_stage (by simp) (by simp [hfresh])
  refine {
    chain := ?_
    obtained := ?_
    pushed := fun c n hn => h.pushed c n ((hfull n c).mp hn)
    pushed_stage := fun c n hp => (h.pushed_stage c n hp).imp_left (hfull n c).mpr
    popped_stage := ?_
    popped_nodup := h.popped_nodup
    delivered := h.delivered
    pc := pcOK_update (Function.update_self (β := fun _ => Stage Tid) ..) fun t' ht => ?_ }
  · intro c
    obtain ⟨l, hchain, hnd, hmem⟩ := h.chain c
    exact ⟨l, hchain, hnd, fun n => (hmem n).trans (hfull n c).symm⟩
  · intro n
    show n ∈ node :: s.obtained ↔ Function.update stage node (.filling t) n ≠ .fresh
    by_cases hn : n = node
    · simp [hn]
    · simp [hn, h.obtained n]
  · exact fun c n => h.popped_update (h.not_popped (by simp [hfresh]) (by simp [hfresh]))
  · refine (h.pc t').frame (fun _ hx => hx) (fun _ hx => hx) (fun n hn => ⟨?_, rfl⟩)
      (fun n hn => ⟨?_, rfl⟩) fun c n _ hn => ⟨(hfull n c).mp hn, rfl⟩
    · exact (update_stage (by simpa using ht) (by simp [hfresh])).mpr hn
    · exact (update_stage (by simp) (by simp [hfresh])).mpr hn

/-- The swap of `push_full` succeeds: the node is now the head of its full stack. -/
theorem Inv.push_full (h : Inv stage s) {c : Nat} {current : Option Node}
    (hfill : stage node = .filling t) (hlink : s.next node = current)
    (hhead : s.fullHead c = current) :
    Inv (Function.update stage node (.full c)) (setPc { s with
      fullHead := Function.update s.fullHead c (some node)
      pushed := s.pushed ++ [(c, node)]
      published := s.published ++ [(node, s.magazine node)] } t .idle) := by
  -- a node still being filled was never pushed
  have hnot : ∀ c', (c', node) ∉ s.pushed := by
    intro c' hp
    rcases h.pushed_cases hp with hn | ⟨t', hn⟩ | hn <;> rw [hfill] at hn <;> simp at hn
  have hnpop : ∀ c', (c', node) ∉ s.popped := h.not_popped (by simp [hfill]) (by simp [hfill])
  refine {
    chain := h.chain_push (by simp [hfill]) (hlink.trans hhead.symm)
    obtained := h.obtained_update (by simp [hfill]) (by simp)
    pushed := ?_
    pushed_stage := ?_
    popped_stage := fun c' n => h.popped_update hnpop
    popped_nodup := h.popped_nodup
    delivered := fun x hx => List.mem_append_left _ (h.delivered x hx)
    pc := pcOK_update trivial fun t' ht => ?_ }
  · intro c' n hn
    show (c', n) ∈ s.pushed ++ [(c, node)] ∧ (c', n) ∉ s.popped ∧
      (n, s.magazine n) ∈ s.published ++ [(node, s.magazine node)]
    by_cases hnn : n = node
    · subst hnn
      obtain rfl : c = c' := by simpa using hn
      exact ⟨by simp, hnpop c, by simp⟩
    · rw [Function.update_of_ne hnn] at hn
      obtain ⟨hp, hnp, hpub⟩ := h.pushed c' n hn
      exact ⟨List.mem_append_left _ hp, hnp, List.mem_append_left _ hpub⟩
  · intro c' n hp
    rcases List.mem_append.mp hp with hp | hp
    · have hnn : n ≠ node := fun hc => hnot c' (hc ▸ hp)
      rw [Function.update_of_ne hnn]
      exact h.pushed_stage c' n hp
    · obtain ⟨rfl, rfl⟩ : c' = c ∧ n = node := by simpa using hp
      exact Or.inl (Function.update_self ..)
  · refine (h.pc t').frame (fun _ hx => List.mem_append_left _ hx)
      (fun _ hx => List.mem_append_left _ hx) (fun n hn => ⟨?_, rfl⟩) (fun n hn => ⟨?_, rfl⟩)
      fun c' n hp hn => ⟨?_, rfl⟩
    · have hne : stage node ≠ .filling t' := by
        rw [hfill]
        simpa using fun hc => ht hc.symm
      exact (update_stage (by simp) hne).mpr hn
    · exact (update_stage (by simp) (by simp [hfill])).mpr hn
    · have hnn : n ≠ node := fun hc => hnot c' (hc ▸ hp)
      rwa [Function.update_of_ne hnn] at hn

/-- The swap of `pop_full` succeeds: the first node of the stack is now the thread's. -/
theorem Inv.pop_full (h : Inv stage s) {c : Nat} {mine : Magazine} {next : Option Node}
    (hlink : stage node = .full c → s.next node = next) (hhead : s.fullHead c = some node) :
    Inv (Function.update stage node (.taken t)) (setPc { s with
      fullHead := Function.update s.fullHead c next
      popped := s.popped ++ [(c, node)] } t (.swap c mine node)) := by
  have hfull : stage node = .full c := h.head_full hhead
  obtain ⟨-, -, hpub⟩ := h.pushed c node hfull
  have hnpop : ∀ c', (c', node) ∉ s.popped := h.not_popped (by simp [hfull]) (by simp [hfull])
  -- the others that are on a full stack now were there before
  have hstays : ∀ n c', Function.update stage node (.taken t) n = .full c' →
      n ≠ node ∧ stage n = .full c' := by
    intro n c' hn
    by_cases hnn : n = node
    · rw [hnn, Function.update_self] at hn
      cases hn
    · rw [Function.update_of_ne hnn] at hn
      exact ⟨hnn, hn⟩
  refine {
    chain := hlink hfull ▸ h.chain_pop (by simp) hhead
    obtained := h.obtained_update (by simp [hfull]) (by simp)
    pushed := ?_
    pushed_stage := ?_
    popped_stage := ?_
    popped_nodup := ?_
    delivered := h.delivered
    pc := pcOK_update ⟨Function.update_self (β := fun _ => Stage Tid) .., hpub⟩ fun t' ht => ?_ }
  · intro c' n hn
    obtain ⟨hnn, hn⟩ := hstays n c' hn
    obtain ⟨hp, hnp, hpb⟩ := h.pushed c' n hn
    refine ⟨hp, fun hc => ?_, hpb⟩
    rcases List.mem_append.mp hc with hc | hc
    · exact hnp hc
    · exact hnn (congrArg Prod.snd (List.mem_singleton.mp hc))
  · intro c' n hp
    by_cases hnn : n = node
    · subst hnn
      rcases h.pushed_stage c' n hp with hn | hn
      · obtain rfl : c = c' := by simpa [hfull] using hn
        exact Or.inr (List.mem_append_right _ (List.mem_singleton_self _))
      · exact absurd hn (hnpop c')
    · rw [Function.update_of_ne hnn]
      exact (h.pushed_stage c' n hp).imp_right (List.mem_append_left _)
  · intro c' n hp
    rcases List.mem_append.mp hp with hp | hp
    · exact h.popped_update hnpop hp
    · obtain rfl : n = node := congrArg Prod.snd (List.mem_singleton.mp hp)
      exact Or.inl ⟨t, Function.update_self ..⟩
  · show ((s.popped ++ [(c, node)]).map Prod.snd).Nodup
    rw [List.map_append]
    refine List.nodup_append.mpr ⟨h.popped_nodup, List.nodup_singleton _, ?_⟩
    intro a ha b hb hab
    obtain ⟨⟨c', n⟩, hmem, rfl⟩ := List.mem_map.mp ha
    obtain rfl : b = node := by simpa using hb
    obtain rfl : n = b := hab
    exact hnpop c' hmem
  · refine (h.pc t').frame (fun _ hx => hx) (fun _ hx => hx) (fun n hn => ⟨?_, rfl⟩)
      (fun n hn => ⟨?_, rfl⟩) fun c' n _ hn => ⟨(hstays n c' hn).2, rfl⟩
    · exact (update_stage (by simp) (by simp [hfull])).mpr hn
    · exact (update_stage (by simpa using ht) (by simp [hfull])).mpr hn

/-- The swap of `push_empty` succeeds: the node has reached the end of its way. -/
theorem Inv.push_empty (h : Inv stage s) {c : Nat} (htaken : stage node = .taken t) :
    Inv (Function.update stage node .empty) (setPc { s with
      emptyHead := Function.update s.emptyHead c (some node) } t .idle) := by
  have hfull : ∀ n c, Function.update stage node .empty n = .full c ↔ stage n = .full c :=
    fun n c => update_stage (by simp) (by simp [htaken])
  refine {
    chain := ?_
    obtained := h.obtained_update (by simp [htaken]) (by simp)
    pushed := fun c n hn => h.pushed c n ((hfull n c).mp hn)
    pushed_stage := fun c n hp => (h.pushed_stage c n hp).imp_left (hfull n c).mpr
    popped_stage := ?_
    popped_nodup := h.popped_nodup
    delivered := h.delivered
    pc := pcOK_update trivial fun t' ht => ?_ }
  · intro c
    obtain ⟨l, hchain, hnd, hmem⟩ := h.chain c
    exact ⟨l, hchain, hnd, fun n => (hmem n).trans (hfull n c).symm⟩
  · intro c n hp
    by_cases hn : n = node
    · exact Or.inr (by rw [hn, Function.update_self])
    · rw [Function.update_of_ne hn]
      exact h.popped_stage c n hp
  · refine (h.pc t').frame (fun _ hx => hx) (fun _ hx => hx) (fun n hn => ⟨?_, rfl⟩)
      (fun n hn => ⟨?_, rfl⟩) fun c n _ hn => ⟨(hfull n c).mp hn, rfl⟩
    · exact (update_stage (by simp) (by simp [htaken])).mpr hn
    · have hne : stage node ≠ .taken t' := by
        rw [htaken]
        simpa using fun hc => ht hc.symm
      exact (update_stage (by simp) hne).mpr hn

omit [DecidableEq Node] in
theorem stepIdle_inv (h : Inv stage s) {c : Nat} {mine : Magazine}
    (hs : stepIdle s t (.popLoad c mine) = some s') : Inv stage s' := by
  unfold stepIdle at hs
  split at hs
  · obtain rfl := Option.some.inj hs
    exact h.move trivial
  · simp at hs

theorem stepMove_inv (h : Inv stage s) (hs : stepMove s t = some s') : Inv stage s' := by
  have hpc := h.pc t
  unfold stepMove at hs
  cases hat : s.pc t <;> simp only [hat] at hs hpc
  case popLoad c mine =>
    obtain rfl := Option.some.inj hs
    exact h.enter_pop c mine
  case popRead c mine current =>
    obtain rfl := Option.some.inj hs
    exact h.move ⟨hpc, fun _ => rfl⟩
  case swap c mine node =>
    obtain rfl := Option.some.inj hs
    refine h.write_magazine (Or.inr hpc.1) (fun x hx => ?_) hpc.1
    rcases List.mem_append.mp hx with hx | hx
    · exact h.delivered x hx
    · rw [List.mem_singleton.mp hx]
      exact hpc.2
  case clear c node =>
    obtain rfl := Option.some.inj hs
    exact h.write_magazine (Or.inr hpc) h.delivered hpc
  case emptyLoad c node =>
    obtain rfl := Option.some.inj hs
    exact h.move hpc
  case emptyWrite c node current =>
    obtain rfl := Option.some.inj hs
    exact h.write_next (Or.inr hpc) hpc
  case store c node full =>
    obtain rfl := Option.some.inj hs
    exact h.write_magazine (Or.inl hpc) h.delivered hpc
  case clearNext c node =>
    obtain rfl := Option.some.inj hs
    exact h.write_next (Or.inl hpc) hpc
  case fullLoad c node =>
    obtain rfl := Option.some.inj hs
    exact h.move hpc
  case fullWrite c node current =>
    obtain rfl := Option.some.inj hs
    exact h.write_next (Or.inl hpc) ⟨hpc, Function.update_self (β := fun _ => Option Node) ..⟩
  all_goals simp at hs

theorem stepCas_inv {spurious : Bool} (h : Inv stage s)
    (hs : stepCas s t spurious = some s') : ∃ stage', Inv stage' s' := by
  have hpc := h.pc t
  unfold stepCas at hs
  cases hat : s.pc t <;> simp only [hat] at hs hpc
  case popCas c mine current next =>
    split at hs
    · rename_i hok
      obtain rfl := Option.some.inj hs
      exact ⟨_, h.pop_full hpc.2 hok.1⟩
    · obtain rfl := Option.some.inj hs
      exact ⟨stage, h.enter_pop c mine⟩
  case emptyCas c node current =>
    split at hs
    · obtain rfl := Option.some.inj hs
      exact ⟨_, h.push_empty hpc⟩
    · obtain rfl := Option.some.inj hs
      exact ⟨stage, h.move hpc⟩
  case fullCas c node current =>
    split at hs
    · rename_i hok
      obtain rfl := Option.some.inj hs
      exact ⟨_, h.push_full hpc.1 hpc.2 hok.1⟩
    · obtain rfl := Option.some.inj hs
      exact ⟨stage, h.move hpc.1⟩
  all_goals simp at hs

/-- The stages exist in every state any interleaving reaches. -/
theorem reaches_inv (hs : (machine Tid Node).Reaches s) : ∃ stage, Inv stage s := by
  refine Machine.Reaches.invariant (P := fun s => ∃ stage, Inv stage s) ⟨_, inv_start⟩ ?_ hs
  rintro s l s' ⟨stage, h⟩ hstep
  cases l with
  | alloc t c mine => exact ⟨stage, stepIdle_inv h hstep⟩
  | dealloc t c full node =>
      simp only [machine, step] at hstep
      split at hstep
      · simp at hstep
      · rename_i hnew
        unfold stepIdle at hstep
        split at hstep
        · obtain rfl := Option.some.inj hstep
          exact ⟨_, h.obtain_node hnew⟩
        · simp at hstep
  | move t => exact ⟨stage, stepMove_inv h hstep⟩
  | cas t spurious => exact stepCas_inv h hstep

/--
**The exchange of magazines is exact under every interleaving.**  No node is
obtained by two pops, and at every moment the nodes reachable from the head of a
class's full stack are, without repetition, the nodes whose push on that stack
succeeded minus those whose pop succeeded.
-/
theorem exchange_exact (hs : (machine Tid Node).Reaches s) :
    (s.popped.map Prod.snd).Nodup ∧
    ∀ c, ∃ l, Chain s.next (s.fullHead c) l ∧ l.Nodup ∧
      ∀ n, n ∈ l ↔ (c, n) ∈ s.pushed ∧ (c, n) ∉ s.popped := by
  obtain ⟨stage, h⟩ := reaches_inv hs
  refine ⟨h.popped_nodup, fun c => ?_⟩
  obtain ⟨l, hchain, hnd, hmem⟩ := h.chain c
  refine ⟨l, hchain, hnd, fun n => ?_⟩
  rw [hmem n]
  constructor
  · intro hn
    exact ⟨(h.pushed c n hn).1, (h.pushed c n hn).2.1⟩
  · rintro ⟨hp, hnp⟩
    exact (h.pushed_stage c n hp).resolve_right hnp

/-- What a pop delivers is the magazine that was published in that node. -/
theorem delivered_published (hs : (machine Tid Node).Reaches s) :
    ∀ x ∈ s.delivered, x ∈ s.published := by
  obtain ⟨stage, h⟩ := reaches_inv hs
  exact h.delivered

end Step

/-! ### A run of three threads -/

/-- A full magazine, all of one block. -/
def filled (block : Nat) : Magazine where
  blocks := Vector.replicate MAGAZINE_CAPACITY block
  count := MAGAZINE_CAPACITY

/-- Threads 0 and 1 publish at the same time, and one of them has to try again.  While thread 0 is
about to pop node 8, node 9 comes on the stack and thread 1 takes it, so 8 is on top once more. -/
def threeNodes : List (Label Nat Nat) :=
  [.dealloc 0 3 (filled 16) 7, .dealloc 1 3 (filled 32) 8, .move 0, .move 1, .move 0, .move 1,
    .move 0, .move 1, .move 0, .move 1, .cas 0 false, .cas 1 false, .move 1, .cas 1 true,
    .move 1, .cas 1 false,
    .alloc 0 3 Magazine.new, .move 0, .move 0,
    .dealloc 2 3 (filled 48) 9, .move 2, .move 2, .move 2, .move 2, .cas 2 false,
    .alloc 1 3 Magazine.new, .move 1, .move 1, .cas 1 false, .cas 0 false,
    .move 0, .move 1, .move 0, .move 1, .move 0, .move 1, .move 0, .move 1, .cas 1 false,
    .cas 0 false, .move 0, .cas 0 false]

/-- Of the three nodes two are delivered with their magazines, and the first one is on the stack. -/
theorem exchange_exact_threeNodes :
    ∃ s, (machine Nat Nat).exec start threeNodes = some s ∧
      s.pushed = [(3, 7), (3, 8), (3, 9)] ∧ s.popped = [(3, 9), (3, 8)] ∧
      s.delivered = [(8, filled 32), (9, filled 48)] ∧ (s.popped.map Prod.snd).Nodup ∧
      Chain s.next (s.fullHead 3) [7] ∧
      ∀ n, n ∈ [7] ↔ (3, n) ∈ s.pushed ∧ (3, n) ∉ s.popped := by
  have hrun : ((machine Nat Nat).exec start threeNodes).map (fun s =>
      (s.pushed, s.popped, s.fullHead 3, s.next 7))
      = some ([(3, 7), (3, 8), (3, 9)], [(3, 9), (3, 8)], some 7, none) := by decide +kernel
  have hout : ((machine Nat Nat).exec start threeNodes).map State.delivered
      = some [(8, filled 32), (9, filled 48)] := by decide +kernel
  obtain ⟨s, hs, hvals⟩ := Option.map_eq_some_iff.mp hrun
  rw [hs, Option.map_some, Option.some.injEq] at hout
  simp only [Prod.mk.injEq] at hvals
  obtain ⟨hpushed, hpopped, hhead, hnext⟩ := hvals
  obtain ⟨hnodup, hstacks⟩ := exchange_exact ⟨threeNodes, hs⟩
  obtain ⟨l, hchain, -, hmem⟩ := hstacks 3
  obtain rfl : l = [7] := hchain.unique ⟨hhead, hnext⟩
  exact ⟨s, hs, hpushed, hpopped, hout, hnodup, hchain, hmem⟩

end Aethalloc.MagazineExchange
