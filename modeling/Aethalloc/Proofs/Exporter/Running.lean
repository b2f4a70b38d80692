/-
Scrapes of a running program.

The five loads of a snapshot are not one: the counters a scrape shows may never have
stood side by side.  But a global counter only grows, as long as fewer than `2 ^ 64`
events have been counted with it, so each value lies between what the counter was
when the request was read and what it was when the reply was written.  Requests are
answered one after the other, so of two scrapes the later one shows no less.

That a global counter grows needs that no `fetch_add` wraps around.  What a thread
adds is what it has counted and not added yet, and all of that together with the
global counter is at most the number of events.
-/
import Mathlib.Algebra.Order.BigOperators.Group.Finset
import Aethalloc.Exporter.Running
import Aethalloc.Proofs.Abi.Metrics
import Aethalloc.Proofs.Exporter

namespace Aethalloc.Exporter

open Lib Abi

/-! ### Global counters grow -/

namespace Growing

variable {n : Nat} {w w' : Metrics.World} {l : Metrics.Label} {c : Counter}

/-- What a step does to one counter: the other threads' parts stay, nothing but events adds to the
account, and the global part does not shrink unless it wraps around. -/
structure Moves (w w' : Metrics.World) (l : Metrics.Label) (c : Counter) : Prop where
  others : ∀ t ≠ l.thread, Metrics.due w' t c = Metrics.due w t c
  account : w'.heap.globalMetrics.get c + Metrics.due w' l.thread c
    ≤ w.heap.globalMetrics.get c + Metrics.due w l.thread c + (Metrics.happened w.heap l).count c
  grows : w.heap.globalMetrics.get c + Metrics.due w l.thread c < 2 ^ 64 →
    w.heap.globalMetrics.get c ≤ w'.heap.globalMetrics.get c

theorem moves_of_acted (h : Metrics.Inv n w) (hact : Metrics.Acted w l w') (c : Counter) :
    Moves w w' l c := by
  cases hact with
  | call hidle hcounts hflushing =>
      have hglobal : w'.heap.globalMetrics.get c = w.heap.globalMetrics.get c := by
        rw [hcounts.global]
      have hdue : Metrics.due w' l.thread c = (w'.heap.localMetrics l.thread).get c := by
        rcases hflushing with heq | ⟨rest, heq⟩
        · apply Metrics.due_of_idle
          rw [heq]
          exact hidle
        · have hflush : w'.flushing l.thread = some ⟨Counter.all, rest⟩ := by
            rw [heq, Function.update_self]
          rw [Metrics.due_of_flush hflush]
          exact if_pos (Metrics.mem_all c)
      refine ⟨fun t hne => ?_, ?_, fun _ => Nat.le_of_eq hglobal.symm⟩
      · apply Metrics.due_congr
        · rcases hflushing with heq | ⟨rest, heq⟩
          · rw [heq]
          · rw [heq, Function.update_of_ne hne]
        · rw [hcounts.locals t c, if_neg hne, counted_zero]
      · have hlocal := hcounts.locals l.thread c
        rw [if_pos rfl] at hlocal
        have hle := counted_le ((w.heap.localMetrics l.thread).get c)
          ((Metrics.happened w.heap l).count c)
        rw [hglobal, hdue, hlocal, Metrics.due_of_idle hidle]
        omega
  | @added c₀ left rest hflush hnone hlocal hglobal hflushing =>
      have hnot : c₀ ∉ left := (List.nodup_cons.mp (h.once _ _ hflush)).1
      have hnew : w'.flushing l.thread = some ⟨left, rest⟩ := by
        rw [hflushing, Function.update_self]
      have hothers : ∀ t ≠ l.thread, Metrics.due w' t c = Metrics.due w t c := by
        intro t hne
        apply Metrics.due_congr
        · rw [hflushing, Function.update_of_ne hne]
        · rw [hlocal]
      by_cases hc : c = c₀
      · -- the counter that is added to: its part moves from the thread to the global counter
        subst hc
        have hbefore : Metrics.due w l.thread c = (w.heap.localMetrics l.thread).get c := by
          rw [Metrics.due_of_flush hflush]
          exact if_pos List.mem_cons_self
        have hafter : Metrics.due w' l.thread c = 0 := by
          rw [Metrics.due_of_flush hnew]
          exact if_neg hnot
        have hadded : w'.heap.globalMetrics.get c
            = (w.heap.globalMetrics.get c + Metrics.due w l.thread c) % 2 ^ 64 := by
          rw [hglobal, Metrics.fetchAdd_get_self, hbefore]
        have hle := Nat.mod_le (w.heap.globalMetrics.get c + Metrics.due w l.thread c) (2 ^ 64)
        refine ⟨hothers, ?_, fun hsmall => ?_⟩
        · rw [hadded, hafter]
          omega
        · rw [hadded, Nat.mod_eq_of_lt hsmall]
          omega
      · have hsame : w'.heap.globalMetrics.get c = w.heap.globalMetrics.get c := by
          rw [hglobal, Metrics.fetchAdd_get_of_ne hc]
        have hdue : Metrics.due w' l.thread c = Metrics.due w l.thread c := by
          rw [Metrics.due_of_flush hnew, Metrics.due_of_flush hflush, hlocal]
          simp only [List.mem_cons, hc, false_or]
        refine ⟨hothers, ?_, fun _ => Nat.le_of_eq hsame.symm⟩
        rw [hsame, hdue]
        omega
  | @ended rest hflush hnone hlocal hglobal hflushing =>
      have hsame : w'.heap.globalMetrics.get c = w.heap.globalMetrics.get c := by rw [hglobal]
      have hidle : w'.flushing l.thread = none := by rw [hflushing, Function.update_self]
      have hafter : Metrics.due w' l.thread c = 0 := by
        rw [Metrics.due_of_idle hidle, hlocal, Function.update_self, Metrics.new_get]
      refine ⟨fun t hne => ?_, ?_, fun _ => Nat.le_of_eq hsame.symm⟩
      · apply Metrics.due_congr
        · rw [hflushing, Function.update_of_ne hne]
        · rw [hlocal, Function.update_of_ne hne]
      · rw [hsame, hafter]
        omega

/-- The parts of the threads and the global counter are at most the events. -/
structure Covered (n : Nat) (w : Metrics.World) : Prop where
  inv : Metrics.Inv n w
  covered : ∀ c, Metrics.accounted n w c ≤ w.events c

theorem Covered.init {mem : Mem} {foreign : Nat → Bool} :
    Covered n (Metrics.machine n mem foreign).init where
  inv := Metrics.Inv.init
  covered c := by
    have hglobal : (Metrics.machine n mem foreign).init.heap.globalMetrics.get c = 0 := by
      cases c <;> rfl
    unfold Metrics.accounted
    rw [hglobal, Nat.zero_add]
    apply Nat.le_of_eq
    exact Finset.sum_eq_zero fun t _ => Metrics.new_get c

/-- One thread's part and the global counter are part of the account. -/
theorem Covered.part_le (h : Covered n w) {t : Nat} (ht : t < n) (c : Counter) :
    w.heap.globalMetrics.get c + Metrics.due w t c ≤ w.events c := by
  have hle : Metrics.due w t c ≤ ∑ t ∈ Finset.range n, Metrics.due w t c :=
    Finset.single_le_sum (f := fun t => Metrics.due w t c) (fun _ _ => Nat.zero_le _)
      (Finset.mem_range.mpr ht)
  have := h.covered c
  unfold Metrics.accounted at this
  omega

theorem Covered.global_le (h : Covered n w) (c : Counter) :
    w.heap.globalMetrics.get c ≤ w.events c :=
  (Nat.le_add_right _ _).trans (h.covered c)

/-- A step keeps it, and the global counters grow. -/
theorem Covered.step (h : Covered n w) (hstep : Metrics.step n w l = some w') :
    Covered n w' ∧ ∀ c, w.events c ≤ w'.events c ∧
      (w.events c < 2 ^ 64 → w.heap.globalMetrics.get c ≤ w'.heap.globalMetrics.get c) := by
  have hinv' := h.inv.step hstep
  obtain ⟨ht, hsome⟩ := Option.ite_none_right_eq_some.mp hstep
  obtain ⟨w₁, hact, rfl⟩ := Option.map_eq_some_iff.mp hsome
  have hmoves := fun c => moves_of_acted h.inv (Metrics.act_cases hact) c
  refine ⟨⟨hinv', fun c => ?_⟩, fun c => ⟨Nat.le_add_right _ _, fun hsmall => ?_⟩⟩
  · have hsum := Metrics.sum_due ht c (hmoves c).others
    have haccount := (hmoves c).account
    have hcovered := h.covered c
    change Metrics.accounted n w₁ c ≤ w.events c + (Metrics.happened w.heap l).count c
    unfold Metrics.accounted at *
    omega
  · apply (hmoves c).grows
    have := h.part_le ht c
    omega

end Growing

/-! ### What replies show -/

namespace Running

variable {n : Nat} {mem : Mem} {foreign : Nat → Bool} {percent : Nat → Nat → Text} {loaded : Bool}
  {w w' : World} {l : Label} {c : Counter}

/-- A client that gets the reply reads the snapshot from it. -/
def Shows (reply : List UInt8) (s : MetricsSnapshot) : Prop :=
  ∃ r, (∀ next, readResponse (reply ++ next) = some (r, next)) ∧ r.code = 200 ∧
    counters r.body = some s

theorem Shows.unique {reply : List UInt8} {s s' : MetricsSnapshot} (h : Shows reply s)
    (h' : Shows reply s') : s = s' := by
  obtain ⟨r, hread, -, hs⟩ := h
  obtain ⟨r', hread', -, hs'⟩ := h'
  have hsame : some (r, []) = some (r', []) := (hread []).symm.trans (hread' [])
  obtain ⟨rfl, -⟩ := Prod.mk.inj (Option.some.inj hsame)
  rw [hs] at hs'
  exact Option.some.inj hs'

/-- The reply to a request for the metrics shows the snapshot that was loaded. -/
theorem shows_reply (hpercent : ∀ hits total, '\n' ∉ percent hits total) {bytes : Received}
    (hpath : bytes.path = "/metrics".toList) {s : MetricsSnapshot} {reply : List UInt8}
    (hreply : Library.handleClient percent (some bytes) (some s) = some reply) :
    Shows reply s := by
  obtain ⟨reply', r, hreply', hread, hanswers⟩ := respond_answers hpercent
    (by decide : Named "aethalloc_cache_hit_rate".toList) (by decide +kernel) s bytes
  obtain rfl : reply' = reply := Option.some.inj (hreply'.symm.trans hreply)
  obtain ⟨hcode, hcounters, -⟩ := hanswers.metrics hpath
  exact ⟨r, hread, hcode, hcounters⟩

theorem get_ofLoads (got : Counter → Nat) (c : Counter) :
    (MetricsSnapshot.ofLoads got).get c = got c := by
  cases c <;> rfl

/-! ### The invariant -/

/-- The counter has not been through all its values. -/
def Small (w : World) (c : Counter) : Prop := w.program.events c < 2 ^ 64

structure Inv (n : Nat) (w : World) : Prop where
  covered : Growing.Covered n w.program
  shown : ∀ e ∈ w.scrapes, ∃ s, Shows e.reply s ∧ ∀ c, Small w c →
    e.asked.get c ≤ s.get c ∧ s.get c ≤ e.answered.get c ∧ e.answered.get c ≤ w.global.get c
  order : ∀ c, Small w c →
    w.scrapes.Pairwise fun e e' => e.answered.get c ≤ e'.asked.get c
  /-- What has been loaded lies between the request and now. -/
  loading : ∀ bytes left got asked, w.server = .loading bytes left got asked →
    bytes.path = "/metrics".toList ∧ ∀ c, Small w c →
      asked.get c ≤ w.global.get c ∧
      (c ∉ left → asked.get c ≤ got c ∧ got c ≤ w.global.get c) ∧
      ∀ e ∈ w.scrapes, e.answered.get c ≤ asked.get c

theorem Inv.init : Inv n (machine n mem foreign percent loaded).init where
  covered := Growing.Covered.init
  shown e he := by cases he
  order c _ := List.Pairwise.nil
  loading bytes left got asked h := by cases h

/-- The program's threads only make the counters larger. -/
theorem Inv.work (h : Inv n w) {l : Metrics.Label} {program : Metrics.World}
    (hstep : Metrics.step n w.program l = some program) :
    Inv n { w with program := program } := by
  obtain ⟨hcovered, hgrow⟩ := h.covered.step hstep
  have hsmall : ∀ c, Small { w with program := program } c → Small w c :=
    fun c hc => Nat.lt_of_le_of_lt (hgrow c).1 hc
  have hglobal : ∀ c, Small { w with program := program } c →
      w.global.get c ≤ program.heap.globalMetrics.get c :=
    fun c hc => (hgrow c).2 (hsmall c hc)
  refine ⟨hcovered, ?_, fun c hc => h.order c (hsmall c hc), ?_⟩
  · intro e he
    obtain ⟨s, hs, hbetween⟩ := h.shown e he
    refine ⟨s, hs, fun c hc => ?_⟩
    obtain ⟨hasked, hanswered, hnow⟩ := hbetween c (hsmall c hc)
    exact ⟨hasked, hanswered, hnow.trans (hglobal c hc)⟩
  · intro bytes left got asked hserver
    obtain ⟨hpath, hloads⟩ := h.loading bytes left got asked hserver
    refine ⟨hpath, fun c hc => ?_⟩
    obtain ⟨hasked, hgot, hearlier⟩ := hloads c (hsmall c hc)
    refine ⟨hasked.trans (hglobal c hc), fun hc' => ?_, hearlier⟩
    exact ⟨(hgot hc').1, (hgot hc').2.trans (hglobal c hc)⟩

theorem Inv.accept (h : Inv n w) (received : Option Received) :
    Inv n (Running.accept loaded w received) := by
  unfold Running.accept
  cases received with
  | none => exact h
  | some bytes =>
      simp only
      split
      · rename_i hpath
        refine ⟨h.covered, h.shown, h.order, ?_⟩
        intro bytes' left got asked hserver
        obtain ⟨rfl, rfl, rfl, rfl⟩ := Server.loading.inj hserver
        refine ⟨hpath.1, fun c hc => ⟨Nat.le_refl _, fun hnot => ?_, fun e he => ?_⟩⟩
        · exact absurd (Metrics.mem_all c) hnot
        · obtain ⟨s, -, hbetween⟩ := h.shown e he
          exact (hbetween c hc).2.2
      · exact h

theorem Inv.load (h : Inv n w) {bytes : Received} {c₀ : Counter} {left : List Counter}
    {got : Counter → Nat} {asked : GlobalMetrics}
    (hserver : w.server = .loading bytes (c₀ :: left) got asked) :
    Inv n { w with
      server := .loading bytes left (Function.update got c₀ (w.global.get c₀)) asked } := by
  obtain ⟨hpath, hloads⟩ := h.loading _ _ _ _ hserver
  refine ⟨h.covered, h.shown, h.order, ?_⟩
  intro bytes' left' got' asked' heq
  obtain ⟨rfl, rfl, rfl, rfl⟩ := Server.loading.inj heq
  refine ⟨hpath, fun c hc => ?_⟩
  obtain ⟨hasked, hgot, hearlier⟩ := hloads c hc
  refine ⟨hasked, fun hnot => ?_, hearlier⟩
  by_cases hc₀ : c = c₀
  · subst hc₀
    rw [Function.update_self]
    exact ⟨hasked, Nat.le_refl _⟩
  · rw [Function.update_of_ne hc₀]
    apply hgot
    simp only [List.mem_cons, hc₀, false_or]
    exact hnot

theorem Inv.reply (hpercent : ∀ hits total, '\n' ∉ percent hits total) (h : Inv n w)
    {bytes : Received} {got : Counter → Nat} {asked : GlobalMetrics} {reply : List UInt8}
    (hserver : w.server = .loading bytes [] got asked)
    (hreply : Library.handleClient percent (some bytes) (some (.ofLoads got)) = some reply) :
    Inv n { w with
      server := .accepting, scrapes := w.scrapes ++ [⟨asked, reply, w.global⟩] } := by
  obtain ⟨hpath, hloads⟩ := h.loading _ _ _ _ hserver
  refine ⟨h.covered, ?_, ?_, ?_⟩
  · intro e he
    rcases List.mem_append.mp he with hold | hnew
    · exact h.shown e hold
    · obtain rfl := List.mem_singleton.mp hnew
      refine ⟨_, shows_reply hpercent hpath hreply, fun c hc => ?_⟩
      obtain ⟨-, hgot, -⟩ := hloads c hc
      rw [get_ofLoads]
      exact ⟨(hgot List.not_mem_nil).1, (hgot List.not_mem_nil).2, Nat.le_refl _⟩
  · intro c hc
    obtain ⟨-, -, hearlier⟩ := hloads c hc
    rw [List.pairwise_append]
    refine ⟨h.order c hc, List.pairwise_singleton _ _, ?_⟩
    intro e he e' he'
    obtain rfl := List.mem_singleton.mp he'
    exact hearlier e he
  · intro bytes' left' got' asked' heq
    cases heq

theorem Inv.step (hpercent : ∀ hits total, '\n' ∉ percent hits total) (h : Inv n w)
    (hstep : step n percent loaded w l = some w') : Inv n w' := by
  cases l with
  | work l =>
      obtain ⟨program, hprogram, rfl⟩ := Option.map_eq_some_iff.mp hstep
      exact h.work hprogram
  | accept received =>
      cases hserver : w.server with
      | accepting =>
          simp only [Running.step, hserver, serve, Option.some.injEq] at hstep
          rw [← hstep]
          exact h.accept received
      | loading bytes left got asked =>
          simp only [Running.step, hserver, serve] at hstep
          cases hstep
  | load =>
      cases hserver : w.server with
      | accepting =>
          simp only [Running.step, hserver, serve] at hstep
          cases hstep
      | loading bytes left got asked =>
          cases left with
          | nil =>
              simp only [Running.step, hserver, serve] at hstep
              cases hstep
          | cons c₀ left =>
              simp only [Running.step, hserver, serve, Option.some.injEq] at hstep
              rw [← hstep]
              exact h.load hserver
  | reply =>
      cases hserver : w.server with
      | accepting =>
          simp only [Running.step, hserver, serve] at hstep
          cases hstep
      | loading bytes left got asked =>
          cases left with
          | nil =>
              simp only [Running.step, hserver, serve] at hstep
              obtain ⟨reply, hreply, rfl⟩ := Option.map_eq_some_iff.mp hstep
              exact h.reply hpercent hserver hreply
          | cons c₀ left =>
              simp only [Running.step, hserver, serve] at hstep
              cases hstep

/-- **Scrapes never go back**: every reply with metrics reads back as a snapshot whose counters lie
between what they were at the request and at the reply, and a later one shows no less. -/
theorem scrapes_grow (hpercent : ∀ hits total, '\n' ∉ percent hits total)
    (h : (machine n mem foreign percent loaded).Reaches w) :
    (∀ e ∈ w.scrapes, ∃ s, Shows e.reply s ∧ ∀ c, w.program.events c < 2 ^ 64 →
      e.asked.get c ≤ s.get c ∧ s.get c ≤ e.answered.get c ∧
      e.answered.get c ≤ w.program.events c) ∧
    w.scrapes.Pairwise fun e e' => ∀ s s', Shows e.reply s → Shows e'.reply s' →
      ∀ c, w.program.events c < 2 ^ 64 → s.get c ≤ s'.get c := by
  have hinv : Inv n w := h.invariant Inv.init fun _ _ _ hw hstep => hw.step hpercent hstep
  have hbetween : ∀ e ∈ w.scrapes, ∀ s, Shows e.reply s → ∀ c, w.program.events c < 2 ^ 64 →
      e.asked.get c ≤ s.get c ∧ s.get c ≤ e.answered.get c := by
    intro e he s hs c hc
    obtain ⟨s₀, hs₀, hvalues⟩ := hinv.shown e he
    obtain rfl := hs.unique hs₀
    exact ⟨(hvalues c hc).1, (hvalues c hc).2.1⟩
  refine ⟨fun e he => ?_, ?_⟩
  · obtain ⟨s, hs, hvalues⟩ := hinv.shown e he
    refine ⟨s, hs, fun c hc => ?_⟩
    obtain ⟨hasked, hanswered, hnow⟩ := hvalues c hc
    exact ⟨hasked, hanswered, hnow.trans (hinv.covered.global_le c)⟩
  · rw [List.pairwise_iff_getElem]
    intro i j hi hj hij s s' hs hs' c hc
    have horder := List.pairwise_iff_getElem.mp (hinv.order c hc) i j hi hj hij
    have hearlier := (hbetween _ (List.getElem_mem hi) s hs c hc).2
    have hlater := (hbetween _ (List.getElem_mem hj) s' hs' c hc).1
    exact hearlier.trans (horder.trans hlater)

/-- Two scrapes, the first while an allocation is flushed: it shows the miss, and not yet the
allocation that missed. -/
def scraped : List Label :=
  let request : Received := ⟨getMetricsRequest, getMetricsRequest_fits⟩
  [.accept (some request), .load, .load, .work (.alloc 0 line [some 4096]),
    .work (.flushThreadMetrics 0), .work (.fetchAdd 0), .work (.fetchAdd 0), .load,
    .work (.fetchAdd 0), .work (.fetchAdd 0), .load, .load, .reply, .work (.fetchAdd 0),
    .accept (some request), .load, .load, .load, .load, .load, .reply]

theorem scrapes_grow_flush : ∃ w,
    (machine 1 (fun _ => 0) (fun _ => false) (fun _ _ => "0.00".toList) true).exec
      (machine 1 (fun _ => 0) (fun _ => false) (fun _ _ => "0.00".toList) true).init scraped
      = some w ∧
    (w.scrapes.length, w.program.events .allocs) = (2, 1) ∧
    ∀ e ∈ w.scrapes, ∃ s, Shows e.reply s ∧
      e.asked.get .allocs ≤ s.get .allocs ∧ s.get .allocs ≤ e.answered.get .allocs := by
  have hrun : ((machine 1 (fun _ => 0) (fun _ => false) (fun _ _ => "0.00".toList) true).exec
      (machine 1 (fun _ => 0) (fun _ => false) (fun _ _ => "0.00".toList) true).init
      scraped).map (fun w => (w.scrapes.length, w.program.events .allocs)) = some (2, 1) := by
    decide +kernel
  obtain ⟨w, hw, hvals⟩ := Option.map_eq_some_iff.mp hrun
  have hevents : w.program.events .allocs = 1 := (Prod.mk.inj hvals).2
  have hpercent : '\n' ∉ "0.00".toList := by decide
  obtain ⟨hshown, -⟩ := scrapes_grow (fun _ _ => hpercent) ⟨scraped, hw⟩
  refine ⟨w, hw, hvals, fun e he => ?_⟩
  obtain ⟨s, hs, hvalues⟩ := hshown e he
  obtain ⟨hasked, hanswered, -⟩ := hvalues .allocs (by rw [hevents]; decide)
  exact ⟨s, hs, hasked, hanswered⟩

end Running

end Aethalloc.Exporter
