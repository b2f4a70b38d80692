/-
Every command sent is handled, once, in order, and soon.

The ring hands entries over in order (`Proofs/RingBuffer.lean`).  Two things are
still missing for the pipeline.  One is that the core reads the field of the union
that the producer wrote; `handleCommand_entry` says it reads back exactly the
command that was sent, whatever bytes the entry was built over.  The other is that
the core gets to it.  The producer may fill the ring again as fast as the core
empties it, so the measure does not count what is in the ring: it counts what had
been sent at some moment and is not handled yet, and how far the core is inside
its loop.  The producer changes neither, and every step of the core lowers it.
-/
import Aethalloc.Amo.SupportCore
import Aethalloc.Proofs.RingBuffer
import Aethalloc.Lib.Cost

namespace Aethalloc.Amo

open Lib

/-! ### The union -/

/-- A payload reads like the bytes it was made from. -/
theorem RingPayload.read_ofMem {m : Mem} {a n : Nat} (h : a + n ≤ 56) :
    (ofMem m).mem.read a n = m.read a n := by
  refine Mem.read_congr fun x h1 h2 => ?_
  unfold mem ofMem
  rw [dif_pos (by omega)]
  simp

/-- The core reads back the command that was sent, whatever the entry was built over. -/
theorem handleCommand_entry (junk : RingPayload) (command : Command) :
    (command.entry junk).handleCommand = command := by
  cases command with
  | freeBlock p =>
      simp [Command.entry, RingEntry.new, RingEntry.handleCommand, RingPayload.freeBlock,
        RingPayload.writeFreeBlock, RingPayload.read_ofMem, Mem.read_write_of_disjoint,
        Mem.read_write_mod]
  | compactionRequest p =>
      simp [Command.entry, RingEntry.new, RingEntry.handleCommand, RingPayload.compaction,
        RingPayload.writeCompaction, RingPayload.read_ofMem, Mem.read_write_of_disjoint,
        Mem.read_write_mod]
  | tagUpdate p =>
      simp [Command.entry, RingEntry.new, RingEntry.handleCommand, RingPayload.tagUpdate,
        RingPayload.writeTagUpdate, RingPayload.read_ofMem, Mem.read_write_of_disjoint,
        Mem.read_write_mod]
  | statsReport p =>
      simp [Command.entry, RingEntry.new, RingEntry.handleCommand, RingPayload.stats,
        RingPayload.writeStats, RingPayload.read_ofMem, Mem.read_write_of_disjoint,
        Mem.read_write_mod]
  | noOp => rfl

/-! ### What a step does to the ring -/

/-- The entry the producer is in the middle of pushing. -/
def inFlight : Spsc.Producer RingEntry → Option RingEntry
  | .readShadow entry _ | .loadTail entry _ | .writeSlot entry _ | .storeHead entry _ => some entry
  | .idle | .returned _ => none

variable {N : Nat} {r r' : Spsc.State RingEntry}

/-- A step of `try_push` goes on with its entry, gives up on it, or has it accepted. -/
theorem stepPush_cases (h : Spsc.stepPush N r = some r') :
    r'.consumer = r.consumer ∧ r'.popped = r.popped ∧
    ((inFlight r'.producer = inFlight r.producer ∧ r'.accepted = r.accepted ∧
        r'.producer ≠ .returned (some ())) ∨
      (r'.producer = .returned none ∧ r'.accepted = r.accepted) ∨
      (∃ head entry, inFlight r.producer = some entry ∧ r'.producer = .returned (some ()) ∧
        r'.accepted = r.accepted ++ [(head, entry)])) := by
  unfold Spsc.stepPush at h
  cases hp : r.producer with
  | idle => simp [hp] at h
  | returned result => simp [hp] at h
  | readShadow entry head =>
      simp only [hp] at h
      split at h <;> (obtain rfl := Option.some.inj h; simp [inFlight])
  | loadTail entry head =>
      simp only [hp] at h
      split at h <;> (obtain rfl := Option.some.inj h; simp [inFlight])
  | writeSlot entry head =>
      simp only [hp] at h
      obtain rfl := Option.some.inj h
      simp [inFlight]
  | storeHead entry head =>
      simp only [hp] at h
      obtain rfl := Option.some.inj h
      simp [inFlight]

/-- How many steps `try_pop` has left, at most, when it finds an entry. -/
def popRank : Spsc.Consumer RingEntry → Nat
  | .idle => 0
  | .readShadow _ => 5
  | .loadHead _ => 4
  | .readSlot _ => 3
  | .storeTail _ _ => 2
  | .returned (some _) => 1
  | .returned none => 7

/-- A step of `try_pop` gets closer to an entry, hands one over, or finds none. -/
theorem stepPop_cases (h : Spsc.stepPop N r = some r') :
    r'.producer = r.producer ∧ r'.accepted = r.accepted ∧
    ((popRank r'.consumer < popRank r.consumer ∧ 1 < popRank r'.consumer ∧ r'.popped = r.popped) ∨
      (r'.consumer = .returned none ∧ r'.popped = r.popped) ∨
      (∃ entry, popRank r.consumer = 2 ∧ r'.consumer = .returned (some entry) ∧
        r'.popped = r.popped ++ [entry])) := by
  unfold Spsc.stepPop at h
  cases hc : r.consumer with
  | idle => simp [hc] at h
  | returned result => simp [hc] at h
  | readShadow tail =>
      simp only [hc] at h
      split at h <;> (obtain rfl := Option.some.inj h; simp [popRank])
  | loadHead tail =>
      simp only [hc] at h
      split at h <;> (obtain rfl := Option.some.inj h; simp [popRank])
  | readSlot tail =>
      simp only [hc] at h
      obtain rfl := Option.some.inj h
      simp [popRank]
  | storeTail tail entry =>
      simp only [hc] at h
      obtain rfl := Option.some.inj h
      simp [popRank]

/-! ### The invariant -/

/-- What is in the core's hand: popped, and about to be handled. -/
def inHand (s : Pipeline) : List Command :=
  match s.core.loop, s.ring.consumer with
  | .popping, .returned (some entry) => [entry.handleCommand]
  | _, _ => []

/-- The core is inside `try_pop`, or just returned from it, exactly when it is not at the test. -/
def AtTest (s : Pipeline) : Prop :=
  match s.core.loop with
  | .test => s.ring.consumer = .idle ∨ ∃ result, s.ring.consumer = .returned result
  | .popping => s.ring.consumer ≠ .idle
  | .exited => False

/-- A pipeline whose core runs: nothing is lost, and nothing is handled that was not sent. -/
structure Inv (N : Nat) (s : Pipeline) : Prop where
  ring : ∃ st sh, Spsc.Inv N st sh s.ring
  running : s.core.running = true
  loop : AtTest s
  handled : s.ring.popped.map RingEntry.handleCommand = s.core.handled ++ inHand s
  sent : s.ring.accepted.map (fun x => x.2.handleCommand) = s.sent
  sending : ∀ entry, inFlight s.ring.producer = some entry → s.sending = some entry.handleCommand

variable {s s' : Pipeline}

theorem inv_init (hcap : N.isPowerOfTwo) : Inv N (pipeline N).init where
  ring := ⟨0, 0, Spsc.inv_start hcap _⟩
  running := rfl
  loop := .inl rfl
  handled := rfl
  sent := rfl
  sending := by
    intro entry h
    cases h

/-! ### One step keeps the invariant -/

/-- What the core does next: start a `try_pop`, go on with it, handle what it returned, or go back
to the test. -/
inductive CoreStep (N : Nat) (s : Pipeline) : Pipeline → Prop
  | start (hloop : s.core.loop = .test)
      (hconsumer : s.ring.consumer = .idle ∨ ∃ result, s.ring.consumer = .returned result) :
      CoreStep N s { s with
        ring := { s.ring with consumer := .readShadow s.ring.ring.tail }
        core := { s.core with loop := .popping } }
  | pop {ring : Spsc.State RingEntry} (hloop : s.core.loop = .popping)
      (hpop : Spsc.stepPop N s.ring = some ring) : CoreStep N s { s with ring := ring }
  | handle {entry : RingEntry} (hloop : s.core.loop = .popping)
      (hconsumer : s.ring.consumer = .returned (some entry)) :
      CoreStep N s { s with core := s.core.handleCommand entry }
  | yield (hloop : s.core.loop = .popping) (hconsumer : s.ring.consumer = .returned none) :
      CoreStep N s { s with core := { s.core with loop := .test } }

/-- In the middle of `try_pop` there is a next step. -/
theorem stepPop_goes_on (hloop : s.core.loop = .popping) (hidle : s.ring.consumer ≠ .idle)
    (hret : ∀ result, s.ring.consumer ≠ .returned result) :
    ∃ s', (Spsc.stepPop N s.ring).map (fun ring => { s with ring := ring }) = some s' ∧
      CoreStep N s s' := by
  obtain ⟨ring, hring⟩ : ∃ ring, Spsc.stepPop N s.ring = some ring := by
    unfold Spsc.stepPop
    cases hc : s.ring.consumer with
    | idle => exact absurd hc hidle
    | returned result => exact absurd hc (hret result)
    | readShadow tail => simp only; split <;> exact ⟨_, rfl⟩
    | loadHead tail => simp only; split <;> exact ⟨_, rfl⟩
    | readSlot tail => exact ⟨_, rfl⟩
    | storeTail tail entry => exact ⟨_, rfl⟩
  exact ⟨_, by rw [hring]; rfl, .pop hloop hring⟩

/-- In the invariant the core always has a next step, and it is one of these. -/
theorem Inv.stepCore (h : Inv N s) : ∃ s', stepCore N s = some s' ∧ CoreStep N s s' := by
  have hloop := h.loop
  unfold AtTest at hloop
  unfold Amo.stepCore
  cases hl : s.core.loop with
  | exited => simp only [hl] at hloop
  | test =>
      simp only [hl] at hloop ⊢
      have hstart : Spsc.startPop s.ring
          = some { s.ring with consumer := .readShadow s.ring.ring.tail } := by
        unfold Spsc.startPop
        rcases hloop with hidle | ⟨result, hret⟩
        · rw [hidle]
        · rw [hret]
      rw [if_pos h.running, hstart]
      exact ⟨_, rfl, .start hl hloop⟩
  | popping =>
      simp only [hl] at hloop ⊢
      cases hc : s.ring.consumer with
      | idle => exact absurd hc hloop
      | returned result =>
          cases result with
          | none => exact ⟨_, rfl, .yield hl hc⟩
          | some entry => exact ⟨_, rfl, .handle hl hc⟩
      | readShadow tail => exact stepPop_goes_on hl (by rw [hc]; simp) (by rw [hc]; simp)
      | loadHead tail => exact stepPop_goes_on hl (by rw [hc]; simp) (by rw [hc]; simp)
      | readSlot tail => exact stepPop_goes_on hl (by rw [hc]; simp) (by rw [hc]; simp)
      | storeTail tail entry => exact stepPop_goes_on hl (by rw [hc]; simp) (by rw [hc]; simp)

/-- The core keeps the invariant. -/
theorem Inv.core (hcap : N.isPowerOfTwo) (h : Inv N s) (hstep : CoreStep N s s') : Inv N s' := by
  obtain ⟨st, sh, hring⟩ := h.ring
  have hhandled := h.handled
  cases hstep with
  | start hloop hconsumer =>
      have hring' : Spsc.Inv N st sh { s.ring with consumer := .readShadow s.ring.ring.tail } :=
        { hring with producer := hring.producer, consumer := hring.tail }
      refine { h with ring := ⟨st, sh, hring'⟩, loop := ?_, handled := ?_ }
      · intro hidle
        cases hidle
      · simpa [inHand, hloop] using hhandled
  | @pop ring hloop hpop =>
      obtain ⟨sh', hring'⟩ := Spsc.stepPop_inv hcap hring hpop
      obtain ⟨hproducer, haccepted, hcases⟩ := stepPop_cases hpop
      -- inside the call nothing is in hand, the entry only gets there when the call returns
      have hempty : inHand s = [] := by
        unfold inHand
        rw [hloop]
        cases hc : s.ring.consumer with
        | returned result => simp [Spsc.stepPop, hc] at hpop
        | idle => rfl
        | readShadow tail => rfl
        | loadHead tail => rfl
        | readSlot tail => rfl
        | storeTail tail entry => rfl
      rw [hempty, List.append_nil] at hhandled
      refine { h with
        ring := ⟨st, sh', hring'⟩
        loop := ?_
        handled := ?_
        sent := by rw [← h.sent, haccepted]
        sending := by rw [hproducer]; exact h.sending }
      · unfold AtTest
        simp only [hloop]
        rcases hcases with ⟨-, hrank, -⟩ | ⟨hnone, -⟩ | ⟨entry, -, hsome, -⟩
        · intro hidle
          rw [hidle] at hrank
          simp [popRank] at hrank
        · rw [hnone]
          simp
        · rw [hsome]
          simp
      · rcases hcases with ⟨-, hrank, hpopped⟩ | ⟨hnone, hpopped⟩ | ⟨entry, -, hsome, hpopped⟩
        · have hnohand : inHand { s with ring := ring } = [] := by
            unfold inHand
            simp only [hloop]
            split
            · rename_i hret
              rw [hret] at hrank
              simp [popRank] at hrank
            · rfl
          rw [hnohand, List.append_nil, hpopped]
          exact hhandled
        · simpa [inHand, hloop, hnone, hpopped] using hhandled
        · simp [inHand, hloop, hsome, hpopped, hhandled]
  | @handle entry hloop hconsumer =>
      refine { h with loop := .inr ⟨_, hconsumer⟩, handled := ?_ }
      simp only [inHand, hloop, hconsumer] at hhandled
      simp [inHand, SupportCore.handleCommand, hhandled]
  | yield hloop hconsumer =>
      refine { h with loop := .inr ⟨_, hconsumer⟩, handled := ?_ }
      simpa [inHand, hloop, hconsumer] using hhandled

/-- Starting to send keeps the invariant: the entry will read back as the command. -/
theorem Inv.trySend {junk : RingPayload} {command : Command} (h : Inv N s)
    (hstep : step N s (.trySend junk command) = some s') : Inv N s' := by
  obtain ⟨st, sh, hring⟩ := h.ring
  obtain ⟨ring, hpush, rfl⟩ := Option.map_eq_some_iff.mp hstep
  have hring' := Spsc.startPush_inv hring hpush
  obtain rfl : ring
      = { s.ring with producer := .readShadow (command.entry junk) s.ring.ring.head } := by
    unfold Spsc.startPush at hpush
    cases hp : s.ring.producer <;> simp [hp] at hpush <;> exact hpush.symm
  refine { h with ring := ⟨st, sh, hring'⟩, sending := ?_ }
  intro entry hentry
  obtain rfl := Option.some.inj hentry
  rw [handleCommand_entry]

/-- What the producer does to its side of the ring leaves the core's side as it was. -/
theorem Inv.of_producer (h : Inv N s) {ring : Spsc.State RingEntry} {sent : List Command}
    (hring : ∃ st sh, Spsc.Inv N st sh ring) (hconsumer : ring.consumer = s.ring.consumer)
    (hpopped : ring.popped = s.ring.popped)
    (hsent : ring.accepted.map (fun x => x.2.handleCommand) = sent)
    (hsending : ∀ entry, inFlight ring.producer = some entry →
      s.sending = some entry.handleCommand) : Inv N { s with ring := ring, sent := sent } := by
  have hloop := h.loop
  have hhandled := h.handled
  unfold AtTest at hloop
  unfold inHand at hhandled
  refine ⟨hring, h.running, ?_, ?_, hsent, hsending⟩
  · unfold AtTest
    simpa only [hconsumer] using hloop
  · unfold inHand
    simpa only [hconsumer, hpopped] using hhandled

/-- The rest of `try_push` keeps the invariant too, and the core is where it was. -/
theorem Inv.producer (hcap : N.isPowerOfTwo) (h : Inv N s)
    (hstep : step N s .producer = some s') :
    Inv N s' ∧ s'.core = s.core ∧ s'.ring.consumer = s.ring.consumer ∧ s.sent <+: s'.sent := by
  obtain ⟨st, sh, hring⟩ := h.ring
  obtain ⟨ring, hpush, hs'⟩ := Option.map_eq_some_iff.mp hstep
  obtain ⟨st', hring'⟩ := Spsc.stepPush_inv hcap hring hpush
  obtain ⟨hconsumer, hpopped, hcases⟩ := stepPush_cases hpush
  rcases hcases with ⟨hflight, haccepted, hne⟩ | ⟨hnone, haccepted⟩ |
    ⟨head, entry, hflight, hret, haccepted⟩
  · obtain rfl : { s with ring := ring } = s' := by
      rw [← hs']
      split
      · rename_i hc
        exact absurd hc hne
      · rfl
    refine ⟨h.of_producer ⟨st', sh, hring'⟩ hconsumer hpopped ?_ ?_, rfl, hconsumer,
      List.prefix_refl _⟩
    · rw [haccepted, h.sent]
    · rw [hflight]
      exact h.sending
  · obtain rfl : { s with ring := ring } = s' := by
      rw [← hs']
      simp only [hnone]
    refine ⟨h.of_producer ⟨st', sh, hring'⟩ hconsumer hpopped ?_ ?_, rfl, hconsumer,
      List.prefix_refl _⟩
    · rw [haccepted, h.sent]
    · intro entry hentry
      rw [hnone] at hentry
      cases hentry
  · obtain rfl : { s with ring := ring, sent := s.sent ++ [entry.handleCommand] } = s' := by
      rw [← hs']
      simp only [hret, h.sending entry hflight, Option.toList_some]
    refine ⟨h.of_producer ⟨st', sh, hring'⟩ hconsumer hpopped ?_ ?_, rfl, hconsumer,
      List.prefix_append _ _⟩
    · rw [haccepted, List.map_append, h.sent]
      rfl
    · intro entry hentry
      rw [hret] at hentry
      cases hentry

/-- One step of either side keeps the invariant, and what was sent stays sent. -/
theorem Inv.step (hcap : N.isPowerOfTwo) {l : Label} (h : Inv N s)
    (hstep : (pipeline N).step s l = some s') : Inv N s' ∧ s.sent <+: s'.sent := by
  cases l with
  | trySend junk command =>
      refine ⟨h.trySend hstep, ?_⟩
      obtain ⟨ring, -, rfl⟩ := Option.map_eq_some_iff.mp hstep
      exact List.prefix_refl _
  | producer =>
      obtain ⟨h', -, -, hsent⟩ := h.producer hcap hstep
      exact ⟨h', hsent⟩
  | core =>
      obtain ⟨s₁, hs₁, hcore⟩ := h.stepCore
      obtain rfl : s₁ = s' := Option.some.inj (hs₁.symm.trans hstep)
      refine ⟨h.core hcap hcore, ?_⟩
      cases hcore <;> exact List.prefix_refl _

/-- The invariant holds in every state any interleaving reaches. -/
theorem reaches_inv (hcap : N.isPowerOfTwo) (hs : (pipeline N).Reaches s) : Inv N s :=
  Machine.Reaches.invariant (inv_init hcap) (fun _ _ _ h hstep => (h.step hcap hstep).1) hs

/-! ### How far behind the core is -/

/-- What is handled was sent, and what was sent and is not handled fits the ring and the hand. -/
theorem Inv.handled_le_sent (h : Inv N s) :
    s.core.handled <+: s.sent ∧ s.sent.length ≤ s.core.handled.length + N := by
  obtain ⟨st, sh, hring⟩ := h.ring
  have hpre : s.core.handled ++ inHand s <+: s.sent := by
    rw [← h.handled, ← h.sent]
    have := hring.fifo.map RingEntry.handleCommand
    rwa [List.map_map] at this
  refine ⟨(List.prefix_append _ _).trans hpre, ?_⟩
  have hlen := congrArg List.length h.handled
  have hsent := congrArg List.length h.sent
  have hhand : (inHand s).length ≤ 1 := by
    unfold inHand
    split <;> simp
  rw [List.length_map, List.length_append] at hlen
  rw [List.length_map] at hsent
  have hroom := hring.room
  have hstale := hring.stale
  omega

/-- How many steps the core needs, at most, to handle one more entry that is there. -/
def rank (s : Pipeline) : Nat :=
  match s.core.loop with
  | .test => 6
  | .popping => popRank s.ring.consumer
  | .exited => 0

/-- How many steps it needs, at most, to handle the first `n` commands sent. -/
def work (n : Nat) (s : Pipeline) : Nat :=
  if s.core.handled.length < n then 6 * (n - s.core.handled.length - 1) + rank s else 0

/-- The core is never without a next step. -/
theorem Inv.rank_pos (h : Inv N s) : 0 < rank s := by
  have hloop := h.loop
  unfold AtTest at hloop
  unfold rank
  cases hl : s.core.loop with
  | exited => simp only [hl] at hloop
  | test => simp
  | popping =>
      simp only [hl] at hloop ⊢
      unfold popRank
      cases hc : s.ring.consumer with
      | idle => exact absurd hc hloop
      | returned result => cases result <;> simp
      | readShadow tail => simp
      | loadHead tail => simp
      | readSlot tail => simp
      | storeTail tail entry => simp

/-- With no work left, what was to be handled is. -/
theorem Inv.of_work_zero (h : Inv N s) {n : Nat} (hzero : work n s = 0) :
    n ≤ s.core.handled.length := by
  have hrank : 0 < rank s := h.rank_pos
  unfold work at hzero
  split at hzero <;> omega

/-- All that can be open at any moment. -/
theorem Inv.work_le (h : Inv N s) : work s.sent.length s ≤ 6 * N + 1 := by
  have hbehind := h.handled_le_sent.2
  have hrank : rank s ≤ 7 := by
    unfold rank popRank
    split
    · omega
    · split <;> omega
    · omega
  unfold work
  split <;> omega

/-- The core finds the ring empty only when everything sent is handled. -/
theorem Inv.pop_none (h : Inv N s) {ring : Spsc.State RingEntry} (hloop : s.core.loop = .popping)
    (hpop : Spsc.stepPop N s.ring = some ring) (hnone : ring.consumer = .returned none) :
    s.core.handled.length = s.sent.length := by
  obtain ⟨st, sh, hring⟩ := h.ring
  obtain ⟨⟨tail, hload⟩, hempty⟩ := hring.pop_refused hpop hnone
  have hhandled := congrArg List.length h.handled
  have hsent := congrArg List.length h.sent
  have hhand : inHand s = [] := by
    unfold inHand
    rw [hloop, hload]
  rw [hhand, List.append_nil, List.length_map] at hhandled
  rw [List.length_map] at hsent
  omega

/-- A step of the core gets it closer to having handled what was sent by now. -/
theorem Inv.work_core (h : Inv N s) {n : Nat} (hn : n ≤ s.sent.length)
    (hstep : CoreStep N s s') : work n s' ≤ work n s - 1 := by
  unfold work
  cases hstep with
  | start hloop hconsumer =>
      simp only [rank, hloop, popRank]
      split <;> omega
  | @pop ring hloop hpop =>
      obtain ⟨-, -, hcases⟩ := stepPop_cases hpop
      simp only [rank, hloop]
      rcases hcases with ⟨hlt, -, -⟩ | ⟨hnone, -⟩ | ⟨entry, htwo, hsome, -⟩
      · split <;> omega
      · have hall := h.pop_none hloop hpop hnone
        rw [if_neg (by omega)]
        omega
      · rw [hsome, htwo]
        simp only [popRank]
        split <;> omega
  | @handle entry hloop hconsumer =>
      simp only [rank, hloop, hconsumer, popRank, SupportCore.handleCommand, List.length_append,
        List.length_singleton]
      split <;> split <;> omega
  | yield hloop hconsumer =>
      simp only [rank, hloop, hconsumer, popRank]
      split <;> omega

/-- A step of the producer does not get in its way. -/
theorem Inv.work_step (hcap : N.isPowerOfTwo) (h : Inv N s) {n : Nat} (hn : n ≤ s.sent.length)
    {l : Label} (hstep : (pipeline N).step s l = some s') :
    work n s' ≤ work n s - if l == .core then 1 else 0 := by
  cases l with
  | trySend junk command =>
      rw [if_neg (by simp)]
      obtain ⟨ring, hpush, rfl⟩ := Option.map_eq_some_iff.mp hstep
      have hconsumer : ring.consumer = s.ring.consumer := by
        unfold Spsc.startPush at hpush
        cases hp : s.ring.producer <;> simp [hp] at hpush <;> rw [← hpush]
      unfold work rank
      simp only [hconsumer]
      exact Nat.le_refl _
  | producer =>
      rw [if_neg (by simp)]
      obtain ⟨-, hcore, hconsumer, -⟩ := h.producer hcap hstep
      unfold work rank
      rw [hcore, hconsumer]
      exact Nat.le_refl _
  | core =>
      rw [if_pos (by simp)]
      obtain ⟨s₁, hs₁, hcore⟩ := h.stepCore
      obtain rfl : s₁ = s' := Option.some.inj (hs₁.symm.trans hstep)
      exact h.work_core hn hcore

/-! ### The pipeline -/

/--
**Every command sent is handled, once, in order, and after boundedly many steps of
the core.**  In every state any interleaving of one producer and the support core
reaches: what the core has handled is the beginning of what was sent, with the very
fields that were sent; it is behind by at most `N` commands; it has a next step; and
whatever the producer does meanwhile, once the core has taken `6 * N + 1` more steps
it has handled everything that is sent by now.
-/
theorem support_core_delivers (N : Nat) (hcap : N.isPowerOfTwo) {s : Pipeline}
    (hs : (pipeline N).Reaches s) :
    s.core.handled <+: s.sent ∧ s.sent.length ≤ s.core.handled.length + N ∧
    (∃ s', (pipeline N).step s .core = some s') ∧
    ∀ ls s', (pipeline N).exec s ls = some s' → 6 * N + 1 ≤ ls.count .core →
      s.sent <+: s'.core.handled := by
  have h := reaches_inv hcap hs
  obtain ⟨hpre, hbehind⟩ := h.handled_le_sent
  obtain ⟨s₁, hs₁, -⟩ := h.stepCore
  refine ⟨hpre, hbehind, ⟨s₁, hs₁⟩, ?_⟩
  intro ls s' hrun hcount
  -- the invariant, and that what is sent by now stays sent
  have hkeep : ∀ t l t', Inv N t ∧ s.sent <+: t.sent → (pipeline N).step t l = some t' →
      Inv N t' ∧ s.sent <+: t'.sent := by
    intro t l t' ⟨ht, hsent⟩ hstep
    obtain ⟨ht', hsent'⟩ := ht.step hcap hstep
    exact ⟨ht', hsent.trans hsent'⟩
  have hend := Machine.exec_invariant hkeep ls s s' ⟨h, List.prefix_refl _⟩ hrun
  have hused : work s.sent.length s' ≤ work s.sent.length s - ls.count .core :=
    Machine.exec_uses_up hkeep (fun t l t' ht hstep => ht.1.work_step hcap ht.2.length_le hstep)
      ls s s' ⟨h, List.prefix_refl _⟩ hrun
  have hbound := h.work_le
  have hlen : s.sent.length ≤ s'.core.handled.length := hend.1.of_work_zero (by omega)
  exact List.prefix_of_prefix_length_le hend.2 hend.1.handled_le_sent.1 hlen

/-- Two commands over a ring of two slots; the second has to wait until the first is popped. -/
def refusedOnce : List Label :=
  [.trySend .zeroed (.tagUpdate ⟨4096, 3, 9⟩), .producer, .core, .producer, .producer,
    .trySend .zeroed (.statsReport ⟨1, 20, 7⟩), .producer, .producer,
    .core, .core, .core, .core,
    .trySend .zeroed (.statsReport ⟨1, 20, 7⟩), .producer, .producer, .core, .producer, .producer]

/-- The second command is sent and waits; thirteen more steps of the core handle it. -/
theorem support_core_delivers_refused : ∃ s, (pipeline 2).Reaches s ∧
    s.sent = [.tagUpdate ⟨4096, 3, 9⟩, .statsReport ⟨1, 20, 7⟩] ∧
    s.core.handled = [.tagUpdate ⟨4096, 3, 9⟩] ∧
    ∀ ls s', (pipeline 2).exec s ls = some s' → 13 ≤ ls.count .core →
      s.sent <+: s'.core.handled := by
  have hrun : ((pipeline 2).exec (pipeline 2).init refusedOnce).map
      (fun s => (s.sent, s.core.handled))
        = some ([.tagUpdate ⟨4096, 3, 9⟩, .statsReport ⟨1, 20, 7⟩], [.tagUpdate ⟨4096, 3, 9⟩]) := by
    decide +kernel
  obtain ⟨s, hs, hvals⟩ := Option.map_eq_some_iff.mp hrun
  obtain ⟨hsent, hhandled⟩ := Prod.mk.inj hvals
  exact ⟨s, ⟨refusedOnce, hs⟩, hsent, hhandled,
    (support_core_delivers 2 ⟨1, rfl⟩ ⟨refusedOnce, hs⟩).2.2.2⟩

end Aethalloc.Amo
