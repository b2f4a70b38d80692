/-
What the observers of the ring buffer say.

`len`, `is_empty` and `is_full` look at the true indices, `try_push` and `try_pop`
decide on their shadows first.  Between calls the two agree all the same: a shadow
that calls the buffer full while it is not is refreshed before anything is refused,
and a shadow never finds room, or an entry, that is not there.

What a call would do is said by `tryPush` and `tryPop`, the calls as whole functions;
run alone from a state in which no call is under way, the machine does the same.
-/
import Aethalloc.Proofs.RingBuffer

namespace Aethalloc.Spsc

open Lib

variable {Entry : Type} {N st sh : Nat} {s s' : State Entry}

/-- No call is under way. -/
structure Quiet (s : State Entry) : Prop where
  producer : s.producer = .idle ∨ ∃ result, s.producer = .returned result
  consumer : s.consumer = .idle ∨ ∃ result, s.consumer = .returned result

/-- The entries between the two indices, oldest first. -/
def queued (N : Nat) (r : RingBuffer Entry) : List Entry :=
  (List.range (len N r)).map fun i => r.buffer ((r.tail + i) % N)

/-! ### The length -/

/-- A wrapped difference of indices is the difference of the counts they stand for. -/
theorem wrapping_sub_mod {P d : Nat} (hcap : N.isPowerOfTwo) (hword : N < 2 ^ 64) (hd : d < N) :
    (((P + d) % N + 2 ^ 64 - P % N) % 2 ^ 64) % N = d := by
  obtain ⟨k, rfl⟩ := hcap
  have hk : k ≤ 64 := by
    have := (Nat.pow_lt_pow_iff_right (by decide)).mp hword
    omega
  have hdvd : 2 ^ k ∣ 2 ^ 64 := Nat.pow_dvd_pow 2 hk
  have hlt : P % 2 ^ k < 2 ^ k := Nat.mod_lt _ (Nat.two_pow_pos k)
  rw [Nat.mod_mod_of_dvd _ hdvd, ← Nat.mod_add_mod]
  generalize P % 2 ^ k = p at *
  obtain ⟨m, hm⟩ := hdvd
  -- the higher index is either still in this lap or already in the next one
  rcases Nat.lt_or_ge (p + d) (2 ^ k) with hin | hout
  · rw [Nat.mod_eq_of_lt hin, show p + d + 2 ^ 64 - p = d + 2 ^ 64 by omega, hm,
      Nat.add_mul_mod_self_left, Nat.mod_eq_of_lt hd]
  · obtain ⟨m', rfl⟩ : ∃ m', m = m' + 1 := Nat.exists_eq_succ_of_ne_zero fun h0 => by
      rw [h0] at hm
      omega
    rw [Nat.mul_succ] at hm
    have hlap : (p + d) % 2 ^ k = p + d - 2 ^ k := by
      rw [Nat.mod_eq_sub_mod hout, Nat.mod_eq_of_lt (by omega)]
    rw [hlap, show p + d - 2 ^ k + 2 ^ 64 - p = d + 2 ^ k * m' by omega,
      Nat.add_mul_mod_self_left, Nat.mod_eq_of_lt hd]

/-- `len` counts the entries accepted and not popped. -/
theorem Inv.len_eq (hcap : N.isPowerOfTwo) (hword : N < 2 ^ 64) (h : Inv N st sh s) :
    len N s.ring + s.popped.length = s.accepted.length ∧ len N s.ring ≤ N - 1 := by
  have hroom := h.room
  have hstale := h.stale
  obtain ⟨d, hd⟩ := Nat.exists_eq_add_of_le (Nat.le_trans h.behind h.known)
  have hlt : d < N := by omega
  have hwrap := wrapping_sub_mod (P := s.popped.length) hcap hword hlt
  have hlen : len N s.ring = d := by
    obtain ⟨k, rfl⟩ := hcap
    unfold len
    rw [h.head, h.tail, hd, Nat.and_two_pow_sub_one_eq_mod]
    exact hwrap
  omega

/-- The entries between the indices are those accepted and not popped. -/
theorem Inv.queued_eq (hcap : N.isPowerOfTwo) (hword : N < 2 ^ 64) (h : Inv N st sh s) :
    queued N s.ring = (s.accepted.drop s.popped.length).map Prod.snd := by
  obtain ⟨hlen, -⟩ := h.len_eq hcap hword
  refine List.ext_getElem? fun i => ?_
  unfold queued
  rw [List.getElem?_map, List.getElem?_map, List.getElem?_drop]
  rcases Nat.lt_or_ge i (len N s.ring) with hi | hi
  · obtain ⟨⟨j, e⟩, hje⟩ : ∃ x, s.accepted[s.popped.length + i]? = some x :=
      ⟨_, List.getElem?_eq_getElem (by omega)⟩
    have hj : j = (s.ring.tail + i) % N := by
      rw [h.slot _ j e hje, h.tail, Nat.mod_add_mod]
    have hval := h.held _ j e hje (Nat.le_add_right _ _)
    rw [List.getElem?_range hi, hje, ← hval, hj]
    rfl
  · rw [List.getElem?_eq_none (by rw [List.length_range]; exact hi),
      List.getElem?_eq_none (by omega)]
    rfl

/-! ### When a call would refuse -/

/-- The next head is the tail exactly when the buffer is full. -/
theorem Inv.next_eq_tail_iff (hcap : N.isPowerOfTwo) (h : Inv N st sh s) :
    nextIndex N s.ring.head = s.ring.tail ↔ s.accepted.length + 1 = s.popped.length + N := by
  have hroom := h.room
  have hstale := h.stale
  have hle := Nat.le_trans h.behind h.known
  rw [h.head, nextIndex_mod hcap, h.tail]
  constructor
  · intro hmod
    rcases Nat.lt_or_ge (s.accepted.length + 1) (s.popped.length + N) with hlt | hge
    · have := eq_of_mod_eq hmod.symm (by omega) hlt
      omega
    · omega
  · intro hfull
    rw [hfull, Nat.add_mod_right]

/-- A full buffer is full by the producer's shadow too. -/
theorem Inv.next_eq_shadow (hcap : N.isPowerOfTwo) (h : Inv N st sh s)
    (hfull : nextIndex N s.ring.head = s.ring.tail) :
    nextIndex N s.ring.head = s.ring.shadowTail := by
  have hcount := (h.next_eq_tail_iff hcap).mp hfull
  have hroom := h.room
  have hstale := h.stale
  rw [hfull, h.tail, h.shadowTail, show st = s.popped.length by omega]

/-- The indices are equal exactly when the buffer is empty. -/
theorem Inv.tail_eq_head_iff (h : Inv N st sh s) :
    s.ring.tail = s.ring.head ↔ s.accepted.length = s.popped.length := by
  have hroom := h.room
  have hstale := h.stale
  rw [h.head, h.tail]
  constructor
  · intro hmod
    exact (eq_of_mod_eq hmod (Nat.le_trans h.behind h.known) (by omega)).symm
  · intro hempty
    rw [hempty]

/-- An empty buffer is empty by the consumer's shadow too. -/
theorem Inv.tail_eq_shadow (h : Inv N st sh s) (hempty : s.ring.tail = s.ring.head) :
    s.ring.tail = s.ring.shadowHead := by
  have hcount := h.tail_eq_head_iff.mp hempty
  have hbehind := h.behind
  have hknown := h.known
  rw [h.tail, h.shadowHead, show sh = s.popped.length by omega]

/-- What `try_push` refuses is a full buffer, and then it refreshes its shadow only. -/
theorem tryPush_none {r : RingBuffer Entry} {entry : Entry}
    (hnone : (tryPush N r entry).2 = none) :
    nextIndex N r.head = r.tail ∧ (tryPush N r entry).1 = { r with shadowTail := r.tail } := by
  unfold tryPush at hnone ⊢
  simp only at hnone ⊢
  split at hnone
  · rename_i hshadow
    rw [if_pos hshadow]
    split at hnone
    · rename_i hfull
      rw [if_pos hfull]
      exact ⟨hfull, rfl⟩
    · exact absurd hnone (by simp)
  · exact absurd hnone (by simp)

/-- What `try_pop` refuses is an empty buffer, and then it refreshes its shadow only. -/
theorem tryPop_none {r : RingBuffer Entry} (hnone : (tryPop N r).2 = none) :
    r.tail = r.head ∧ (tryPop N r).1 = { r with shadowHead := r.head } := by
  unfold tryPop at hnone ⊢
  simp only at hnone ⊢
  split at hnone
  · rename_i hshadow
    rw [if_pos hshadow]
    split at hnone
    · rename_i hempty
      rw [if_pos hempty]
      exact ⟨hempty, rfl⟩
    · exact absurd hnone (by simp [RingBuffer.take])
  · exact absurd hnone (by simp [RingBuffer.take])

theorem Inv.tryPush_none_iff (hcap : N.isPowerOfTwo) (h : Inv N st sh s) (entry : Entry) :
    (tryPush N s.ring entry).2 = none ↔ s.accepted.length + 1 = s.popped.length + N := by
  rw [← h.next_eq_tail_iff hcap]
  constructor
  · intro hnone
    exact (tryPush_none hnone).1
  · intro hfull
    unfold tryPush
    simp only
    rw [if_pos (h.next_eq_shadow hcap hfull), if_pos hfull]

theorem Inv.tryPop_none_iff (h : Inv N st sh s) :
    (tryPop N s.ring).2 = none ↔ s.accepted.length = s.popped.length := by
  rw [← h.tail_eq_head_iff]
  constructor
  · intro hnone
    exact (tryPop_none hnone).1
  · intro hempty
    unfold tryPop
    simp only
    rw [if_pos (h.tail_eq_shadow hempty), if_pos hempty]

/-! ### What a call does that does not refuse -/

/-- With room under its shadow, the producer leaves a buffer with one entry more. -/
theorem Inv.accept (hcap : N.isPowerOfTwo) (h : Inv N st sh s) (entry : Entry)
    (hroom : s.accepted.length + 2 ≤ st + N) :
    Inv N st sh { s with
      ring := s.ring.accept N entry
      producer := .returned (some ())
      accepted := s.accepted ++ [(s.ring.head, entry)] } := by
  have hwritten : Inv N st sh { s with
      ring := { s.ring with buffer := Function.update s.ring.buffer s.ring.head entry }
      producer := .storeHead entry s.ring.head } := h.writeSlot h.head hroom
  exact hwritten.storeHead hcap h.head hroom (Function.update_self ..)

/-- With an entry under its shadow, the consumer leaves a buffer with the oldest one gone. -/
theorem Inv.take (hcap : N.isPowerOfTwo) (h : Inv N st sh s) (hlt : s.popped.length < sh) :
    Inv N st sh { s with
      ring := (s.ring.take N).1
      consumer := .returned (some (s.ring.buffer s.ring.tail))
      popped := s.popped ++ [s.ring.buffer s.ring.tail] } :=
  h.storeTail hcap h.tail hlt (h.readSlot h.tail hlt)

/-- The state after a push that is not refused. -/
theorem Inv.tryPush_some (hcap : N.isPowerOfTwo) (h : Inv N st sh s) {entry : Entry}
    (hsome : (tryPush N s.ring entry).2 = some ()) :
    ∃ st', Inv N st' sh { s with
      ring := (tryPush N s.ring entry).1
      producer := .returned (some ())
      accepted := s.accepted ++ [(s.ring.head, entry)] } := by
  unfold tryPush at hsome ⊢
  simp only at hsome ⊢
  by_cases hshadow : nextIndex N s.ring.head = s.ring.shadowTail
  · rw [if_pos hshadow] at hsome ⊢
    by_cases hfull : nextIndex N s.ring.head = s.ring.tail
    · rw [if_pos hfull] at hsome
      exact absurd hsome (by simp)
    · rw [if_neg hfull]
      have hfresh := h.loadTail (p := .idle) trivial
      have hroom := hfresh.room
      rw [h.head, h.tail] at hfull
      exact ⟨_, hfresh.accept hcap entry (room_of_next_ne hcap hroom hfull)⟩
  · rw [if_neg hshadow]
    have hroom := h.room
    rw [h.head, h.shadowTail] at hshadow
    exact ⟨_, h.accept hcap entry (room_of_next_ne hcap hroom hshadow)⟩

/-- The state after a pop that is not refused. -/
theorem Inv.tryPop_some (hcap : N.isPowerOfTwo) (h : Inv N st sh s) {entry : Entry}
    (hsome : (tryPop N s.ring).2 = some entry) :
    s.ring.buffer s.ring.tail = entry ∧ ∃ sh', Inv N st sh' { s with
      ring := (tryPop N s.ring).1
      consumer := .returned (some (s.ring.buffer s.ring.tail))
      popped := s.popped ++ [s.ring.buffer s.ring.tail] } := by
  unfold tryPop at hsome ⊢
  simp only at hsome ⊢
  by_cases hshadow : s.ring.tail = s.ring.shadowHead
  · rw [if_pos hshadow] at hsome ⊢
    by_cases hempty : s.ring.tail = s.ring.head
    · rw [if_pos hempty] at hsome
      exact absurd hsome (by simp)
    · rw [if_neg hempty] at hsome ⊢
      have hfresh := h.loadHead (c := .idle) trivial
      rw [h.tail, h.head] at hempty
      exact ⟨Option.some.inj hsome, _,
        hfresh.take hcap (lt_of_index_ne (Nat.le_trans h.behind h.known) hempty)⟩
  · rw [if_neg hshadow] at hsome ⊢
    rw [h.tail, h.shadowHead] at hshadow
    exact ⟨Option.some.inj hsome, _, h.take hcap (lt_of_index_ne h.behind hshadow)⟩

/-- The new entry comes last. -/
theorem Inv.push_accepted (hcap : N.isPowerOfTwo) (hword : N < 2 ^ 64) (h : Inv N st sh s)
    {entry : Entry} (hsome : (tryPush N s.ring entry).2 = some ()) :
    len N (tryPush N s.ring entry).1 = len N s.ring + 1 ∧
      queued N (tryPush N s.ring entry).1 = queued N s.ring ++ [entry] := by
  obtain ⟨st', h'⟩ := h.tryPush_some hcap hsome
  obtain ⟨hlen, -⟩ := h.len_eq hcap hword
  obtain ⟨hlen', -⟩ := h'.len_eq hcap hword
  have hqueued' := h'.queued_eq hcap hword
  simp only [List.length_append, List.length_singleton] at hlen'
  have hle : s.popped.length ≤ s.accepted.length := Nat.le_trans h.behind h.known
  refine ⟨by omega, ?_⟩
  rw [h.queued_eq hcap hword, hqueued', List.drop_append_of_le_length hle, List.map_append]
  rfl

/-- The oldest entry is the one that is handed out. -/
theorem Inv.pop_taken (hcap : N.isPowerOfTwo) (hword : N < 2 ^ 64) (h : Inv N st sh s)
    {entry : Entry} (hsome : (tryPop N s.ring).2 = some entry) :
    len N s.ring = len N (tryPop N s.ring).1 + 1 ∧
      queued N s.ring = entry :: queued N (tryPop N s.ring).1 := by
  obtain ⟨hentry, sh', h'⟩ := h.tryPop_some hcap hsome
  obtain ⟨hlen, -⟩ := h.len_eq hcap hword
  obtain ⟨hlen', -⟩ := h'.len_eq hcap hword
  have hqueued' := h'.queued_eq hcap hword
  simp only [List.length_append, List.length_singleton] at hlen' hqueued'
  have hlt : s.popped.length < s.accepted.length := by omega
  refine ⟨by omega, ?_⟩
  -- the entry at the popped count is in the slot the tail points to
  have hslot := h'.fifo
  obtain ⟨rest, hrest⟩ := hslot
  rw [h.queued_eq hcap hword, hqueued', List.map_drop, List.map_drop, ← hrest, ← hentry]
  simp

/-! ### A whole call is a run of the machine -/

/-- The producer alone, from outside a call, does what `tryPush` does. -/
theorem exec_tryPush (zero entry : Entry) (hq : Quiet s) :
    ∃ n s', (machine N zero).exec s (.tryPush entry :: List.replicate n .producer) = some s' ∧
      s'.ring = (tryPush N s.ring entry).1 ∧ s'.consumer = s.consumer ∧
      s'.producer = .returned (tryPush N s.ring entry).2 := by
  have hstart : (machine N zero).step s (.tryPush entry)
      = some { s with producer := .readShadow entry s.ring.head } := by
    show startPush s entry = _
    unfold startPush
    rcases hq.producer with hidle | ⟨result, hret⟩
    · rw [hidle]
    · rw [hret]
  -- once the room is found, the slot and the head are two more steps
  have hwrite : ∀ r : RingBuffer Entry,
      (machine N zero).exec { s with ring := r, producer := .writeSlot entry r.head }
        [.producer, .producer] = some { s with
          ring := r.accept N entry
          producer := .returned (some ())
          accepted := s.accepted ++ [(r.head, entry)] } := fun r => rfl
  unfold tryPush
  simp only
  by_cases hshadow : nextIndex N s.ring.head = s.ring.shadowTail
  · have hload : (machine N zero).step { s with producer := .readShadow entry s.ring.head }
        .producer = some { s with producer := .loadTail entry s.ring.head } := if_pos hshadow
    rw [if_pos hshadow]
    by_cases hfull : nextIndex N s.ring.head = s.ring.tail
    · have hrefuse : (machine N zero).step { s with producer := .loadTail entry s.ring.head }
          .producer = some { s with
            ring := { s.ring with shadowTail := s.ring.tail }
            producer := .returned none } := if_pos hfull
      rw [if_pos hfull]
      exact ⟨2, _, ((Machine.exec_step _ hstart _).trans (Machine.exec_step _ hload _)).trans
        (Machine.exec_step _ hrefuse []), rfl, rfl, rfl⟩
    · have hroom : (machine N zero).step { s with producer := .loadTail entry s.ring.head }
          .producer = some { s with
            ring := { s.ring with shadowTail := s.ring.tail }
            producer := .writeSlot entry s.ring.head } := if_neg hfull
      rw [if_neg hfull]
      exact ⟨4, _, (((Machine.exec_step _ hstart _).trans (Machine.exec_step _ hload _)).trans
        (Machine.exec_step _ hroom _)).trans (hwrite { s.ring with shadowTail := s.ring.tail }),
        rfl, rfl, rfl⟩
  · have hroom : (machine N zero).step { s with producer := .readShadow entry s.ring.head }
        .producer = some { s with producer := .writeSlot entry s.ring.head } := if_neg hshadow
    rw [if_neg hshadow]
    exact ⟨3, _, ((Machine.exec_step _ hstart _).trans (Machine.exec_step _ hroom _)).trans
      (hwrite s.ring), rfl, rfl, rfl⟩

/-- The consumer alone, from outside a call, does what `tryPop` does. -/
theorem exec_tryPop (zero : Entry) (hq : Quiet s) :
    ∃ n s', (machine N zero).exec s (.tryPop :: List.replicate n .consumer) = some s' ∧
      s'.ring = (tryPop N s.ring).1 ∧ s'.producer = s.producer ∧
      s'.consumer = .returned (tryPop N s.ring).2 := by
  have hstart : (machine N zero).step s .tryPop
      = some { s with consumer := .readShadow s.ring.tail } := by
    show startPop s = _
    unfold startPop
    rcases hq.consumer with hidle | ⟨result, hret⟩
    · rw [hidle]
    · rw [hret]
  have hread : ∀ r : RingBuffer Entry,
      (machine N zero).exec { s with ring := r, consumer := .readSlot r.tail }
        [.consumer, .consumer] = some { s with
          ring := (r.take N).1
          consumer := .returned (r.take N).2
          popped := s.popped ++ [r.buffer r.tail] } := fun r => rfl
  unfold tryPop
  simp only
  by_cases hshadow : s.ring.tail = s.ring.shadowHead
  · have hload : (machine N zero).step { s with consumer := .readShadow s.ring.tail }
        .consumer = some { s with consumer := .loadHead s.ring.tail } := if_pos hshadow
    rw [if_pos hshadow]
    by_cases hempty : s.ring.tail = s.ring.head
    · have hrefuse : (machine N zero).step { s with consumer := .loadHead s.ring.tail }
          .consumer = some { s with
            ring := { s.ring with shadowHead := s.ring.head }
            consumer := .returned none } := if_pos hempty
      rw [if_pos hempty]
      exact ⟨2, _, ((Machine.exec_step _ hstart _).trans (Machine.exec_step _ hload _)).trans
        (Machine.exec_step _ hrefuse []), rfl, rfl, rfl⟩
    · have hfound : (machine N zero).step { s with consumer := .loadHead s.ring.tail }
          .consumer = some { s with
            ring := { s.ring with shadowHead := s.ring.head }
            consumer := .readSlot s.ring.tail } := if_neg hempty
      rw [if_neg hempty]
      exact ⟨4, _, (((Machine.exec_step _ hstart _).trans (Machine.exec_step _ hload _)).trans
        (Machine.exec_step _ hfound _)).trans (hread { s.ring with shadowHead := s.ring.head }),
        rfl, rfl, rfl⟩
  · have hfound : (machine N zero).step { s with consumer := .readShadow s.ring.tail }
        .consumer = some { s with consumer := .readSlot s.ring.tail } := if_neg hshadow
    rw [if_neg hshadow]
    exact ⟨3, _, ((Machine.exec_step _ hstart _).trans (Machine.exec_step _ hfound _)).trans
      (hread s.ring), rfl, rfl, rfl⟩

/-! ### Observers and operations -/

/-- The observers describe what the calls so far have done and what the next one would do. -/
structure Agrees (N : Nat) (s : State Entry) : Prop where
  len : len N s.ring + s.popped.length = s.accepted.length
  bound : Spsc.len N s.ring ≤ N - 1
  queued : queued N s.ring = (s.accepted.drop s.popped.length).map Prod.snd
  full : ∀ entry, (tryPush N s.ring entry).2 = none ↔ isFull N s.ring = true
  empty : (tryPop N s.ring).2 = none ↔ isEmpty N s.ring = true
  /-- A refused call changes neither the length nor the entries. -/
  pushRefused : ∀ entry, (tryPush N s.ring entry).2 = none →
    Spsc.len N (tryPush N s.ring entry).1 = Spsc.len N s.ring ∧
      Spsc.queued N (tryPush N s.ring entry).1 = Spsc.queued N s.ring
  popRefused : (tryPop N s.ring).2 = none →
    Spsc.len N (tryPop N s.ring).1 = Spsc.len N s.ring ∧
      Spsc.queued N (tryPop N s.ring).1 = Spsc.queued N s.ring
  /-- A push appends its entry, a pop hands out the first one. -/
  pushAccepted : ∀ entry, (tryPush N s.ring entry).2 = some () →
    Spsc.len N (tryPush N s.ring entry).1 = Spsc.len N s.ring + 1 ∧
      Spsc.queued N (tryPush N s.ring entry).1 = Spsc.queued N s.ring ++ [entry]
  popTaken : ∀ entry, (tryPop N s.ring).2 = some entry →
    Spsc.len N s.ring = Spsc.len N (tryPop N s.ring).1 + 1 ∧
      Spsc.queued N s.ring = entry :: Spsc.queued N (tryPop N s.ring).1

theorem Inv.agrees (hcap : N.isPowerOfTwo) (hword : N < 2 ^ 64) (h : Inv N st sh s) :
    Agrees N s := by
  have hN : 0 < N := by
    obtain ⟨k, rfl⟩ := hcap
    exact Nat.two_pow_pos k
  obtain ⟨hlen, hbound⟩ := h.len_eq hcap hword
  refine ⟨hlen, hbound, h.queued_eq hcap hword, fun entry => ?_, ?_, fun entry hnone => ?_,
    fun hnone => ?_, fun _ => h.push_accepted hcap hword, fun _ => h.pop_taken hcap hword⟩
  · rw [h.tryPush_none_iff hcap entry]
    unfold isFull
    rw [beq_iff_eq]
    omega
  · rw [h.tryPop_none_iff]
    unfold isEmpty
    rw [beq_iff_eq]
    omega
  · rw [(tryPush_none hnone).2]
    exact ⟨rfl, rfl⟩
  · rw [(tryPop_none hnone).2]
    exact ⟨rfl, rfl⟩

/--
**The observers agree with the operations.**  In every state any interleaving
reaches, so in particular after any calls that have completed, in whatever order:
`len` is the number of successful pushes less the number of successful pops and
below the capacity, `is_full` says whether a push would be refused and `is_empty`
whether a pop would be, a refused call changes neither the length nor the entries,
a push that is not refused adds its entry at the end, and a pop hands out the entry
that has waited longest.
-/
theorem observers_agree (CAPACITY : Nat) (hcap : CAPACITY.isPowerOfTwo) (hword : CAPACITY < 2 ^ 64)
    (zero : Entry) (hs : (machine CAPACITY zero).Reaches s) : Agrees CAPACITY s := by
  obtain ⟨st, sh, h⟩ := reaches_inv hcap hs
  exact h.agrees hcap hword

/-- Three pushes, then one pop. -/
def staleRun : List (Label Nat) :=
  [.tryPush 7, .producer, .producer, .producer, .tryPush 8, .producer, .producer, .producer,
    .tryPush 9, .producer, .producer, .producer, .tryPop, .consumer, .consumer, .consumer,
    .consumer]

/-- With four slots the producer's shadow then still says full. -/
theorem observers_agree_stale : ∃ s, (machine 4 0).exec (machine 4 0).init staleRun = some s ∧
    nextIndex 4 s.ring.head = s.ring.shadowTail ∧ isFull 4 s.ring = false ∧ Agrees 4 s := by
  have hrun : ((machine 4 0).exec (machine 4 0).init staleRun).map (fun s =>
      (nextIndex 4 s.ring.head, s.ring.shadowTail, isFull 4 s.ring)) = some (0, 0, false) := by
    decide +kernel
  obtain ⟨s, hs, hvals⟩ := Option.map_eq_some_iff.mp hrun
  obtain ⟨hnext, hshadow, hfull⟩ : _ ∧ _ ∧ _ := by simpa using hvals
  exact ⟨s, hs, hnext.trans hshadow.symm, hfull,
    observers_agree 4 ⟨2, rfl⟩ (by decide) 0 ⟨staleRun, hs⟩⟩

end Aethalloc.Spsc
