/-
The ring buffer is a bounded FIFO under every interleaving.

The indices of the code wrap, so the invariant speaks of what they stand for: the
number of entries accepted so far and the number popped so far.  `head` is the
first modulo the capacity and `tail` the second, and the two never drift apart by
as much as the capacity.

Each shadow is an old value of the other side's index.  What makes deciding on an
old value safe is that it errs on one side only: the producer's shadow stands for
a count that is at most the true one, so room under the shadow is room in truth,
and the consumer's stands for a count at most the number accepted, so an entry
under the shadow is there.  The two counts are the parameters `st` and `sh` of
the invariant, because the program counters have to speak about them too: between
deciding and storing, each side relies on the very count it decided on.
-/
import Mathlib.Data.List.Infix
import Mathlib.Tactic.Ring
import Aethalloc.Amo.RingBuffer

namespace Aethalloc.Spsc

open Lib

variable {Entry : Type} {N st sh : Nat} {s s' : State Entry}

/-! ### Indices and counts -/

/-- Two counts less than a lap apart with the same index are the same count. -/
theorem eq_of_mod_eq {i j : Nat} (h : i % N = j % N) (hle : i ≤ j) (hlt : j < i + N) : i = j := by
  have hdvd : N ∣ j - i := Nat.dvd_of_mod_eq_zero (Nat.sub_mod_eq_zero_of_mod_eq h.symm)
  have hzero : j - i = 0 := Nat.eq_zero_of_dvd_of_lt hdvd (by omega)
  omega

/-- Stepping an index steps the count it stands for. -/
theorem nextIndex_mod (hcap : N.isPowerOfTwo) (n : Nat) : nextIndex N (n % N) = (n + 1) % N := by
  obtain ⟨k, rfl⟩ := hcap
  rw [nextIndex, Nat.and_two_pow_sub_one_eq_mod, Nat.mod_add_mod]

/-! ### The invariant -/

/-- What the producer knows at each point of `try_push`. -/
def ProducerOK (N st : Nat) (s : State Entry) : Prop :=
  match s.producer with
  | .idle | .returned _ => True
  | .readShadow _ head | .loadTail _ head => head = s.accepted.length % N
  | .writeSlot _ head => head = s.accepted.length % N ∧ s.accepted.length + 2 ≤ st + N
  | .storeHead entry head =>
      head = s.accepted.length % N ∧ s.accepted.length + 2 ≤ st + N ∧ s.ring.buffer head = entry

/-- What the consumer knows at each point of `try_pop`. -/
def ConsumerOK (N sh : Nat) (s : State Entry) : Prop :=
  match s.consumer with
  | .idle | .returned _ => True
  | .readShadow tail | .loadHead tail => tail = s.popped.length % N
  | .readSlot tail => tail = s.popped.length % N ∧ s.popped.length < sh
  | .storeTail tail entry =>
      tail = s.popped.length % N ∧ s.popped.length < sh ∧
        (s.accepted.map Prod.snd)[s.popped.length]? = some entry

/-- The state of a buffer of capacity `N` whose shadows stand for the counts `st` and `sh`. -/
structure Inv (N st sh : Nat) (s : State Entry) : Prop where
  head : s.ring.head = s.accepted.length % N
  tail : s.ring.tail = s.popped.length % N
  shadowTail : s.ring.shadowTail = st % N
  shadowHead : s.ring.shadowHead = sh % N
  stale : st ≤ s.popped.length
  room : s.accepted.length + 1 ≤ st + N
  behind : s.popped.length ≤ sh
  known : sh ≤ s.accepted.length
  slot : ∀ i j e, s.accepted[i]? = some (j, e) → j = i % N
  held : ∀ i j e, s.accepted[i]? = some (j, e) → s.popped.length ≤ i → s.ring.buffer j = e
  fifo : s.popped <+: s.accepted.map Prod.snd
  producer : ProducerOK N st s
  consumer : ConsumerOK N sh s

theorem inv_start (hcap : N.isPowerOfTwo) (zero : Entry) : Inv N 0 0 (start zero) := by
  obtain ⟨k, rfl⟩ := hcap
  refine ⟨?_, ?_, ?_, ?_, Nat.le_refl _, ?_, Nat.le_refl _, Nat.le_refl _, ?_, ?_, ?_,
    trivial, trivial⟩
  all_goals simp [start, new, Nat.one_le_two_pow]

/-! ### The slot of the next entry is nobody's -/

/-- The slot the producer is about to fill holds no entry still to be popped. -/
theorem Inv.slot_ne (h : Inv N st sh s) {i j : Nat} {e : Entry}
    (hi : s.accepted[i]? = some (j, e)) (hle : s.popped.length ≤ i) :
    j ≠ s.accepted.length % N := by
  intro hc
  have hlt : i < s.accepted.length := (List.getElem?_eq_some_iff.mp hi).1
  have hmod : i % N = s.accepted.length % N := by rw [← h.slot i j e hi, hc]
  have := eq_of_mod_eq hmod (by omega) (by have := h.room; have := h.stale; omega)
  omega

/-! ### One step keeps the invariant -/

theorem startPush_inv {entry : Entry} (h : Inv N st sh s) (hs : startPush s entry = some s') :
    Inv N st sh s' := by
  have heq : s' = { s with producer := .readShadow entry s.ring.head } := by
    unfold startPush at hs
    cases hp : s.producer <;> simp [hp] at hs <;> exact hs.symm
  subst heq
  exact { h with producer := h.head, consumer := h.consumer }

theorem startPop_inv (h : Inv N st sh s) (hs : startPop s = some s') : Inv N st sh s' := by
  have heq : s' = { s with consumer := .readShadow s.ring.tail } := by
    unfold startPop at hs
    cases hc : s.consumer <;> simp [hc] at hs <;> exact hs.symm
  subst heq
  exact { h with producer := h.producer, consumer := h.tail }

/-- Deciding on the shadow, or on the true index once it is loaded. -/
theorem room_of_next_ne (hcap : N.isPowerOfTwo) {P c : Nat} (hroom : P + 1 ≤ c + N)
    (hne : nextIndex N (P % N) ≠ c % N) : P + 2 ≤ c + N := by
  rw [nextIndex_mod hcap] at hne
  rcases Nat.lt_or_ge (P + 1) (c + N) with hlt | hge
  · omega
  · refine absurd ?_ hne
    rw [show P + 1 = c + N by omega, Nat.add_mod_right]

/-- The producer refreshes its shadow: from here on it stands for the true count. -/
theorem Inv.loadTail (h : Inv N st sh s) {p : Producer Entry}
    (hp : ProducerOK N s.popped.length { s with producer := p }) :
    Inv N s.popped.length sh
      { s with ring := { s.ring with shadowTail := s.ring.tail }, producer := p } := by
  have hroom : s.accepted.length + 1 ≤ s.popped.length + N := by
    have := h.room
    have := h.stale
    omega
  exact { h with
    shadowTail := h.tail
    stale := Nat.le_refl _
    room := hroom
    producer := hp
    consumer := h.consumer }

/-- The new entry is in the slot and the rest is where it was. -/
theorem Inv.writeSlot (h : Inv N st sh s) {entry : Entry} {head : Nat}
    (hhead : head = s.accepted.length % N) (hroom : s.accepted.length + 2 ≤ st + N) :
    Inv N st sh { s with
      ring := { s.ring with buffer := Function.update s.ring.buffer head entry }
      producer := .storeHead entry head } := by
  refine { h with held := ?_, producer := ?_, consumer := h.consumer }
  · intro i j e hi hle
    show Function.update s.ring.buffer head entry j = e
    rw [Function.update_of_ne (by rw [hhead]; exact h.slot_ne hi hle)]
    exact h.held i j e hi hle
  · exact ⟨hhead, hroom, Function.update_self ..⟩

/-- An index below the old length is an old entry, the last one is the new entry. -/
theorem getElem?_snoc {α : Type} {l : List α} {x y : α} {i : Nat} (h : (l ++ [x])[i]? = some y) :
    l[i]? = some y ∨ (i = l.length ∧ y = x) := by
  rcases Nat.lt_trichotomy i l.length with hlt | rfl | hgt
  · left
    rwa [List.getElem?_append_left hlt] at h
  · right
    rw [List.getElem?_concat_length] at h
    exact ⟨rfl, (Option.some.inj h).symm⟩
  · rw [List.getElem?_eq_none (by simp; omega)] at h
    cases h

/-- What the consumer knows stays true when an entry is accepted. -/
theorem ConsumerOK.accept {s' : State Entry} (hc : ConsumerOK N sh s) {x : Nat × Entry}
    (hconsumer : s'.consumer = s.consumer) (hpopped : s'.popped = s.popped)
    (haccepted : s'.accepted = s.accepted ++ [x]) : ConsumerOK N sh s' := by
  unfold ConsumerOK at hc ⊢
  rw [hconsumer, hpopped, haccepted]
  cases hcons : s.consumer with
  | storeTail tail e =>
      simp only [hcons] at hc ⊢
      obtain ⟨htail, hlt, hentry⟩ := hc
      refine ⟨htail, hlt, ?_⟩
      rw [List.map_append, List.getElem?_append_left (List.getElem?_eq_some_iff.mp hentry).1]
      exact hentry
  | idle => trivial
  | returned result => trivial
  | readShadow tail => simpa only [hcons] using hc
  | loadHead tail => simpa only [hcons] using hc
  | readSlot tail => simpa only [hcons] using hc

/-- The new entry is accepted. -/
theorem Inv.storeHead (hcap : N.isPowerOfTwo) (h : Inv N st sh s) {entry : Entry} {head : Nat}
    (hhead : head = s.accepted.length % N) (hroom : s.accepted.length + 2 ≤ st + N)
    (hbuf : s.ring.buffer head = entry) :
    Inv N st sh { s with
      ring := { s.ring with head := nextIndex N head }
      producer := .returned (some ())
      accepted := s.accepted ++ [(head, entry)] } := by
  have hlen : (s.accepted ++ [(head, entry)]).length = s.accepted.length + 1 := by simp
  refine {
    head := ?_
    tail := h.tail
    shadowTail := h.shadowTail
    shadowHead := h.shadowHead
    stale := h.stale
    room := by rw [hlen]; omega
    behind := h.behind
    known := by rw [hlen]; have := h.known; omega
    slot := ?_
    held := ?_
    fifo := ?_
    producer := trivial
    consumer := h.consumer.accept rfl rfl rfl }
  · show nextIndex N head = (s.accepted ++ [(head, entry)]).length % N
    rw [hlen, hhead, nextIndex_mod hcap]
  · intro i j e hi
    rcases getElem?_snoc hi with hold | ⟨rfl, heq⟩
    · exact h.slot i j e hold
    · rw [(Prod.mk.inj heq).1]
      exact hhead
  · intro i j e hi hle
    rcases getElem?_snoc hi with hold | ⟨-, heq⟩
    · exact h.held i j e hold hle
    · obtain ⟨rfl, rfl⟩ := Prod.mk.inj heq
      exact hbuf
  · rw [List.map_append]
    exact h.fifo.trans (List.prefix_append _ _)

theorem stepPush_inv (hcap : N.isPowerOfTwo) (h : Inv N st sh s)
    (hs : stepPush N s = some s') : ∃ st', Inv N st' sh s' := by
  have hP := h.producer
  unfold stepPush at hs
  unfold ProducerOK at hP
  cases hp : s.producer with
  | idle => simp [hp] at hs
  | returned result => simp [hp] at hs
  | readShadow entry head =>
      simp only [hp] at hs hP
      split at hs
      · obtain rfl := Option.some.inj hs
        exact ⟨st, { h with producer := hP, consumer := h.consumer }⟩
      · rename_i hne
        obtain rfl := Option.some.inj hs
        rw [h.shadowTail, hP] at hne
        exact ⟨st, { h with
          producer := ⟨hP, room_of_next_ne hcap h.room hne⟩
          consumer := h.consumer }⟩
  | loadTail entry head =>
      simp only [hp] at hs hP
      split at hs
      · obtain rfl := Option.some.inj hs
        exact ⟨s.popped.length, h.loadTail trivial⟩
      · rename_i hne
        obtain rfl := Option.some.inj hs
        rw [h.tail, hP] at hne
        have hroom : s.accepted.length + 1 ≤ s.popped.length + N := by
          have := h.room
          have := h.stale
          omega
        exact ⟨s.popped.length, h.loadTail ⟨hP, room_of_next_ne hcap hroom hne⟩⟩
  | writeSlot entry head =>
      simp only [hp] at hs hP
      obtain rfl := Option.some.inj hs
      exact ⟨st, h.writeSlot hP.1 hP.2⟩
  | storeHead entry head =>
      simp only [hp] at hs hP
      obtain rfl := Option.some.inj hs
      obtain ⟨hhead, hroom, hbuf⟩ := hP
      exact ⟨st, h.storeHead hcap hhead hroom hbuf⟩

/-- The consumer refreshes its shadow. -/
theorem Inv.loadHead (h : Inv N st sh s) {c : Consumer Entry}
    (hc : ConsumerOK N s.accepted.length { s with consumer := c }) :
    Inv N st s.accepted.length
      { s with ring := { s.ring with shadowHead := s.ring.head }, consumer := c } :=
  { h with
    shadowHead := h.head
    behind := Nat.le_trans h.behind h.known
    known := Nat.le_refl _
    producer := h.producer
    consumer := hc }

/-- Indices that differ stand for counts that differ. -/
theorem lt_of_index_ne {n m : Nat} (hle : n ≤ m) (hne : n % N ≠ m % N) : n < m := by
  rcases Nat.lt_or_ge n m with hlt | hge
  · exact hlt
  · rw [Nat.le_antisymm hle hge] at hne
    exact absurd rfl hne

/-- The oldest entry not yet popped is still in its slot. -/
theorem Inv.readSlot (h : Inv N st sh s) {tail : Nat} (htail : tail = s.popped.length % N)
    (hlt : s.popped.length < sh) :
    (s.accepted.map Prod.snd)[s.popped.length]? = some (s.ring.buffer tail) := by
  obtain ⟨⟨j, e⟩, hje⟩ : ∃ x, s.accepted[s.popped.length]? = some x :=
    ⟨_, List.getElem?_eq_getElem (Nat.lt_of_lt_of_le hlt h.known)⟩
  have hj : j = tail := by rw [h.slot _ j e hje, htail]
  have hval := h.held _ j e hje (Nat.le_refl _)
  rw [List.getElem?_map, hje, ← hj, hval]
  rfl

/-- The oldest entry is popped. -/
theorem Inv.storeTail (hcap : N.isPowerOfTwo) (h : Inv N st sh s) {entry : Entry} {tail : Nat}
    (htail : tail = s.popped.length % N) (hlt : s.popped.length < sh)
    (hentry : (s.accepted.map Prod.snd)[s.popped.length]? = some entry) :
    Inv N st sh { s with
      ring := { s.ring with tail := nextIndex N tail }
      consumer := .returned (some entry)
      popped := s.popped ++ [entry] } := by
  have hlen : (s.popped ++ [entry]).length = s.popped.length + 1 := by simp
  refine { h with
    tail := ?_
    stale := by rw [hlen]; have := h.stale; omega
    behind := by rw [hlen]; omega
    held := fun i j e hi hle => h.held i j e hi (by rw [hlen] at hle; omega)
    fifo := ?_
    producer := h.producer
    consumer := trivial }
  · show nextIndex N tail = (s.popped ++ [entry]).length % N
    rw [htail, nextIndex_mod hcap, hlen]
  · obtain ⟨rest, hrest⟩ := h.fifo
    rw [← hrest, List.getElem?_append_right (Nat.le_refl _), Nat.sub_self] at hentry
    obtain ⟨rest', rfl⟩ : ∃ rest', rest = entry :: rest' := by
      cases rest with
      | nil => simp at hentry
      | cons x rest' => exact ⟨rest', by simpa using hentry⟩
    exact ⟨rest', by rw [← hrest]; simp⟩

theorem stepPop_inv (hcap : N.isPowerOfTwo) (h : Inv N st sh s)
    (hs : stepPop N s = some s') : ∃ sh', Inv N st sh' s' := by
  have hC := h.consumer
  unfold stepPop at hs
  unfold ConsumerOK at hC
  cases hc : s.consumer with
  | idle => simp [hc] at hs
  | returned result => simp [hc] at hs
  | readShadow tail =>
      simp only [hc] at hs hC
      split at hs
      · obtain rfl := Option.some.inj hs
        exact ⟨sh, { h with producer := h.producer, consumer := hC }⟩
      · rename_i hne
        obtain rfl := Option.some.inj hs
        rw [hC, h.shadowHead] at hne
        have hlt := lt_of_index_ne h.behind hne
        exact ⟨sh, { h with producer := h.producer, consumer := ⟨hC, hlt⟩ }⟩
  | loadHead tail =>
      simp only [hc] at hs hC
      split at hs
      · obtain rfl := Option.some.inj hs
        exact ⟨s.accepted.length, h.loadHead trivial⟩
      · rename_i hne
        obtain rfl := Option.some.inj hs
        rw [hC, h.head] at hne
        have hlt := lt_of_index_ne (Nat.le_trans h.behind h.known) hne
        exact ⟨s.accepted.length, h.loadHead ⟨hC, hlt⟩⟩
  | readSlot tail =>
      simp only [hc] at hs hC
      obtain rfl := Option.some.inj hs
      exact ⟨sh, { h with
        producer := h.producer
        consumer := ⟨hC.1, hC.2, h.readSlot hC.1 hC.2⟩ }⟩
  | storeTail tail entry =>
      simp only [hc] at hs hC
      obtain rfl := Option.some.inj hs
      obtain ⟨htail, hlt, hentry⟩ := hC
      exact ⟨sh, h.storeTail hcap htail hlt hentry⟩

/-- The invariant holds in every state any interleaving reaches. -/
theorem reaches_inv (hcap : N.isPowerOfTwo) {zero : Entry} (hs : (machine N zero).Reaches s) :
    ∃ st sh, Inv N st sh s := by
  refine Machine.Reaches.invariant (P := fun s => ∃ st sh, Inv N st sh s)
    ⟨0, 0, inv_start hcap zero⟩ ?_ hs
  rintro s l s' ⟨st, sh, h⟩ hstep
  cases l with
  | tryPush entry => exact ⟨st, sh, startPush_inv h hstep⟩
  | producer =>
      obtain ⟨st', h'⟩ := stepPush_inv hcap h hstep
      exact ⟨st', sh, h'⟩
  | tryPop => exact ⟨st, sh, startPop_inv h hstep⟩
  | consumer =>
      obtain ⟨sh', h'⟩ := stepPop_inv hcap h hstep
      exact ⟨st, sh', h'⟩

/-! ### When a call refuses -/

/-- `try_push` refuses at its load of `tail`, and only when the buffer is full there. -/
theorem Inv.push_refused (hcap : N.isPowerOfTwo) (h : Inv N st sh s)
    (hs : stepPush N s = some s') (hnone : s'.producer = .returned none) :
    (∃ entry head, s.producer = .loadTail entry head) ∧
      s.accepted.length = s.popped.length + (N - 1) := by
  have hP := h.producer
  unfold stepPush at hs
  unfold ProducerOK at hP
  cases hp : s.producer with
  | loadTail entry head =>
      simp only [hp] at hs hP
      refine ⟨⟨entry, head, rfl⟩, ?_⟩
      split at hs
      · rename_i hfull
        rw [hP, nextIndex_mod hcap, h.tail] at hfull
        have hroom := h.room
        have hstale := h.stale
        have hle := Nat.le_trans h.behind h.known
        -- one more entry would come round to the slot of the oldest one
        rcases Nat.lt_or_ge (s.accepted.length + 1) (s.popped.length + N) with hlt | hge
        · have := eq_of_mod_eq hfull.symm (by omega) hlt
          omega
        · omega
      · obtain rfl := Option.some.inj hs
        simp at hnone
  | idle => simp [hp] at hs
  | returned result => simp [hp] at hs
  | readShadow entry head =>
      simp only [hp] at hs
      split at hs <;> (obtain rfl := Option.some.inj hs; simp at hnone)
  | writeSlot entry head =>
      simp only [hp] at hs
      obtain rfl := Option.some.inj hs
      simp at hnone
  | storeHead entry head =>
      simp only [hp] at hs
      obtain rfl := Option.some.inj hs
      simp at hnone

/-- `try_pop` refuses at its load of `head`, and only when the buffer is empty there. -/
theorem Inv.pop_refused (h : Inv N st sh s) (hs : stepPop N s = some s')
    (hnone : s'.consumer = .returned none) :
    (∃ tail, s.consumer = .loadHead tail) ∧ s.accepted.length = s.popped.length := by
  have hC := h.consumer
  unfold stepPop at hs
  unfold ConsumerOK at hC
  cases hc : s.consumer with
  | loadHead tail =>
      simp only [hc] at hs hC
      refine ⟨⟨tail, rfl⟩, ?_⟩
      split at hs
      · rename_i hempty
        rw [hC, h.head] at hempty
        have hroom := h.room
        have hstale := h.stale
        exact (eq_of_mod_eq hempty (Nat.le_trans h.behind h.known) (by omega)).symm
      · obtain rfl := Option.some.inj hs
        simp at hnone
  | idle => simp [hc] at hs
  | returned result => simp [hc] at hs
  | readShadow tail =>
      simp only [hc] at hs
      split at hs <;> (obtain rfl := Option.some.inj hs; simp at hnone)
  | readSlot tail =>
      simp only [hc] at hs
      obtain rfl := Option.some.inj hs
      simp at hnone
  | storeTail tail entry =>
      simp only [hc] at hs
      obtain rfl := Option.some.inj hs
      simp at hnone

/--
**The ring buffer is a bounded FIFO under every interleaving.**  In every state
the two sides can reach together: what has been popped is a prefix of what has
been accepted; every accepted entry whose pop has not stored its new tail is
still in the slot it was written to, and the producer, when it is about to write,
writes to none of those slots; and a call that returns nothing does so at its
load of the other side's index, with the buffer full, respectively empty, at that
moment.
-/
theorem spsc_bounded_fifo (CAPACITY : Nat) (hcap : CAPACITY.isPowerOfTwo) (zero : Entry)
    (hs : (machine CAPACITY zero).Reaches s) :
    s.popped <+: s.accepted.map Prod.snd ∧
    (∀ j e, (j, e) ∈ s.accepted.drop s.popped.length → s.ring.buffer j = e) ∧
    (∀ entry head, s.producer = .writeSlot entry head →
      ∀ j e, (j, e) ∈ s.accepted.drop s.popped.length → j ≠ head) ∧
    (∀ s', (machine CAPACITY zero).step s .producer = some s' → s'.producer = .returned none →
      (∃ entry head, s.producer = .loadTail entry head) ∧
        s.accepted.length = s.popped.length + (CAPACITY - 1)) ∧
    (∀ s', (machine CAPACITY zero).step s .consumer = some s' → s'.consumer = .returned none →
      (∃ tail, s.consumer = .loadHead tail) ∧ s.accepted.length = s.popped.length) := by
  obtain ⟨st, sh, h⟩ := reaches_inv hcap hs
  -- an entry still to be popped sits at a position from the popped count on
  have hpos : ∀ x ∈ s.accepted.drop s.popped.length,
      ∃ i, s.popped.length ≤ i ∧ s.accepted[i]? = some x := by
    intro x hx
    obtain ⟨k, hk⟩ := List.getElem?_of_mem hx
    rw [List.getElem?_drop] at hk
    exact ⟨s.popped.length + k, by omega, hk⟩
  refine ⟨h.fifo, ?_, ?_, fun s' hstep => h.push_refused hcap hstep,
    fun s' hstep => h.pop_refused hstep⟩
  · intro j e hmem
    obtain ⟨i, hle, hi⟩ := hpos _ hmem
    exact h.held i j e hi hle
  · intro entry head hw j e hmem
    obtain ⟨i, hle, hi⟩ := hpos _ hmem
    have hP := h.producer
    unfold ProducerOK at hP
    rw [hw] at hP
    rw [hP.1]
    exact h.slot_ne hi hle

/-- The pop of 7 has read its entry but not stored its tail when the push of 10 finds the buffer full
by its shadow; the push of 11 comes round to the first slot, and there is no room for 12. -/
def fifthPush : List (Label Nat) :=
  [.tryPush 7, .producer, .producer, .producer, .tryPush 8, .tryPop, .producer, .consumer,
    .producer, .consumer, .producer, .consumer, .tryPush 9, .producer, .producer, .producer,
    .tryPush 10, .producer, .consumer, .producer, .tryPop, .consumer, .consumer, .producer,
    .consumer, .producer, .consumer, .tryPush 11, .producer, .producer, .producer, .producer,
    .tryPush 12, .producer]

/-- Two of five entries are popped in order, the others are in their slots, and the next push is
refused. -/
theorem spsc_bounded_fifo_fifthPush :
    ∃ s s', (machine 4 0).exec (start 0) fifthPush = some s ∧
      s.accepted = [(0, 7), (1, 8), (2, 9), (3, 10), (0, 11)] ∧ s.popped = [7, 8] ∧
      s.popped <+: s.accepted.map Prod.snd ∧
      (∀ j e, (j, e) ∈ s.accepted.drop s.popped.length → s.ring.buffer j = e) ∧
      (machine 4 0).step s .producer = some s' ∧ s'.producer = .returned none ∧
      s.accepted.length = s.popped.length + (4 - 1) := by
  have hrun : ((machine 4 0).exec (start 0) fifthPush).map (fun s => (s.accepted, s.popped))
      = some ([(0, 7), (1, 8), (2, 9), (3, 10), (0, 11)], [7, 8]) := by decide +kernel
  have hnext : ((machine 4 0).exec (start 0) (fifthPush ++ [.producer])).map State.producer
      = some (.returned none) := by decide +kernel
  obtain ⟨s, hs, hvals⟩ := Option.map_eq_some_iff.mp hrun
  obtain ⟨haccepted, hpopped⟩ := Prod.mk.inj hvals
  obtain ⟨s', hs', hnone⟩ := Option.map_eq_some_iff.mp hnext
  obtain ⟨s₁, hs₁, hstep⟩ := Machine.exec_snoc_inv _ hs'
  obtain rfl : s = s₁ := Option.some.inj (hs.symm.trans hs₁)
  obtain ⟨hfifo, hheld, -, hfull, -⟩ := spsc_bounded_fifo 4 ⟨2, rfl⟩ 0 ⟨fifthPush, hs⟩
  exact ⟨s, s', hs, haccepted, hpopped, hfifo, hheld, hstep, hnone, (hfull s' hstep hnone).2⟩

end Aethalloc.Spsc
