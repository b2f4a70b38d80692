/-
Simple caching, one memory access at a time.

The other model of simple-cache mode takes a call as one step.  Here the small
paths of `alloc` and `dealloc` are programs, and every access to a word that
another thread might see is a step: the loads and compare-and-swaps of the global
lists' heads, and the reads and writes of the blocks' first words.  That word is
the link while a block is free and the requested size while it is live, and a pop
that was overtaken reads whichever is there.  A thread's own heads and counts are
nobody else's, so they change together with the access before them.

The limit at which a list is cut and the number of blocks a batch takes over are
parameters.  `carved` and `live` are history: the blocks made so far, with their
class, and those that a client has.
-/
import Aethalloc.Lib.Machine
import Aethalloc.Lib.Chain
import Aethalloc.Abi.SimpleCache

namespace Aethalloc.Abi.SimpleExchange

open Lib

/-- Where a thread is inside `alloc` (for a class and a size) or `dealloc`. -/
inductive Pc
  | idle
  /-- A block is at the head of the thread's list; its link is read next. -/
  | serve (c size block : Nat)
  /-- The size is written into the block, which is then returned. -/
  | stamp (c size block : Nat)
  /-- The thread's list is empty: is the global one, too? -/
  | probe (c size : Nat)
  /-- `pop_batch` with so many blocks transferred, in `pop`. -/
  | popLoad (c size transferred : Nat)
  | popRead (c size transferred current : Nat)
  | popCas (c size transferred current : Nat) (next : Option Nat)
  /-- `pop` has returned the block, which goes in front of the thread's list. -/
  | keep (c size transferred block : Nat)
  /-- A page for many blocks is asked for. -/
  | mapPage (c size : Nat)
  /-- Pages for a single block are asked for. -/
  | mapSingle (c size : Nat)
  /-- The blocks of the page at `base` go to the thread's list, block `i` next. -/
  | carve (c size base i : Nat)
  /-- `dealloc` reads the size of the block. -/
  | readSize (block : Nat)
  | free (c block : Nat)
  /-- The walk to the last block of the batch. -/
  | walk (c flushCount batchHead batchTail walked : Nat)
  | cut (c flushCount batchHead batchTail : Nat)
  | detach (c flushCount batchHead batchTail : Nat) (newLocalHead : Option Nat)
  /-- `push_batch`. -/
  | pushLoad (c batchHead batchTail : Nat)
  | pushWrite (c batchHead batchTail : Nat) (current : Option Nat)
  | pushCas (c batchHead batchTail : Nat) (current : Option Nat)
  deriving DecidableEq

structure State (Tid : Type) where
  /-- The first word of a block. -/
  word : Nat → Nat
  /-- The heads of the global lists, by class. -/
  head : Nat → Option Nat
  heads : Tid → Nat → Option Nat
  counts : Tid → Nat → Nat
  pc : Tid → Pc
  carved : List (Nat × Nat)
  live : List Nat

inductive Label (Tid : Type)
  /-- The thread enters `alloc` with a small layout. -/
  | alloc (t : Tid) (size : Nat)
  /-- The thread enters `dealloc` with the block of a client. -/
  | dealloc (t : Tid) (block : Nat)
  /-- Its next load, read or write. -/
  | move (t : Tid)
  /-- Its next compare-and-swap, which may fail although the values agree. -/
  | cas (t : Tid) (spurious : Bool)
  /-- The kernel's answer to the pages it asked for. -/
  | map (t : Tid) (answer : Option Nat)

/-! ### Sizes -/

def cacheSize (size : Nat) : Nat := max (roundUpPow2 size) 16

def blockSize (size : Nat) : Nat := cacheSize size + CACHE_HEADER_SIZE

def blocksPerPage (size : Nat) : Nat := PAGE_SIZE / blockSize size

/-- The class `dealloc` finds for a block from its first word: nothing if it is no small block. -/
def headerClass (word : Nat) : Option Nat :=
  if word % 2 ^ 32 = LARGE_MAGIC then
    none
  else if 0 < word ∧ word ≤ MAX_CACHE_SIZE ∧ word % 2 ^ 32 ≠ MAGIC then
    sizeToClass (cacheSize word)
  else
    none

/-! ### Steps -/

section Steps

variable {Tid : Type} [DecidableEq Tid]

/-- A block's first word, read as a pointer. -/
def State.link (s : State Tid) (block : Nat) : Option Nat :=
  if s.word block = 0 then none else some (s.word block)

def setPc (s : State Tid) (t : Tid) (pc : Pc) : State Tid :=
  { s with pc := Function.update s.pc t pc }

def setWord (s : State Tid) (block word : Nat) : State Tid :=
  { s with word := Function.update s.word block word }

/-- `heads[class]` and `counts[class]`. -/
def setList (s : State Tid) (t : Tid) (c : Nat) (head : Option Nat) (count : Nat) : State Tid :=
  { s with
    heads := Function.update s.heads t (Function.update (s.heads t) c head)
    counts := Function.update s.counts t (Function.update (s.counts t) c count) }

def setHead (s : State Tid) (c : Nat) (head : Option Nat) : State Tid :=
  { s with head := Function.update s.head c head }

/-- Put a block in front of the thread's list. -/
def pushLocal (s : State Tid) (t : Tid) (c block : Nat) : State Tid :=
  setList (setWord s block (toPtr (s.heads t c))) t c (some block) (s.counts t c + 1)

/-- A cache miss. -/
def missPc (c size : Nat) : Pc :=
  if blocksPerPage size > 1 then .mapPage c size else .mapSingle c size

/-- What `alloc` goes on with when the batch is over. -/
def afterBatch (s : State Tid) (t : Tid) (c size transferred : Nat) : Pc :=
  if transferred > 0 then .serve c size (toPtr (s.heads t c)) else missPc c size

/-- The head of the loop of `pop_batch`. -/
def batchPc (batch : Nat) (s : State Tid) (t : Tid) (c size transferred : Nat) : Pc :=
  if transferred < batch then .popLoad c size transferred else afterBatch s t c size transferred

/-- The head of the loop of `pop`. -/
def popPc (s : State Tid) (t : Tid) (c size transferred : Nat) : Pc :=
  match s.head c with
  | none => afterBatch s t c size transferred
  | some current => .popRead c size transferred current

/-- The head of the loop over a page's blocks. -/
def carvePc (c size base i : Nat) : Pc :=
  if i < blocksPerPage size then .carve c size base i else .stamp c size base

/-- The head of the loop of the walk: at null it ends and nothing is flushed. -/
def walkPc (c flushCount batchHead walked : Nat) : Option Nat → Pc
  | none => .idle
  | some batchTail =>
      if walked < flushCount then .walk c flushCount batchHead batchTail walked
      else .cut c flushCount batchHead batchTail

/-- A list that has grown to the limit is flushed. -/
def flushPc (limit : Nat) (s : State Tid) (t : Tid) (c : Nat) : Pc :=
  if s.counts t c ≥ limit then
    walkPc c (s.counts t c / 2) (toPtr (s.heads t c)) 1 (s.heads t c)
  else
    .idle

def stepAlloc (s : State Tid) (t : Tid) (size : Nat) : Option (State Tid) :=
  if s.pc t = .idle ∧ 0 < size ∧ size ≤ MAX_CACHE_SIZE then
    match sizeToClass (cacheSize size) with
    | none => none
    | some c =>
        match s.heads t c with
        | some block => some (setPc s t (.serve c size block))
        | none => some (setPc s t (.probe c size))
  else
    none

def stepDealloc (s : State Tid) (t : Tid) (block : Nat) : Option (State Tid) :=
  if s.pc t = .idle ∧ block ∈ s.live then
    some (setPc { s with live := s.live.erase block } t (.readSize block))
  else
    none

def stepMove (limit batch : Nat) (s : State Tid) (t : Tid) : Option (State Tid) :=
  match s.pc t with
  | .serve c size block =>
      some (setPc (setList s t c (s.link block) (s.counts t c - 1)) t (.stamp c size block))
  | .stamp _ size block =>
      some (setPc { setWord s block size with live := block :: s.live } t .idle)
  | .probe c size =>
      match s.head c with
      | none => some (setPc s t (missPc c size))
      | some _ => some (setPc s t (batchPc batch s t c size 0))
  | .popLoad c size transferred => some (setPc s t (popPc s t c size transferred))
  | .popRead c size transferred current =>
      some (setPc s t (.popCas c size transferred current (s.link current)))
  | .keep c size transferred block =>
      let s := pushLocal s t c block
      some (setPc s t (batchPc batch s t c size (transferred + 1)))
  | .carve c size base i =>
      some (setPc (pushLocal s t c (base + i * blockSize size)) t (carvePc c size base (i + 1)))
  | .readSize block =>
      match headerClass (s.word block) with
      | none => none
      | some c => some (setPc s t (.free c block))
  | .free c block =>
      let s := pushLocal s t c block
      some (setPc s t (flushPc limit s t c))
  | .walk c flushCount batchHead batchTail walked =>
      some (setPc s t (walkPc c flushCount batchHead (walked + 1) (s.link batchTail)))
  | .cut c flushCount batchHead batchTail =>
      some (setPc s t (.detach c flushCount batchHead batchTail (s.link batchTail)))
  | .detach c flushCount batchHead batchTail newLocalHead =>
      some (setPc (setList (setWord s batchTail 0) t c newLocalHead (s.counts t c - flushCount)) t
        (.pushLoad c batchHead batchTail))
  | .pushLoad c batchHead batchTail =>
      some (setPc s t (.pushWrite c batchHead batchTail (s.head c)))
  | .pushWrite c batchHead batchTail current =>
      some (setPc (setWord s batchTail (toPtr current)) t (.pushCas c batchHead batchTail current))
  | .idle | .popCas .. | .mapPage .. | .mapSingle .. | .pushCas .. => none

def stepCas (s : State Tid) (t : Tid) (spurious : Bool) : Option (State Tid) :=
  match s.pc t with
  | .popCas c size transferred current next =>
      if s.head c = some current ∧ spurious = false then
        some (setPc (setHead s c next) t (.keep c size transferred current))
      else
        some (setPc s t (popPc s t c size transferred))
  | .pushCas c batchHead batchTail current =>
      if s.head c = current ∧ spurious = false then
        some (setPc (setHead s c (some batchHead)) t .idle)
      else
        some (setPc s t (.pushWrite c batchHead batchTail (s.head c)))
  | _ => none

/-- The first `n` blocks of the pages at `base`. -/
def blocksAt (size base n : Nat) : List Nat := (List.range n).map fun i => base + i * blockSize size

/-- The kernel maps pages that are not in use, and none at null. -/
def Unused (s : State Tid) (blocks : List Nat) : Prop :=
  ∀ b ∈ blocks, b ≠ 0 ∧ b ∉ s.carved.map Prod.snd

instance (s : State Tid) (blocks : List Nat) : Decidable (Unused s blocks) :=
  inferInstanceAs (Decidable (∀ b ∈ blocks, b ≠ 0 ∧ b ∉ s.carved.map Prod.snd))

/-- Note the blocks that are carved from fresh pages. -/
def noteCarved (s : State Tid) (c : Nat) (blocks : List Nat) : State Tid :=
  { s with carved := blocks.map (fun b => (c, b)) ++ s.carved }

def stepMap (s : State Tid) (t : Tid) (answer : Option Nat) : Option (State Tid) :=
  match s.pc t, answer with
  | .mapPage c size, none => some (setPc s t (.mapSingle c size))
  | .mapPage c size, some base =>
      let blocks := blocksAt size base (blocksPerPage size)
      if Unused s blocks then
        some (setPc (noteCarved s c blocks) t (carvePc c size base 1))
      else
        none
  | .mapSingle _ _, none => some (setPc s t .idle)
  | .mapSingle c size, some base =>
      if Unused s (blocksAt size base 1) then
        some (setPc (noteCarved s c (blocksAt size base 1)) t (.stamp c size base))
      else
        none
  | _, _ => none

def step (limit batch : Nat) (s : State Tid) : Label Tid → Option (State Tid)
  | .alloc t size => stepAlloc s t size
  | .dealloc t block => stepDealloc s t block
  | .move t => stepMove limit batch s t
  | .cas t spurious => stepCas s t spurious
  | .map t answer => stepMap s t answer

end Steps

def start {Tid : Type} : State Tid where
  word := fun _ => 0
  head := fun _ => none
  heads := fun _ _ => none
  counts := fun _ _ => 0
  pc := fun _ => .idle
  carved := []
  live := []

/-- Any number of threads that allocate and free small blocks. -/
def machine (Tid : Type) [DecidableEq Tid] (limit batch : Nat) : Machine (State Tid) (Label Tid)
    where
  init := start
  step := step limit batch

/-! ### What the exchange promises -/

variable {Tid : Type}

/-- Where a block is. -/
inductive Place (Tid : Type)
  | unmapped
  | cached (t : Tid) (c : Nat)
  /-- A thread inside a call has it in its registers. -/
  | hand (t : Tid) (c : Nat)
  | global (c : Nat)
  | live (c : Nat)

/-- The class a block is used for. -/
def Place.cls : Place Tid → Option Nat
  | .unmapped => none
  | .cached _ c | .hand _ c | .global c | .live c => some c

/--
Every block made so far is at one place: in the list of one thread, on the global
list of its class, in the hands of one thread that is inside a call, or with one
client.  The lists are what their heads lead to, and the counts are their lengths.
-/
def Conserved (s : State Tid) : Prop :=
  ∃ place : Nat → Place Tid,
    (∀ c b, (c, b) ∈ s.carved ↔ (place b).cls = some c) ∧
    (∀ t c, ∃ l, Chain s.link (s.heads t c) l ∧ l.Nodup ∧ l.length = s.counts t c ∧
      ∀ b, b ∈ l ↔ place b = .cached t c) ∧
    (∀ c, ∃ l, Chain s.link (s.head c) l ∧ l.Nodup ∧ ∀ b, b ∈ l ↔ place b = .global c) ∧
    (∀ t c b, place b = .hand t c → s.pc t ≠ .idle) ∧
    s.live.Nodup ∧ ∀ b, b ∈ s.live ↔ ∃ c, place b = .live c

/-- The class whose global list a thread is popping from, from its load to its swap. -/
def Pc.popping : Pc → Option Nat
  | .popRead c _ _ _ | .popCas c _ _ _ _ => some c
  | _ => none

/-- No two threads are between the load and the swap of a pop of one list. -/
def OnePop (s : State Tid) : Prop :=
  ∀ t t' c, (s.pc t).popping = some c → (s.pc t').popping = some c → t = t'

end Aethalloc.Abi.SimpleExchange
