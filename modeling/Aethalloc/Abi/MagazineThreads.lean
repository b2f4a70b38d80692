/-
Magazine caching, with the exchange of magazines one atomic step at a time.

The other model of magazine-caching mode takes a call as one step.  A call touches
what another thread can see in one place only, the stacks of the global pool, and
`MagazineExchange` is what happens there.  Here the small paths of `alloc` and
`dealloc` are put around it: what comes before and after the exchange concerns the
thread's own magazines, the header of a block that nobody else has, and fresh
pages, and is one step each.

`obtained` of the exchange are the nodes the metadata allocator has given out, none
of them twice.  `carved`, `live` and `lost` are history: the blocks made so far,
with their class, those that a client has, and those that a full magazine did not
take.  `refused` counts how often no node could be had.
-/
import Aethalloc.Lib.Places
import Aethalloc.Core.MagazineExchange
import Aethalloc.Abi.SimpleExchange

namespace Aethalloc.Abi.MagazineThreads

open Lib
open SimpleExchange (cacheSize blockSize blocksPerPage blocksAt headerClass)

variable {Tid Node : Type} [DecidableEq Tid] [DecidableEq Node]

/-- What is left of a thread's call when its exchange is over. -/
inductive Task
  | idle
  /-- `alloc` tries its magazine again. -/
  | refill (c size : Nat)
  /-- A page for many blocks is asked for. -/
  | mapPage (c size : Nat)
  /-- Pages for a single block are asked for. -/
  | mapSingle (c size : Nat)
  /-- `dealloc` pushes the block to the now empty magazine. -/
  | stash (c block : Nat)
  deriving DecidableEq

structure State (Tid Node : Type) where
  exchange : MagazineExchange.State Tid Node
  allocMags : Tid → Nat → Magazine
  freeMags : Tid → Nat → Magazine
  task : Tid → Task
  /-- The header of a block. -/
  word : Nat → Nat
  carved : List (Nat × Nat)
  live : List Nat
  lost : List Nat
  refused : Nat

inductive Label (Tid Node : Type)
  /-- The thread enters `alloc` with a small layout. -/
  | alloc (t : Tid) (size : Nat)
  /-- The thread enters `dealloc` with the block of a client; the node is what the metadata
  allocator returns, if it is asked. -/
  | dealloc (t : Tid) (block : Nat) (node : Option Node)
  /-- The next load, read or write of its exchange. -/
  | move (t : Tid)
  /-- Its next compare-and-swap, which may fail although the values agree. -/
  | cas (t : Tid) (spurious : Bool)
  /-- The exchange is over and the call goes on. -/
  | resume (t : Tid)
  /-- The kernel's answer to the pages it asked for. -/
  | map (t : Tid) (answer : Option Nat)

/-! ### Steps -/

def setTask (s : State Tid Node) (t : Tid) (task : Task) : State Tid Node :=
  { s with task := Function.update s.task t task }

def setAllocMag (s : State Tid Node) (t : Tid) (c : Nat) (m : Magazine) : State Tid Node :=
  { s with allocMags := Function.update s.allocMags t (Function.update (s.allocMags t) c m) }

def setFreeMag (s : State Tid Node) (t : Tid) (c : Nat) (m : Magazine) : State Tid Node :=
  { s with freeMags := Function.update s.freeMags t (Function.update (s.freeMags t) c m) }

/-- Store the size and hand the block out. -/
def serve (s : State Tid Node) (t : Tid) (size block : Nat) : State Tid Node :=
  setTask { s with word := Function.update s.word block size, live := block :: s.live } t .idle

/-- Try to get a full magazine from the global pool. -/
def fetch (s : State Tid Node) (t : Tid) (c size : Nat) : Option (State Tid Node) :=
  match MagazineExchange.step s.exchange (.alloc t c (s.allocMags t c)) with
  | none => none
  | some exchange => some (setTask { s with exchange := exchange } t (.refill c size))

/-- Try swap with local free magazine for reuse. -/
def allocSwap (s : State Tid Node) (t : Tid) (c size : Nat) : Option (State Tid Node) :=
  if (s.freeMags t c).isEmpty then
    fetch s t c size
  else
    let a := s.allocMags t c
    let s := setFreeMag (setAllocMag s t c (s.freeMags t c)) t c a
    match (s.allocMags t c).pop with
    | (some block, m) => some (serve (setAllocMag s t c m) t size block)
    | (none, _) => fetch s t c size

def stepAlloc (s : State Tid Node) (t : Tid) (size : Nat) : Option (State Tid Node) :=
  if s.task t = .idle ∧ 0 < size ∧ size ≤ MAX_CACHE_SIZE then
    match sizeToClass (cacheSize size) with
    | none => none
    | some c =>
        match (s.allocMags t c).pop with
        | (some block, m) => some (serve (setAllocMag s t c m) t size block)
        | (none, _) => allocSwap s t c size
  else
    none

/-- A full magazine goes to the global pool in a node, if one can be had; without one the block
is pushed to the full magazine, which does not take it. -/
def publish (s : State Tid Node) (t : Tid) (c block : Nat) :
    Option Node → Option (State Tid Node)
  | none => some { s with lost := block :: s.lost, refused := s.refused + 1 }
  | some node =>
      match MagazineExchange.step s.exchange (.dealloc t c (s.freeMags t c) node) with
      | none => none
      | some exchange =>
          some (setTask (setFreeMag { s with exchange := exchange } t c Magazine.new) t
            (.stash c block))

def stepDealloc (s : State Tid Node) (t : Tid) (block : Nat) (node : Option Node) :
    Option (State Tid Node) :=
  if s.task t = .idle ∧ block ∈ s.live then
    match headerClass (s.word block) with
    | none => none
    | some c =>
        let s := { s with live := s.live.erase block }
        match (s.freeMags t c).push block with
        | (true, m) => some (setFreeMag s t c m)
        | (false, _) => publish s t c block node
  else
    none

/-- The thread's side of the swap of the two magazines. -/
def receive (s : State Tid Node) (t : Tid) : State Tid Node :=
  match s.exchange.pc t with
  | .swap c _ node => setAllocMag s t c (s.exchange.magazine node)
  | _ => s

def stepExchange (s : State Tid Node) (t : Tid) (lab : MagazineExchange.Label Tid Node) :
    Option (State Tid Node) :=
  match MagazineExchange.step s.exchange lab with
  | none => none
  | some exchange => some { receive s t with exchange := exchange }

/-- A cache miss. -/
def missTask (c size : Nat) : Task :=
  if blocksPerPage size > 1 then .mapPage c size else .mapSingle c size

def stepResume (s : State Tid Node) (t : Tid) : Option (State Tid Node) :=
  match s.exchange.pc t, s.task t with
  | .idle, .refill c size =>
      match (s.allocMags t c).pop with
      | (some block, m) => some (serve (setAllocMag s t c m) t size block)
      | (none, _) => some (setTask s t (missTask c size))
  | .idle, .stash c block =>
      match (s.freeMags t c).push block with
      | (true, m) => some (setTask (setFreeMag s t c m) t .idle)
      | (false, _) => some (setTask { s with lost := block :: s.lost } t .idle)
  | _, _ => none

/-- The kernel maps pages that are not in use, and none at null. -/
def Unused (s : State Tid Node) (blocks : List Nat) : Prop :=
  ∀ b ∈ blocks, b ≠ 0 ∧ b ∉ s.carved.map Prod.snd

instance (s : State Tid Node) (blocks : List Nat) : Decidable (Unused s blocks) :=
  inferInstanceAs (Decidable (∀ b ∈ blocks, b ≠ 0 ∧ b ∉ s.carved.map Prod.snd))

/-- Note the blocks that are carved from fresh pages. -/
def noteCarved (s : State Tid Node) (c : Nat) (blocks : List Nat) : State Tid Node :=
  { s with carved := blocks.map (fun b => (c, b)) ++ s.carved }

/-- How many blocks of a page the thread's magazine takes. -/
def room (s : State Tid Node) (t : Tid) (c size : Nat) : Nat :=
  min (blocksPerPage size - 1) (MAGAZINE_CAPACITY - (s.allocMags t c).count)

def stepMap (s : State Tid Node) (t : Tid) (answer : Option Nat) : Option (State Tid Node) :=
  match s.task t, answer with
  | .mapPage c size, none => some (setTask s t (.mapSingle c size))
  | .mapPage c size, some base =>
      if Unused s (blocksAt size base (blocksPerPage size)) then
        let m := (s.allocMags t c).bulkInit (base + blockSize size) (blockSize size)
          (blocksPerPage size - 1)
        let s := setAllocMag (noteCarved s c (blocksAt size base (room s t c size + 1))) t c m
        some (serve s t size base)
      else
        none
  | .mapSingle _ _, none => some (setTask s t .idle)
  | .mapSingle c size, some base =>
      if Unused s (blocksAt size base 1) then
        some (serve (noteCarved s c (blocksAt size base 1)) t size base)
      else
        none
  | _, _ => none

def step (s : State Tid Node) : Label Tid Node → Option (State Tid Node)
  | .alloc t size => stepAlloc s t size
  | .dealloc t block node => stepDealloc s t block node
  | .move t => stepExchange s t (.move t)
  | .cas t spurious => stepExchange s t (.cas t spurious)
  | .resume t => stepResume s t
  | .map t answer => stepMap s t answer

def start : State Tid Node where
  exchange := MagazineExchange.start
  allocMags := fun _ _ => Magazine.new
  freeMags := fun _ _ => Magazine.new
  task := fun _ => .idle
  word := fun _ => 0
  carved := []
  live := []
  lost := []
  refused := 0

variable (Tid Node) in
/-- Any number of threads that allocate and free small blocks. -/
def machine : Machine (State Tid Node) (Label Tid Node) where
  init := start
  step := step

/-! ### What the threads keep up -/

/-- Where a block is. -/
inductive Place (Tid Node : Type)
  | unmapped
  | allocMag (t : Tid) (c : Nat)
  | freeMag (t : Tid) (c : Nat)
  /-- In the magazine of a node. -/
  | node (n : Node) (c : Nat)
  /-- A thread inside a call has it in its registers. -/
  | hand (t : Tid) (c : Nat)
  | live (c : Nat)
  | lost (c : Nat)

/-- The class a block is used for. -/
def Place.cls : Place Tid Node → Option Nat
  | .unmapped => none
  | .allocMag _ c | .freeMag _ c | .node _ c | .hand _ c | .live c | .lost c => some c

/-- The node a thread inside an exchange has blocks in, with their class. -/
def carried : MagazineExchange.Pc Node → Option (Node × Nat)
  | .swap c _ n | .store c n _ | .clearNext c n | .fullLoad c n | .fullWrite c n _
  | .fullCas c n _ => some (n, c)
  | .idle | .popLoad .. | .popRead .. | .popCas .. | .clear .. | .emptyLoad .. | .emptyWrite ..
  | .emptyCas .. => none

/--
Every block made so far is at one place: in one magazine of one thread, in the
magazine of one node, in the hands of one thread that is inside a call, with one
client, or lost.  The nodes are those on the full stack of their class and those
that threads are passing on, and no more blocks are lost than nodes were refused.
-/
def Conserved (s : State Tid Node) : Prop :=
  ∃ place : Nat → Place Tid Node,
    (∀ c b, (c, b) ∈ s.carved ↔ (place b).cls = some c) ∧
    (∀ t c, AllAt place (.allocMag t c) (s.allocMags t c).slots ∧
      AllAt place (.freeMag t c) (s.freeMags t c).slots) ∧
    (∀ c, ∃ l, Chain s.exchange.next (s.exchange.fullHead c) l ∧ l.Nodup ∧
      (∀ n ∈ l, AllAt place (.node n c) (s.exchange.magazine n).slots) ∧
      ∀ b n, place b = .node n c → n ∈ l ∨ ∃ t, carried (s.exchange.pc t) = some (n, c)) ∧
    (∀ t c b, place b = .hand t c → s.task t ≠ .idle) ∧
    s.live.Nodup ∧ (∀ b, b ∈ s.live ↔ ∃ c, place b = .live c) ∧
    (∀ b, b ∈ s.lost ↔ ∃ c, place b = .lost c) ∧ s.lost.length = s.refused

end Aethalloc.Abi.MagazineThreads
