/-
What the C interface promises its client.

The client makes calls and gets replies, and all it knows besides is the bytes it
holds.  `Allows` says which replies a call may get and what the client holds then.
Nothing in it speaks of magazines, lists, headers or pages: it is the purpose of the
allocator, in either mode, and not how it works.

An allocation is always a multiple of sixteen, whatever was asked for.  A request for
no bytes is refused, but `aligned_alloc` and `posix_memalign` count it as one byte.
Where `posix_memalign` was asked for no bytes and there was not even one, it stores
null and says that it succeeded.
-/
import Aethalloc.Lib.Trace
import Aethalloc.Lib.Store
import Aethalloc.Abi.Interface

namespace Aethalloc.Abi

open Lib

/-- What the client asks for: a call, or a write of its own. -/
inductive Call
  | alloc (size align : Nat)
  | free (ptr : Option Nat)
  | calloc (nmemb size : Nat)
  | realloc (ptr : Option Nat) (size : Nat)
  | alignedAlloc (alignment size : Nat)
  | posixMemalign (memptr alignment size : Nat)
  | write (addr : Nat) (byte : UInt8)
  /-- The rest of the process does something. -/
  | idle
  deriving DecidableEq

/-- What the client is told: nothing, a pointer, or a code and the pointer that was stored. -/
inductive Reply
  | done
  | pointer (ptr : Option Nat)
  | stored (code : Nat) (ptr : Option Nat)
  deriving DecidableEq

/-- An alignment that `posix_memalign` takes. -/
def ValidAlignment (alignment : Nat) : Prop :=
  alignment ≠ 0 ∧ alignment.isPowerOfTwo ∧ alignment % 8 = 0

/-- Which reply a call may get, and what the client holds after it. -/
inductive Allows (s : Store) : Call × Reply → Store → Prop
  | alloc {size align : Nat} {r : Option Nat} {s' : Store}
      (h : s.Alloc (max 16 align) size (fun _ => True) r s') :
      Allows s (.alloc size align, .pointer r) s'
  | freeNull : Allows s (.free none, .done) s
  | free {p : Nat} (held : (s p).isSome) : Allows s (.free (some p), .done) (s.remove p)
  | calloc {nmemb size : Nat} {r : Option Nat} {s' : Store}
      (h : s.Alloc 16 (nmemb * size) (fun bs => ∀ b ∈ bs, b = 0) r s') :
      Allows s (.calloc nmemb size, .pointer r) s'
  | reallocNull {size : Nat} {r : Option Nat} {s' : Store}
      (h : s.Alloc 16 size (fun _ => True) r s') :
      Allows s (.realloc none size, .pointer r) s'
  | reallocFree {p : Nat} (held : (s p).isSome) :
      Allows s (.realloc (some p) 0, .pointer none) (s.remove p)
  | reallocRefused {p size : Nat} (held : (s p).isSome) (hsize : size ≠ 0) :
      Allows s (.realloc (some p) size, .pointer none) s
  /-- The bytes that fit go along. -/
  | reallocMoved {p q size : Nat} {old : List UInt8} {s' : Store} (held : s p = some old)
      (h : s.Alloc 16 size (fun new => new.take old.length = old.take size) (some q) s') :
      Allows s (.realloc (some p) size, .pointer (some q)) (s'.remove p)
  | alignedInvalid {alignment size : Nat} (h : alignment = 0 ∨ ¬ alignment.isPowerOfTwo) :
      Allows s (.alignedAlloc alignment size, .pointer none) s
  | aligned {alignment size : Nat} {r : Option Nat} {s' : Store}
      (hvalid : ¬ (alignment = 0 ∨ ¬ alignment.isPowerOfTwo))
      (h : s.Alloc (max 16 alignment) (max size 1) (fun _ => True) r s') :
      Allows s (.alignedAlloc alignment size, .pointer r) s'
  | memalignInvalid {memptr alignment size : Nat} (h : ¬ ValidAlignment alignment) :
      Allows s (.posixMemalign memptr alignment size, .stored EINVAL none) s
  | memalignRefused {memptr alignment size : Nat} (h : ValidAlignment alignment)
      (hsize : size ≠ 0) :
      Allows s (.posixMemalign memptr alignment size, .stored ENOMEM none) s
  | memalignNull {memptr alignment : Nat} (h : ValidAlignment alignment) :
      Allows s (.posixMemalign memptr alignment 0, .stored 0 none) (s.write memptr 8 0)
  | memalign {memptr alignment size p : Nat} {s' : Store} (h : ValidAlignment alignment)
      (hgranted : s.Alloc (max 16 alignment) (max size 1) (fun _ => True) (some p) s') :
      Allows s (.posixMemalign memptr alignment size, .stored 0 (some p)) (s'.write memptr 8 p)
  | write {addr : Nat} {byte : UInt8} : Allows s (.write addr byte, .done) (s.poke addr byte)
  | idle : Allows s (.idle, .done) s

/-! ### What a run shows of itself -/

def Label.call : Label → Call
  | .alloc _ layout _ => .alloc layout.size layout.align
  | .dealloc _ ptr _ => .free ptr
  | .malloc _ size _ => .alloc size 8
  | .free _ ptr _ => .free ptr
  | .calloc _ nmemb size _ => .calloc nmemb size
  | .realloc _ ptr size _ => .realloc ptr size
  | .alignedAlloc _ alignment size _ => .alignedAlloc alignment size
  | .posixMemalign _ memptr alignment size _ => .posixMemalign memptr alignment size
  | .write addr byte => .write addr byte
  | .foreign _ _ => .idle

namespace Interface

variable {σ : Type} (A : Allocator σ)

def reply (w : World σ) : Label → Reply
  | .alloc t layout answers => .pointer (A.alloc (enter A w answers) t layout).2
  | .malloc t size answers => .pointer (A.malloc (enter A w answers) t size).2
  | .calloc t nmemb size answers => .pointer (A.calloc (enter A w answers) t nmemb size).2
  | .realloc t ptr size answers => .pointer (A.realloc (enter A w answers) t ptr size).2
  | .alignedAlloc t alignment size answers =>
      .pointer (A.alignedAlloc (enter A w answers) t alignment size).2
  | .posixMemalign t memptr alignment size answers =>
      let r := A.posixMemalign (enter A w answers) t memptr alignment size
      let ptr := (A.mem r.1).read memptr 8
      .stored r.2 (if r.2 = 0 ∧ ptr ≠ 0 then some ptr else none)
  | _ => .done

/-- The call of a step and its reply. -/
def shown (w : World σ) (l : Label) : Call × Reply := (l.call, reply A w l)

/-- The range of an allocation. -/
def range (a : Allocation) : Store.Range where
  ptr := a.ptr
  size := a.size

/-- What the client holds. -/
def view (w : World σ) : Store := Store.view (A.mem w.heap) (w.live.map range)

end Interface

end Aethalloc.Abi
