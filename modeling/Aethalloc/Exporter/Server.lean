/-
The metrics exporter's server.

There are two of it: `main.rs` is a program of its own, with a snapshot it is
given, and `lib.rs` is loaded into the program whose allocations it reports and
asks the allocator for one.  They route requests and write responses alike, and
their texts differ in the name of one metric.

A request is what a single `read` brings, at most a buffer of it, and only the
path in its first line counts.  What is not UTF-8 is taken for an empty request.
-/
import Aethalloc.Lib.Text
import Mathlib.Algebra.Group.Nat.Defs

namespace Aethalloc.Exporter

open Lib

structure MetricsSnapshot where
  allocs : Nat
  frees : Nat
  cacheHits : Nat
  cacheMisses : Nat
  directAllocs : Nat
  deriving DecidableEq

/-! ### The text format -/

/-- A metric: what it is, of which kind, and its value. -/
def metric (name help kind value : Text) : Text :=
  "# HELP ".toList ++ name ++ ' ' :: help ++ '\n' ::
  "# TYPE ".toList ++ name ++ ' ' :: kind ++ '\n' ::
  name ++ ' ' :: value ++ ['\n']

section Format

-- the text of `hits as f64 / total as f64 * 100.0`, with two digits after the point
variable (percent : Nat → Nat → Text)

/-- The sum wraps around, as it does in a release build. -/
def hitRate (snapshot : MetricsSnapshot) : Text :=
  if (snapshot.cacheHits + snapshot.cacheMisses) % 2 ^ 64 > 0 then
    percent snapshot.cacheHits ((snapshot.cacheHits + snapshot.cacheMisses) % 2 ^ 64)
  else
    "0.00".toList

/-- The metrics of a snapshot, with the name under which its hit rate goes. -/
def format (rateName : Text) (snapshot : MetricsSnapshot) : Text :=
  metric "aethalloc_allocs_total".toList "Total allocations".toList "counter".toList
    (decimal snapshot.allocs) ++
  metric "aethalloc_frees_total".toList "Total deallocations".toList "counter".toList
    (decimal snapshot.frees) ++
  metric "aethalloc_cache_hits_total".toList "Cache hits".toList "counter".toList
    (decimal snapshot.cacheHits) ++
  metric "aethalloc_cache_misses_total".toList "Cache misses".toList "counter".toList
    (decimal snapshot.cacheMisses) ++
  metric "aethalloc_direct_allocs_total".toList "Direct (large) allocations".toList
    "counter".toList (decimal snapshot.directAllocs) ++
  metric rateName "Cache hit rate percentage".toList "gauge".toList (hitRate percent snapshot) ++
  metric "aethalloc_active_blocks".toList "Estimated active blocks".toList "gauge".toList
    (decimal (snapshot.allocs - snapshot.frees))

/-- Of `main.rs`. -/
def formatPrometheusMetrics (snapshot : MetricsSnapshot) : Text :=
  format percent "aethalloc_cache_hit_rate_percent".toList snapshot

/-- Of `lib.rs`, which has no snapshot where the allocator is not loaded. -/
def formatMetrics (getMetrics : Option MetricsSnapshot) : Text :=
  match getMetrics with
  | some snapshot => format percent "aethalloc_cache_hit_rate".toList snapshot
  | none => "# ERROR: libaethalloc.so not loaded\n".toList

end Format

/-! ### Requests -/

/-- Unicode's `White_Space`. -/
def isWhitespace (c : Char) : Bool :=
  (9 ≤ c.toNat && c.toNat ≤ 13) || c.toNat == 0x20 || c.toNat == 0x85 || c.toNat == 0xA0 ||
  c.toNat == 0x1680 || (0x2000 ≤ c.toNat && c.toNat ≤ 0x200A) || c.toNat == 0x2028 ||
  c.toNat == 0x2029 || c.toNat == 0x202F || c.toNat == 0x205F || c.toNat == 0x3000

/-- `lines().next()`: a carriage return goes with the newline after it. -/
def firstLine (request : Text) : Text :=
  match cut '\n' request with
  | some (line, _) => strip '\r' line
  | none => request

/-- The second word of the first line. -/
def requestPath (request : Text) : Text :=
  ((words isWhitespace (firstLine request))[1]?).getD "/".toList

def BUFFER_SIZE : Nat := 4096

/-- What a `read` into the buffer can bring. -/
abbrev Received := { bytes : List UInt8 // bytes.length ≤ BUFFER_SIZE }

def Received.path (bytes : Received) : Text := requestPath ((fromUtf8 bytes).getD [])

/-! ### Responses -/

/-- Status and body. -/
def route (metrics path : Text) : Text × Text :=
  if path = "/metrics".toList then
    ("200 OK".toList, metrics)
  else if path = "/health".toList ∨ path = "/".toList then
    ("200 OK".toList, "OK\n".toList)
  else
    ("404 Not Found".toList, "Not Found\n".toList)

def response (status body : Text) : Text :=
  "HTTP/1.1 ".toList ++ status ++
  "\r\nContent-Type: text/plain; version=0.0.4\r\nContent-Length: ".toList ++
  decimal (utf8 body).length ++ "\r\n\r\n".toList ++ body

/-- The bytes that are written back; nothing where the `read` fails. -/
def respond (metrics : Text) (received : Option Received) : Option (List UInt8) :=
  received.map fun bytes =>
    utf8 (response (route metrics bytes.path).1 (route metrics bytes.path).2)

/-- Of `main.rs`. -/
def Main.handleClient (percent : Nat → Nat → Text) (received : Option Received)
    (metrics : MetricsSnapshot) : Option (List UInt8) :=
  respond (formatPrometheusMetrics percent metrics) received

/-- Of `lib.rs`. -/
def Library.handleClient (percent : Nat → Nat → Text) (received : Option Received)
    (getMetrics : Option MetricsSnapshot) : Option (List UInt8) :=
  respond (formatMetrics percent getMetrics) received

end Aethalloc.Exporter
