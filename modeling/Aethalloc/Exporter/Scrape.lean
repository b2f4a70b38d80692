/-
What a scrape gets.

The other end of the connection, which is not the exporter's code: it reads a
response by its length, and then the metrics line by line.  Both are read here the
way the formats say and not the way the exporter happens to write them — header
names in any case, any number of headers, comments anywhere, metrics in any order.
-/
import Aethalloc.Exporter.Server

namespace Aethalloc.Exporter

open Lib

/-! ### Responses -/

/-- The lines of a head up to the empty one, and the bytes after it. -/
def readHead : Nat → List UInt8 → Option (List Text × List UInt8)
  | 0, _ => none
  | fuel + 1, input =>
      (cut 10 input).bind fun p =>
        if strip '\r' (latin p.1) = [] then
          some ([], p.2)
        else
          (readHead fuel p.2).map fun q => (strip '\r' (latin p.1) :: q.1, q.2)

/-- The value of a line's header, if it is the one asked for. -/
def header (name line : Text) : Option Text :=
  (cut ':' line).bind fun p =>
    if p.1.map Char.toLower = name then some (p.2.dropWhile (· == ' ')) else none

def field (name : Text) (headers : List Text) : Option Text := headers.findSome? (header name)

structure Response where
  code : Nat
  body : Text
  deriving DecidableEq

/-- A response, and the bytes that are not of it. -/
def readResponse (input : List UInt8) : Option (Response × List UInt8) :=
  (readHead input.length input).bind fun p =>
    p.1.head?.bind fun status =>
      ((words (· == ' ') status)[1]?.bind readDecimal).bind fun code =>
        ((field "content-length".toList p.1.tail).bind readDecimal).bind fun length =>
          if length ≤ p.2.length then
            (fromUtf8 (p.2.take length)).map fun body => (⟨code, body⟩, p.2.drop length)
          else
            none

/-! ### Metrics -/

/-- Name and value, where a line is not a comment. -/
def sample (line : Text) : Option (Text × Text) :=
  if line.head? = some '#' then none else cut ' ' line

def samples (text : Text) : List (Text × Text) :=
  (text.splitOn '\n').filterMap sample

def number (name : String) (text : Text) : Option Nat :=
  ((samples text).lookup name.toList).bind readDecimal

/-- The counters of a text. -/
def counters (text : Text) : Option MetricsSnapshot :=
  (number "aethalloc_allocs_total" text).bind fun allocs =>
    (number "aethalloc_frees_total" text).bind fun frees =>
      (number "aethalloc_cache_hits_total" text).bind fun cacheHits =>
        (number "aethalloc_cache_misses_total" text).bind fun cacheMisses =>
          (number "aethalloc_direct_allocs_total" text).map fun directAllocs =>
            ⟨allocs, frees, cacheHits, cacheMisses, directAllocs⟩

/-! ### Requests and their answers -/

/-- A word of a request line. -/
structure Word (w : Text) : Prop where
  nonempty : w ≠ []
  solid : ∀ c ∈ w, isWhitespace c = false

/-- The bytes are a request for a path: a method before it, and what follows set off from it. -/
def Requests (path : Text) (bytes : List UInt8) : Prop :=
  ∃ method tail : Text, Word method ∧ Word path ∧ (∀ c ∈ tail.head?, isWhitespace c = true) ∧
    bytes = utf8 (method ++ ' ' :: (path ++ tail))

/-- What a path's answer has to be. -/
structure Answers (snapshot : MetricsSnapshot) (path : Text) (r : Response) : Prop where
  metrics : path = "/metrics".toList → r.code = 200 ∧ counters r.body = some snapshot ∧
    number "aethalloc_active_blocks" r.body = some (snapshot.allocs - snapshot.frees)
  health : path = "/health".toList ∨ path = "/".toList → r = ⟨200, "OK\n".toList⟩
  other : path ≠ "/metrics".toList → path ≠ "/health".toList → path ≠ "/".toList →
    r = ⟨404, "Not Found\n".toList⟩

end Aethalloc.Exporter
