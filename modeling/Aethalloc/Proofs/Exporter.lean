/-
A scrape reads back what was measured.

Two round trips, one inside the other.  A response is read by its head, which says
how many bytes the body has, so it ends where the exporter ended it whatever is on
the connection after that.  The body is read line by line, and the five counters
come out as they went in: each metric is three lines of which two are comments, and
no line holds a newline of its own.

Before that the request has to be understood.  Its path is the second word of its
first line, and anything may follow.
-/
import Aethalloc.Exporter.Scrape

namespace Aethalloc.Exporter

open Lib

variable {percent : Nat → Nat → Text} {metrics body status rest : Text} {next : List UInt8}

/-! ### The head of a response -/

/-- A line of a head. -/
structure HeadLine (line : Text) : Prop where
  ascii : Ascii line
  newline : '\n' ∉ line
  returned : '\r' ∉ line
  nonempty : line ≠ []

/-- The bytes of a line, up to the newline. -/
theorem cut_utf8 {line : Text} (hascii : Ascii line) (hnewline : '\n' ∉ line)
    (bytes : List UInt8) :
    cut 10 (utf8 (line ++ ['\r', '\n']) ++ bytes) = some (utf8 (line ++ ['\r']), bytes) := by
  have hcr : Ascii (line ++ ['\r']) := hascii.append (by decide)
  have hnl : '\n' ∉ line ++ ['\r'] := by simpa using hnewline
  have hnotMem : (10 : UInt8) ∉ utf8 (line ++ ['\r']) := notMem_utf8 hcr hnl (by decide)
  have hsplit : utf8 (line ++ ['\r', '\n']) ++ bytes = utf8 (line ++ ['\r']) ++ 10 :: bytes := by
    rw [show line ++ ['\r', '\n'] = (line ++ ['\r']) ++ ['\n'] by simp, utf8_append,
      List.append_assoc]
    rfl
  rw [hsplit]
  exact cut_append_cons hnotMem bytes

theorem strip_latin {line : Text} (hascii : Ascii line) (hreturn : '\r' ∉ line) :
    strip '\r' (latin (utf8 (line ++ ['\r']))) = line := by
  have hend : strip '\r' ['\r'] = [] := by decide
  rw [latin_utf8 (hascii.append (by decide)), strip_append hreturn, hend, List.append_nil]

theorem readHead_line {line : Text} (h : HeadLine line) (fuel : Nat) (bytes : List UInt8) :
    readHead (fuel + 1) (utf8 (line ++ ['\r', '\n']) ++ bytes)
      = (readHead fuel bytes).map fun q => (line :: q.1, q.2) := by
  rw [readHead, cut_utf8 h.ascii h.newline, Option.bind_some, strip_latin h.ascii h.returned,
    if_neg h.nonempty]

theorem readHead_end (fuel : Nat) (bytes : List UInt8) :
    readHead (fuel + 1) (utf8 ['\r', '\n'] ++ bytes) = some ([], bytes) := by
  have hcut : cut 10 (utf8 ['\r', '\n'] ++ bytes) = some (utf8 ['\r'], bytes) :=
    cut_utf8 (by decide : Ascii []) (by decide) bytes
  have hempty : strip '\r' (latin (utf8 ['\r'])) = [] := by decide
  rw [readHead, hcut, Option.bind_some, if_pos hempty]

def contentType : Text := "Content-Type: text/plain; version=0.0.4".toList

def contentLength (n : Nat) : Text := "Content-Length: ".toList ++ decimal n

theorem contentType_headLine : HeadLine contentType :=
  ⟨by decide, by decide, by decide, by decide⟩

theorem notMem_contentLength {c : Char} (hname : c ∉ "Content-Length: ".toList)
    (hc : c.isDigit = false) (n : Nat) : c ∉ contentLength n := by
  intro h
  rcases List.mem_append.mp h with h | h
  · exact hname h
  · exact notMem_decimal hc n h

theorem contentLength_headLine (n : Nat) : HeadLine (contentLength n) where
  ascii := by
    have hname : Ascii "Content-Length: ".toList := by decide
    exact hname.append (decimal_ascii n)
  newline := notMem_contentLength (by decide) (by decide) n
  returned := notMem_contentLength (by decide) (by decide) n
  nonempty h := by cases h

theorem field_contentLength (n : Nat) :
    field "content-length".toList [contentType, contentLength n] = some (decimal n) := by
  have hcut : cut ':' (contentLength n) = some ("Content-Length".toList, ' ' :: decimal n) := by
    have hliteral : "Content-Length: ".toList = "Content-Length".toList ++ [':', ' '] := by
      decide +kernel
    unfold contentLength
    rw [hliteral, List.append_assoc]
    exact cut_append_cons (by decide) (' ' :: decimal n)
  have hdrop : (' ' :: decimal n).dropWhile (· == ' ') = decimal n := by
    rw [List.dropWhile_cons_of_pos (by decide)]
    cases hd : decimal n with
    | nil => rfl
    | cons c cs =>
        have hc : c ≠ ' ' := by
          intro h
          apply notMem_decimal (by decide : ' '.isDigit = false) n
          rw [hd, h]
          exact List.mem_cons_self
        rw [List.dropWhile_cons_of_neg (by simpa using hc)]
  have hlower : "Content-Length".toList.map Char.toLower = "content-length".toList := by
    decide +kernel
  have hfirst : header "content-length".toList contentType = none := by decide +kernel
  have hsecond : header "content-length".toList (contentLength n) = some (decimal n) := by
    unfold header
    simp only [hcut, Option.bind_some, hlower, if_true, hdrop]
  unfold field
  rw [List.findSome?_cons, hfirst, List.findSome?_cons, hsecond]

/-- A response taken apart into the lines of its head and its body. -/
theorem utf8_response : utf8 (response status body) ++ next
    = utf8 (("HTTP/1.1 ".toList ++ status) ++ ['\r', '\n']) ++
      (utf8 (contentType ++ ['\r', '\n']) ++
      (utf8 (contentLength (utf8 body).length ++ ['\r', '\n']) ++
      (utf8 ['\r', '\n'] ++ (utf8 body ++ next)))) := by
  have hlines : response status body = ("HTTP/1.1 ".toList ++ status) ++ ['\r', '\n'] ++
      (contentType ++ ['\r', '\n'] ++ (contentLength (utf8 body).length ++ ['\r', '\n'] ++
      (['\r', '\n'] ++ body))) := by
    have hliteral : "\r\nContent-Type: text/plain; version=0.0.4\r\nContent-Length: ".toList
        = ['\r', '\n'] ++ contentType ++ ['\r', '\n'] ++ "Content-Length: ".toList := by
      decide +kernel
    have hend : "\r\n\r\n".toList = ['\r', '\n'] ++ ['\r', '\n'] := by decide
    unfold response contentLength
    rw [hliteral, hend]
    simp only [List.append_assoc]
  rw [hlines]
  simp only [utf8_append, List.append_assoc]

/-- **A response is read up to its end**, and nothing that follows it. -/
theorem readResponse_response {code : Nat} (hstatus : HeadLine ("HTTP/1.1 ".toList ++ status))
    (hcode : (words (· == ' ') ("HTTP/1.1 ".toList ++ status))[1]?.bind readDecimal = some code) :
    readResponse (utf8 (response status body) ++ next) = some (⟨code, body⟩, next) := by
  have hlong : 4 ≤ (utf8 (response status body) ++ next).length := by
    have hcrlf : (utf8 ['\r', '\n']).length = 2 := by decide
    rw [utf8_response]
    simp only [utf8_append, List.length_append]
    omega
  obtain ⟨fuel, hfuel⟩ := Nat.exists_eq_add_of_le' hlong
  have hhead : readHead (fuel + 4) (utf8 (response status body) ++ next)
      = some (["HTTP/1.1 ".toList ++ status, contentType, contentLength (utf8 body).length],
        utf8 body ++ next) := by
    rw [utf8_response, readHead_line hstatus, readHead_line contentType_headLine,
      readHead_line (contentLength_headLine _), readHead_end]
    rfl
  unfold readResponse
  rw [hfuel, hhead, Option.bind_some]
  simp only [List.head?_cons, Option.bind_some, hcode, List.tail_cons, field_contentLength,
    readDecimal_decimal, List.length_append, Nat.le_add_right, if_true, List.take_left,
    List.drop_left, fromUtf8_utf8, Option.map_some]

/-! ### The metrics of a body -/

theorem samples_line {line : Text} (h : '\n' ∉ line) (rest : Text) :
    samples (line ++ '\n' :: rest) = (sample line).toList ++ samples rest := by
  unfold samples
  rw [List.splitOn_append_cons_self_of_not_mem h, List.filterMap_cons]
  cases sample line with
  | none => rfl
  | some s => rfl

/-- A metric's name is one word and does not start like a comment. -/
def Named (name : Text) : Prop := '\n' ∉ name ∧ ' ' ∉ name ∧ name.head? ≠ some '#'

instance (name : Text) : Decidable (Named name) := inferInstanceAs (Decidable (_ ∧ _ ∧ _))

/-- Of a metric's three lines one is a sample. -/
theorem samples_metric {name help kind value : Text} (hname : Named name) (hhelp : '\n' ∉ help)
    (hkind : '\n' ∉ kind) (hvalue : '\n' ∉ value) (rest : Text) :
    samples (metric name help kind value ++ rest) = (name, value) :: samples rest := by
  have hlines : metric name help kind value ++ rest =
      ("# HELP ".toList ++ name ++ ' ' :: help) ++ '\n' ::
        (("# TYPE ".toList ++ name ++ ' ' :: kind) ++ '\n' ::
          ((name ++ ' ' :: value) ++ '\n' :: rest)) := by
    unfold metric
    simp only [List.append_assoc, List.cons_append, List.nil_append]
  have hcomment : ∀ line : Text, sample ('#' :: line) = none := fun line => if_pos rfl
  obtain ⟨hnewline, hblank, hfirstChar⟩ := hname
  have hhead : (name ++ ' ' :: value).head? ≠ some '#' := by
    cases name with
    | nil => simp
    | cons c cs => exact hfirstChar
  have hsample : sample (name ++ ' ' :: value) = some (name, value) := by
    unfold sample
    rw [if_neg hhead, cut_append_cons hblank]
  have hfirst : '\n' ∉ "# HELP ".toList ++ name ++ ' ' :: help := by
    simp [hnewline, hhelp]
  have hsecond : '\n' ∉ "# TYPE ".toList ++ name ++ ' ' :: kind := by
    simp [hnewline, hkind]
  have hthird : '\n' ∉ name ++ ' ' :: value := by
    simp [hnewline, hvalue]
  rw [hlines, samples_line hfirst, samples_line hsecond, samples_line hthird, hsample]
  have hhelp' : sample ("# HELP ".toList ++ name ++ ' ' :: help) = none := hcomment _
  have hkind' : sample ("# TYPE ".toList ++ name ++ ' ' :: kind) = none := hcomment _
  rw [hhelp', hkind']
  rfl

section Format

variable (hpercent : ∀ hits total, '\n' ∉ percent hits total)

include hpercent

theorem notMem_hitRate (snapshot : MetricsSnapshot) : '\n' ∉ hitRate percent snapshot := by
  unfold hitRate
  split
  · exact hpercent _ _
  · decide

/-- The names, in the order in which they are written. -/
def names (rateName : Text) : List Text :=
  ["aethalloc_allocs_total".toList, "aethalloc_frees_total".toList,
    "aethalloc_cache_hits_total".toList, "aethalloc_cache_misses_total".toList,
    "aethalloc_direct_allocs_total".toList, rateName, "aethalloc_active_blocks".toList]

/-- The samples of a snapshot's text, in the order in which they are written. -/
theorem samples_format {rateName : Text} (hrate : Named rateName) (snapshot : MetricsSnapshot) :
    samples (format percent rateName snapshot) =
      [("aethalloc_allocs_total".toList, decimal snapshot.allocs),
        ("aethalloc_frees_total".toList, decimal snapshot.frees),
        ("aethalloc_cache_hits_total".toList, decimal snapshot.cacheHits),
        ("aethalloc_cache_misses_total".toList, decimal snapshot.cacheMisses),
        ("aethalloc_direct_allocs_total".toList, decimal snapshot.directAllocs),
        (rateName, hitRate percent snapshot),
        ("aethalloc_active_blocks".toList, decimal (snapshot.allocs - snapshot.frees))] := by
  have hdecimal : ∀ n, '\n' ∉ decimal n := notMem_decimal (by decide)
  have hlast := samples_metric (by decide : Named "aethalloc_active_blocks".toList)
    (by decide : '\n' ∉ "Estimated active blocks".toList) (by decide : '\n' ∉ "gauge".toList)
    (hdecimal (snapshot.allocs - snapshot.frees)) []
  rw [List.append_nil] at hlast
  unfold format
  simp only [List.append_assoc]
  rw [samples_metric (by decide) (by decide) (by decide) (hdecimal snapshot.allocs),
    samples_metric (by decide) (by decide) (by decide) (hdecimal snapshot.frees),
    samples_metric (by decide) (by decide) (by decide) (hdecimal snapshot.cacheHits),
    samples_metric (by decide) (by decide) (by decide) (hdecimal snapshot.cacheMisses),
    samples_metric (by decide) (by decide) (by decide) (hdecimal snapshot.directAllocs),
    samples_metric hrate (by decide) (by decide) (notMem_hitRate hpercent snapshot), hlast]
  rfl

/-- A metric is found under its name, wherever it stands. -/
theorem number_format {rateName : Text} (hrate : Named rateName) (hnames : (names rateName).Nodup)
    (snapshot : MetricsSnapshot) {name : String} {n : Nat} (i : Nat)
    (hi : (samples (format percent rateName snapshot))[i]? = some (name.toList, decimal n)) :
    number name (format percent rateName snapshot) = some n := by
  have hkeys : (samples (format percent rateName snapshot)).map Prod.fst = names rateName := by
    rw [samples_format hpercent hrate]
    rfl
  have hfound : (samples (format percent rateName snapshot)).lookup name.toList
      = some (decimal n) := by
    apply lookup_of_mem _ (List.mem_of_getElem? hi)
    rw [hkeys]
    exact hnames
  unfold number
  rw [hfound, Option.bind_some, readDecimal_decimal]

/-- **The counters come back**, and the estimate with them. -/
theorem counters_format {rateName : Text} (hrate : Named rateName)
    (hnames : (names rateName).Nodup) (snapshot : MetricsSnapshot) :
    counters (format percent rateName snapshot) = some snapshot ∧
      number "aethalloc_active_blocks" (format percent rateName snapshot)
        = some (snapshot.allocs - snapshot.frees) := by
  have hat : ∀ (i : Nat) (name : String) (n : Nat),
      (samples (format percent rateName snapshot))[i]? = some (name.toList, decimal n) →
      number name (format percent rateName snapshot) = some n :=
    fun i _ _ hi => number_format hpercent hrate hnames snapshot i hi
  rw [samples_format hpercent hrate] at hat
  have hcounters : counters (format percent rateName snapshot) = some snapshot := by
    unfold counters
    rw [hat 0 "aethalloc_allocs_total" snapshot.allocs rfl,
      hat 1 "aethalloc_frees_total" snapshot.frees rfl,
      hat 2 "aethalloc_cache_hits_total" snapshot.cacheHits rfl,
      hat 3 "aethalloc_cache_misses_total" snapshot.cacheMisses rfl,
      hat 4 "aethalloc_direct_allocs_total" snapshot.directAllocs rfl]
    rfl
  exact ⟨hcounters, hat 6 "aethalloc_active_blocks" _ rfl⟩

end Format

/-! ### Requests -/

theorem Word.notMem {w : Text} (hw : Word w) {c : Char} (hc : isWhitespace c = true) : c ∉ w := by
  intro hmem
  rw [hw.solid c hmem] at hc
  cases hc

theorem firstLine_append {xs : Text} (hnewline : '\n' ∉ xs) (hreturn : '\r' ∉ xs) (ys : Text) :
    firstLine (xs ++ ys) = xs ++ firstLine ys := by
  unfold firstLine
  rw [cut_append hnewline]
  cases cut '\n' ys with
  | none => rfl
  | some p => exact strip_append hreturn p.1

theorem prefix_of_firstLine (s : Text) : firstLine s <+: s := by
  unfold firstLine
  split
  · rename_i line rest hcut
    exact prefix_of_strip.trans (prefix_of_cut hcut)
  · exact List.prefix_rfl

/-- Method and path are words; what follows the path is set off from it. -/
theorem requestPath_eq {method path tail : Text} (hmethod : Word method) (hpath : Word path)
    (htail : ∀ c ∈ tail.head?, isWhitespace c = true) :
    requestPath (method ++ ' ' :: (path ++ tail)) = path := by
  have hline : firstLine (method ++ ' ' :: (path ++ tail))
      = method ++ ' ' :: (path ++ firstLine tail) := by
    have hnewline : '\n' ∉ method ++ ' ' :: path := by
      simp [hmethod.notMem (by decide : isWhitespace '\n' = true),
        hpath.notMem (by decide : isWhitespace '\n' = true)]
    have hreturn : '\r' ∉ method ++ ' ' :: path := by
      simp [hmethod.notMem (by decide : isWhitespace '\r' = true),
        hpath.notMem (by decide : isWhitespace '\r' = true)]
    have happend := firstLine_append hnewline hreturn tail
    simpa only [List.append_assoc, List.cons_append] using happend
  have hrest : ∃ ws, words isWhitespace (path ++ firstLine tail) = path :: ws := by
    cases hcase : firstLine tail with
    | nil =>
        rw [List.append_nil, words_singleton hpath.solid hpath.nonempty]
        exact ⟨[], rfl⟩
    | cons c cs =>
        -- the line goes on with the blank that ends the path
        have hc : isWhitespace c = true := by
          obtain ⟨ys, hys⟩ := prefix_of_firstLine tail
          rw [hcase] at hys
          apply htail c
          rw [← hys]
          rfl
        rw [words_cons_append hpath.solid hpath.nonempty hc]
        exact ⟨_, rfl⟩
  obtain ⟨ws, hws⟩ := hrest
  unfold requestPath
  rw [hline, words_cons_append hmethod.solid hmethod.nonempty (by decide), hws]
  rfl

/-- A request is for the path it is made for. -/
theorem Requests.path_eq {path : Text} {bytes : Received} (h : Requests path bytes) :
    bytes.path = path := by
  obtain ⟨method, tail, hmethod, hpath, htail, hbytes⟩ := h
  unfold Received.path
  rw [hbytes, fromUtf8_utf8, Option.getD_some]
  exact requestPath_eq hmethod hpath htail

/-! ### The whole exchange -/

theorem ok_headLine : HeadLine ("HTTP/1.1 ".toList ++ "200 OK".toList) :=
  ⟨by decide, by decide, by decide, by decide⟩

theorem ok_code : (words (· == ' ') ("HTTP/1.1 ".toList ++ "200 OK".toList))[1]?.bind readDecimal
    = some 200 := by decide +kernel

theorem notFound_code : (words (· == ' ') ("HTTP/1.1 ".toList ++ "404 Not Found".toList))[1]?.bind
    readDecimal = some 404 := by decide +kernel

theorem notFound_headLine : HeadLine ("HTTP/1.1 ".toList ++ "404 Not Found".toList) :=
  ⟨by decide, by decide, by decide, by decide⟩

/-- An answer can be read, whatever the path is. -/
theorem readResponse_route (metrics path : Text) : ∃ r : Response,
    (∀ next, readResponse (utf8 (response (route metrics path).1 (route metrics path).2) ++ next)
      = some (r, next)) ∧
    (path = "/metrics".toList → r = ⟨200, metrics⟩) ∧
    (path = "/health".toList ∨ path = "/".toList → r = ⟨200, "OK\n".toList⟩) ∧
    (path ≠ "/metrics".toList → path ≠ "/health".toList → path ≠ "/".toList →
      r = ⟨404, "Not Found\n".toList⟩) := by
  unfold route
  split
  · rename_i hpath
    refine ⟨⟨200, metrics⟩, fun next => readResponse_response ok_headLine ok_code,
      fun _ => rfl, ?_, fun h => absurd hpath h⟩
    rintro (h | h)
    · rw [hpath] at h
      exact absurd h (by decide)
    · rw [hpath] at h
      exact absurd h (by decide)
  · rename_i hpath
    split
    · rename_i hhealth
      refine ⟨⟨200, "OK\n".toList⟩,
        fun next => readResponse_response ok_headLine ok_code,
        fun h => absurd h hpath, fun _ => rfl, fun _ h h' => ?_⟩
      exact absurd hhealth (not_or.mpr ⟨h, h'⟩)
    · rename_i hother
      exact ⟨⟨404, "Not Found\n".toList⟩,
        fun next => readResponse_response notFound_headLine notFound_code,
        fun h => absurd h hpath, fun h => absurd h hother, fun _ _ _ => rfl⟩

/-- What is read of an answer, where the metrics are those of a snapshot. -/
theorem respond_answers (hpercent : ∀ hits total, '\n' ∉ percent hits total) {rateName : Text}
    (hrate : Named rateName) (hnames : (names rateName).Nodup) (snapshot : MetricsSnapshot)
    (bytes : Received) : ∃ reply r,
      respond (format percent rateName snapshot) (some bytes) = some reply ∧
      (∀ next, readResponse (reply ++ next) = some (r, next)) ∧
      Answers snapshot bytes.path r := by
  obtain ⟨r, hread, hmetrics, hhealth, hother⟩ :=
    readResponse_route (format percent rateName snapshot) bytes.path
  refine ⟨_, r, rfl, hread, ?_, hhealth, hother⟩
  intro hpath
  rw [hmetrics hpath]
  exact ⟨rfl, counters_format hpercent hrate hnames snapshot⟩

/-- **A scrape reads back the snapshot**: whatever bytes a `read` brings, the exporter's reply is
one response that ends where the reply ends, and for the path of the request it is the right one. -/
theorem scrape_exact (hpercent : ∀ hits total, '\n' ∉ percent hits total)
    (snapshot : MetricsSnapshot) (bytes : Received) : ∃ reply r,
      Main.handleClient percent (some bytes) snapshot = some reply ∧
      (∀ next, readResponse (reply ++ next) = some (r, next)) ∧
      Answers snapshot bytes.path r ∧
      ∀ path, Requests path bytes → bytes.path = path := by
  obtain ⟨reply, r, hreply, hread, hanswers⟩ := respond_answers hpercent
    (by decide : Named "aethalloc_cache_hit_rate_percent".toList) (by decide +kernel) snapshot bytes
  exact ⟨reply, r, hreply, hread, hanswers, fun path h => h.path_eq⟩

/-- What a client sends for the metrics. -/
def getMetricsRequest : List UInt8 := utf8 "GET /metrics HTTP/1.1\r\nHost: localhost\r\n\r\n".toList

theorem getMetricsRequest_fits : getMetricsRequest.length ≤ BUFFER_SIZE := by decide +kernel

theorem getMetricsRequest_requests : Requests "/metrics".toList getMetricsRequest := by
  have hsolid : ∀ w : Text, (w.all fun c => !isWhitespace c) = true →
      ∀ c ∈ w, isWhitespace c = false := by
    intro w hw c hc
    have := List.all_eq_true.mp hw c hc
    simpa using this
  refine ⟨"GET".toList, " HTTP/1.1\r\nHost: localhost\r\n\r\n".toList,
    ⟨by decide, hsolid _ (by decide)⟩, ⟨by decide, hsolid _ (by decide)⟩, ?_, by decide +kernel⟩
  intro c hc
  obtain rfl : ' ' = c := Option.some.inj hc
  decide

/-- Three allocations from the caches of which two were hits, and one of the blocks given back. -/
theorem scrape_exact_get : ∃ reply r,
    Main.handleClient (fun _ _ => "66.67".toList)
      (some ⟨getMetricsRequest, getMetricsRequest_fits⟩) ⟨3, 1, 2, 1, 0⟩ = some reply ∧
    (∀ next, readResponse (reply ++ next) = some (r, next)) ∧
    r.code = 200 ∧ counters r.body = some ⟨3, 1, 2, 1, 0⟩ := by
  have hpercent : '\n' ∉ "66.67".toList := by decide
  obtain ⟨reply, r, hreply, hread, hanswers, hpath⟩ := scrape_exact (fun _ _ => hpercent)
    ⟨3, 1, 2, 1, 0⟩ ⟨getMetricsRequest, getMetricsRequest_fits⟩
  obtain ⟨hcode, hcounters, -⟩ := hanswers.metrics (hpath _ getMetricsRequest_requests)
  exact ⟨reply, r, hreply, hread, hcode, hcounters⟩

end Aethalloc.Exporter
