import Mahimahi.ChunkSize

/-!
# What a Content-Length means

The value of a `Content-Length` header goes through `strtol` to a `long`, and
from there to a `size_t`. A number that is not negative is the size that the
message expects, and then the parser takes that many bytes for the body and not
one more, in whatever pieces they come (`delimits_of_known`). But `strtol` takes
a minus sign, and in `size_t` the number comes out close to `2 ^ 64`: the message
has a size that nobody wrote (`contentLength_faithful_iff`).
-/

namespace Mahimahi

/-! ## Bodies of known size -/

namespace HTTPMessageSequence

variable {X S : Type}

/-- The message is complete, and `rest` is left for the next one. -/
def afterMessage [HTTPMessageType X] (m : HTTPMessage X) (rest : Bytes)
    (c : HTTPMessageSequence X S) : HTTPMessageSequence X S :=
  { c with
    buffer := rest
    completeMessages := c.completeMessages ++ [m]
    messageInProgress := HTTPMessage.initial }

variable [HTTPMessageType X] [HTTPMessageParser X S]

/-- A parser in front of the blank line, with `x` behind it, that makes the message `m`
of the head: of all that comes, in whatever calls, the body is the first `n` bytes. -/
structure Delimits (c : HTTPMessageSequence X S) (x : Bytes) (m : HTTPMessage X) (n : Nat) :
    Prop where
  pending : ∀ bufs : List Bytes, (∀ buf ∈ bufs, buf ≠ []) → (x ++ bufs.flatten).length < n →
    (c.parseAll >>= parseCalls bufs) = .ok { c with
      buffer := []
      messageInProgress := { m with body := x ++ bufs.flatten, state := .bodyPending } }
  atOnce : n ≤ x.length →
    c.parseAll =
      (c.afterMessage { m with body := x.take n, state := .complete } (x.drop n)).parseAll
  complete : ∀ (bufs : List Bytes) (last : Bytes), (∀ buf ∈ bufs, buf ≠ []) → last ≠ [] →
    (x ++ bufs.flatten).length < n → n ≤ (x ++ bufs.flatten ++ last).length →
    (c.parseAll >>= parseCalls (bufs ++ [last])) =
      (c.afterMessage { m with body := (x ++ bufs.flatten ++ last).take n, state := .complete }
        ((x ++ bufs.flatten ++ last).drop n)).parseAll

variable [HTTPParserLaws X S] {c : HTTPMessageSequence X S} {m : HTTPMessage X} {x : Bytes} {n : Nat}

theorem parseAll_short (h : c.Sound) (hstate : c.messageInProgress.state = .bodyPending)
    (hsize : c.messageInProgress.expectedBodySize = (true, n))
    (hshort : (c.messageInProgress.body ++ c.buffer).length < n) :
    c.parseAll = .ok { c with
      buffer := []
      messageInProgress := { c.messageInProgress with
        body := c.messageInProgress.body ++ c.buffer } } := by
  have hk : c.messageInProgress.expectedBodySize.1 = true := by rw [hsize]
  refine parseAll_of_rests h (.body hstate ((HTTPMessage.goesOn_known_iff (h.due hstate) hk).mpr
    ⟨?_, rfl⟩))
  rw [List.length_append] at hshort
  rw [hsize]
  omega

theorem parseAll_enough (h : c.Sound) (hstate : c.messageInProgress.state = .bodyPending)
    (hsize : c.messageInProgress.expectedBodySize = (true, n))
    (henough : n ≤ (c.messageInProgress.body ++ c.buffer).length) :
    c.parseAll = (c.afterMessage
      { c.messageInProgress with
        body := (c.messageInProgress.body ++ c.buffer).take n
        state := .complete }
      ((c.messageInProgress.body ++ c.buffer).drop n)).parseAll := by
  have hk : c.messageInProgress.expectedBodySize.1 = true := by rw [hsize]
  have hdue := h.due hstate
  have hbody := hdue.known hk
  have hn : c.messageInProgress.expectedBodySize.2 = n := by rw [hsize]
  have hread := HTTPMessage.readInBody_of_known (x := c.buffer) hstate hk hbody
  rw [hn] at hbody hread
  have hleft : n - c.messageInProgress.body.length ≤ c.buffer.length := by
    rw [List.length_append] at henough
    omega
  rw [Nat.min_eq_left hleft, if_pos hleft] at hread
  have hends := (HTTPMessage.ends_known_iff (x := c.buffer) hdue hk).mpr
    ⟨by rw [hn]; exact hleft, rfl⟩
  rw [hn] at hends
  have hgo := Goes.body (S := S) hstate hends hread rfl
  have hdone := hgo.sound h
  rw [parseAll_of_goes h hgo, parseAll_of_goes hdone (.complete rfl), afterMessage,
    List.take_append, List.drop_append, List.take_of_length_le hbody, List.drop_of_length_le hbody,
    List.nil_append]

theorem parseCalls_short : ∀ {bufs : List Bytes} {c : HTTPMessageSequence X S}, c.Sound →
    c.messageInProgress.state = .bodyPending → c.messageInProgress.expectedBodySize = (true, n) →
    c.buffer = [] → (∀ buf ∈ bufs, buf ≠ []) →
    (c.messageInProgress.body ++ bufs.flatten).length < n →
    parseCalls bufs c = .ok { c with
      messageInProgress := { c.messageInProgress with
        body := c.messageInProgress.body ++ bufs.flatten } }
  | [], c, _, _, _, _, _, _ => by simp [parseCalls]
  | buf :: bufs, c, h, hstate, hsize, hbuffer, hbufs, hshort => by
      simp only [List.flatten_cons, ← List.append_assoc] at hshort ⊢
      have hone : (c.messageInProgress.body ++ buf).length < n := by
        rw [List.length_append] at hshort
        omega
      have hcall : c.parse buf = .ok { c with
          messageInProgress := { c.messageInProgress with
            body := c.messageInProgress.body ++ buf } } := by
        have hfeed : (c.feed buf).buffer = buf := by rw [feed, hbuffer, List.nil_append]
        rw [parse_of_ne_nil (hbufs buf (by simp)), parseAll_short (h.feed buf) hstate hsize]
        · rw [hfeed, feed, ← hbuffer]
        · rw [hfeed]
          exact hone
      have hsound : HTTPMessageSequence.Sound { c with
          messageInProgress := { c.messageInProgress with
            body := c.messageInProgress.body ++ buf } } := by
        have horder := parse_orderly h (by rw [hstate]; exact fun h => by cases h) buf
        rw [hcall] at horder
        exact horder.1
      rw [parseCalls, hcall]
      exact parseCalls_short hsound hstate hsize hbuffer
        (fun b hb => hbufs b (List.mem_cons_of_mem _ hb)) hshort

omit [HTTPParserLaws X S] in
theorem parseCalls_append (bufs rest : List Bytes) (c : HTTPMessageSequence X S) :
    parseCalls (bufs ++ rest) c = parseCalls bufs c >>= parseCalls rest := by
  induction bufs generalizing c with
  | nil => rfl
  | cons buf bufs ih =>
      simp only [List.cons_append, parseCalls]
      cases c.parse buf with
      | error e => rfl
      | ok c' => exact ih c'

/-- The blank line, and calls that do not complete the body. The parser that they leave is
sound, for the call that does. -/
theorem calls_short (h : c.Sound) (hgo : Goes c { c with
      buffer := x
      messageInProgress := m })
    (hpending : m.state = .bodyPending) (hbody : m.body = []) (hsize : m.expectedBodySize = (true, n))
    {bufs : List Bytes} (hbufs : ∀ buf ∈ bufs, buf ≠ []) (hlt : (x ++ bufs.flatten).length < n) :
    (c.parseAll >>= parseCalls bufs) = .ok { c with
        buffer := []
        messageInProgress := { m with body := x ++ bufs.flatten } } ∧
      HTTPMessageSequence.Sound { c with
        buffer := []
        messageInProgress := { m with body := x ++ bufs.flatten } } := by
  have hx : x.length < n := by
    rw [List.length_append] at hlt
    omega
  have hfirst : c.parseAll = .ok { c with
      buffer := []
      messageInProgress := { m with body := x } } := by
    rw [parseAll_of_goes h hgo, parseAll_short (hgo.sound h) hpending hsize (by simpa [hbody] using hx)]
    simp [hbody]
  have hwaits : HTTPMessageSequence.Sound { c with
      buffer := []
      messageInProgress := { m with body := x } } := by
    have horder := parseAll_orderly h
    rw [hfirst] at horder
    exact horder.1
  have hrun := parseCalls_short hwaits hpending hsize rfl hbufs hlt
  refine ⟨by rw [hfirst, ok_bind, hrun], ?_⟩
  have horder := parseCalls_orderly hwaits (by simp [hpending]) bufs
  rw [hrun] at horder
  exact horder.1

/-- **A body of known size is as long as its size.** -/
theorem delimits_of_known (h : c.Sound) (hstate : c.messageInProgress.state = .headersPending)
    (hline : IsLine c.buffer [] x)
    (hcalc : HTTPMessageType.calculateExpectedBodySize
      { c.messageInProgress with state := .bodyPending } = .ok m)
    (hsize : m.expectedBodySize = (true, n)) : c.Delimits x m n := by
  have hgo := Goes.blankLine (S := S) hstate hline hcalc
  have hm := (HTTPBodyLaws.calculate_ok hcalc).1
  have hpending : m.state = .bodyPending := by rw [hm]
  have hbody : m.body = [] := by
    have hin := h.inProgress
    rw [HTTPMessage.InOrder, hstate] at hin
    rw [hm]
    exact hin.1
  refine ⟨fun bufs hbufs hlt => ?_, fun hle => ?_, fun bufs last hbufs hlast hlt hle => ?_⟩
  · rw [(calls_short h hgo hpending hbody hsize hbufs hlt).1, ← hpending]
  · rw [parseAll_of_goes h hgo,
      parseAll_enough (hgo.sound h) hpending hsize (by simpa [hbody] using hle)]
    simp [hbody, afterMessage]
  · obtain ⟨hcalls, hsound⟩ := calls_short h hgo hpending hbody hsize hbufs hlt
    have hsplit : (c.parseAll >>= parseCalls (bufs ++ [last]))
        = (c.parseAll >>= parseCalls bufs) >>= parseCalls [last] := by
      cases c.parseAll with
      | error e => rfl
      | ok c' => exact parseCalls_append bufs [last] c'
    have hone (d : HTTPMessageSequence X S) : parseCalls [last] d = d.parse last := by
      rw [parseCalls]
      cases d.parse last <;> rfl
    rw [hsplit, hcalls, ok_bind, hone, parse_of_ne_nil hlast,
      parseAll_enough (hsound.feed last) hpending hsize hle]
    rfl

end HTTPMessageSequence

/-! ## The number that is written -/

/-- The text is a decimal number, white space and a sign in front of it allowed, and
`z` is that number. -/
def Denotes (v : Bytes) (z : Int) : Prop :=
  ∃ spaces sign digits, v = spaces ++ sign ++ digits ∧ IsNumeral 10 spaces sign [] digits ∧
    z = numeralValue 10 sign digits

/-- A minus sign, and not just zeros behind it. -/
def IsNegativeNumber (v : Bytes) : Prop :=
  ∃ spaces digits, v = spaces ++ [45] ++ digits ∧ (∀ c ∈ spaces, isSpace c = true) ∧
    IsNumber 10 digits ∧ digitsValue 10 digits ≠ 0

theorem IsNegativeNumber.denotes {v : Bytes} (h : IsNegativeNumber v) : ∃ z < 0, Denotes v z := by
  obtain ⟨spaces, digits, rfl, hspaces, hnumber, hne⟩ := h
  refine ⟨numeralValue 10 [45] digits, ?_, spaces, [45], digits, rfl,
    ⟨hspaces, .inr (.inr rfl), .inl rfl, hnumber⟩, rfl⟩
  rw [numeralValue, if_pos rfl]
  omega

theorem Denotes.isNegativeNumber {v : Bytes} {z : Int} (h : Denotes v z) (hz : z < 0) :
    IsNegativeNumber v := by
  obtain ⟨spaces, sign, digits, rfl, hnumeral, rfl⟩ := h
  rw [numeralValue] at hz
  split at hz
  · next hsign => exact ⟨spaces, digits, by rw [hsign], hnumeral.white, hnumeral.number, by omega⟩
  · omega

/-- A text is read as one number only, up to the range of `long`. -/
theorem Denotes.strtol_value {v : Bytes} {z : Int} (h : Denotes v z) :
    (strtol v 10).value = max (- 2 ^ 63) (min (2 ^ 63 - 1) z) := by
  obtain ⟨spaces, sign, digits, rfl, hnumeral, rfl⟩ := h
  have hstrtol := hnumeral.strtol (by decide)
  rw [List.append_nil] at hstrtol
  rw [hstrtol]

theorem IsNegativeNumber.not_denotes {v : Bytes} (h : IsNegativeNumber v) (n : Nat) :
    ¬ Denotes v n := by
  intro hn
  obtain ⟨z, hz, hdenotes⟩ := h.denotes
  have hvalue := hn.strtol_value.symm.trans hdenotes.strtol_value
  omega

theorem myatoi_eq_ok_iff_denotes {v : Bytes} {z : Int} :
    myatoi v 10 = .ok z ↔ Denotes v z ∧ - 2 ^ 63 ≤ z ∧ z < 2 ^ 63 := by
  rw [myatoi_eq_ok (by decide)]
  constructor
  · rintro ⟨spaces, sign, lead, digits, hv, hnumeral, hz, hlow, hhigh⟩
    have hlead : lead = [] := by
      rcases hnumeral.led with hnil | ⟨h16, -⟩
      · exact hnil
      · cases h16
    subst hlead
    rw [List.append_nil] at hv
    exact ⟨⟨spaces, sign, digits, hv, hnumeral, hz⟩, hlow, hhigh⟩
  · rintro ⟨⟨spaces, sign, digits, rfl, hnumeral, hz⟩, hlow, hhigh⟩
    exact ⟨spaces, sign, [], digits, by rw [List.append_nil], hnumeral, hz, hlow, hhigh⟩

/-! ## Framing by a Content-Length -/

/-- The request has a body, and a `Content-Length` with the value `v` frames it. -/
structure HTTPRequest.FramedByLength (m : HTTPRequest) (v : Bytes) : Prop where
  post : m.firstLine.take 5 = ascii "POST "
  value : m.getHeaderValue (ascii "Content-Length") = .ok v

/-- No rule comes before that of the `Content-Length`, which has the value `v`. -/
structure HTTPResponse.FramedByLength (m : HTTPResponse) (v : Bytes) : Prop where
  hasBody : m.hasNoBody = .ok false
  noEncoding : m.hasHeader (ascii "Transfer-Encoding") = false
  value : m.getHeaderValue (ascii "Content-Length") = .ok v

theorem HTTPRequest.not_getOrHead {m : HTTPRequest} (hpost : m.firstLine.take 5 = ascii "POST ") :
    ¬ (m.firstLine.take 4 = ascii "GET " ∨ m.firstLine.take 5 = ascii "HEAD ") := by
  rintro (hget | hhead)
  · have htake := congrArg (List.take 4) hpost
    rw [List.take_take, Nat.min_eq_left (by decide), hget] at htake
    exact absurd htake (by decide)
  · exact absurd (hhead.symm.trans hpost) (by decide)

theorem HTTPMessage.size_of_value {X : Type} {m m' : HTTPMessage X} {v : Bytes}
    (hvalue : m.getHeaderValue (ascii "Content-Length") = .ok v)
    (h : (do
      let value ← m.getHeaderValue (ascii "Content-Length")
      let size ← myatoi value 10
      m.setExpectedBodySize true (toSizeT size)) = .ok m') :
    ∃ z, myatoi v 10 = .ok z ∧ m'.expectedBodySize = (true, toSizeT z) := by
  rw [hvalue, ok_bind] at h
  obtain ⟨z, hz, hset⟩ := bind_eq_ok.mp h
  obtain ⟨-, rfl⟩ := HTTPMessage.setExpectedBodySize_eq_ok.mp hset
  exact ⟨z, hz, rfl⟩

theorem HTTPRequest.FramedByLength.size {m m' : HTTPRequest} {v : Bytes} (h : m.FramedByLength v)
    (hcalc : m.calculateExpectedBodySize = .ok m') :
    ∃ z, myatoi v 10 = .ok z ∧ m'.expectedBodySize = (true, toSizeT z) := by
  have hhas := HTTPMessage.hasHeader_of_getHeaderValue h.value
  obtain ⟨-, -, hcalc⟩ := bind_eq_ok.mp hcalc
  rw [if_neg (not_getOrHead h.post), if_pos h.post, hhas] at hcalc
  exact HTTPMessage.size_of_value h.value hcalc

theorem HTTPResponse.FramedByLength.size {m m' : HTTPResponse} {v : Bytes} (h : m.FramedByLength v)
    (hcalc : m.calculateExpectedBodySize = .ok m') :
    ∃ z, myatoi v 10 = .ok z ∧ m'.expectedBodySize = (true, toSizeT z) := by
  have hchunked : m.isChunked = .ok false := by simp [isChunked, h.noEncoding]
  have hhas := HTTPMessage.hasHeader_of_getHeaderValue h.value
  obtain ⟨-, -, hcalc⟩ := bind_eq_ok.mp hcalc
  rw [h.hasBody, ok_bind, if_neg Bool.false_ne_true, hchunked, ok_bind, if_neg Bool.false_ne_true,
    h.noEncoding, hhas, if_pos (by rfl)] at hcalc
  exact HTTPMessage.size_of_value h.value hcalc

/-- The message expects the number of bytes that is written, and gets as many. -/
def HTTPMessageSequence.KeepsLength {X S : Type} [HTTPMessageType X] [HTTPMessageParser X S]
    (c : HTTPMessageSequence X S) (x : Bytes) (m : HTTPMessage X) (v : Bytes) : Prop :=
  ∃ n : Nat, Denotes v n ∧ n < 2 ^ 63 ∧ m.getExpectedBodySize = .ok n ∧ c.Delimits x m n

/-- What is the same for requests and responses: the size comes from the value. -/
theorem HTTPMessageSequence.keepsLength_iff {X S : Type} [HTTPMessageType X] [HTTPMessageParser X S]
    [HTTPParserLaws X S] {c : HTTPMessageSequence X S} {x : Bytes} {m : HTTPMessage X} {v : Bytes}
    {z : Int} (h : c.Sound) (hstate : c.messageInProgress.state = .headersPending)
    (hline : IsLine c.buffer [] x)
    (hcalc : HTTPMessageType.calculateExpectedBodySize
      { c.messageInProgress with state := .bodyPending } = .ok m)
    (hz : myatoi v 10 = .ok z) (hsize : m.expectedBodySize = (true, toSizeT z)) :
    c.KeepsLength x m v ↔ ¬ IsNegativeNumber v := by
  obtain ⟨hdenotes, -, hhigh⟩ := myatoi_eq_ok_iff_denotes.mp hz
  constructor
  · rintro ⟨n, hn, -⟩ hneg
    exact hneg.not_denotes n hn
  · intro hnot
    have hpos : 0 ≤ z := Int.not_lt.mp fun hneg => hnot (hdenotes.isNegativeNumber hneg)
    obtain ⟨n, rfl⟩ := Int.eq_ofNat_of_zero_le hpos
    have hn : toSizeT n = n := by
      rw [toSizeT]
      omega
    rw [hn] at hsize
    have hpending : m.state = .bodyPending := by rw [(HTTPBodyLaws.calculate_ok hcalc).1]
    refine ⟨n, hdenotes, by omega, ?_, delimits_of_known h hstate hline hcalc hsize⟩
    simp [HTTPMessage.getExpectedBodySize, HTTPMessage.bodySizeIsKnown, hpending, hsize]

/-- **A Content-Length means what it says unless it is a negative number.** -/
theorem contentLength_faithful_iff (v : Bytes) :
    (∀ (c : HTTPRequestParser) (x : Bytes) (m : HTTPRequest), c.Sound →
      c.messageInProgress.state = .headersPending → IsLine c.buffer [] x →
      HTTPRequest.FramedByLength { c.messageInProgress with state := .bodyPending } v →
      HTTPRequest.calculateExpectedBodySize { c.messageInProgress with state := .bodyPending }
        = .ok m →
      (c.KeepsLength x m v ↔ ¬ IsNegativeNumber v)) ∧
    ∀ (c : HTTPResponseParser) (x : Bytes) (m : HTTPResponse), c.Sound →
      c.messageInProgress.state = .headersPending → IsLine c.buffer [] x →
      HTTPResponse.FramedByLength { c.messageInProgress with state := .bodyPending } v →
      HTTPResponse.calculateExpectedBodySize { c.messageInProgress with state := .bodyPending }
        = .ok m →
      (c.KeepsLength x m v ↔ ¬ IsNegativeNumber v) := by
  constructor
  · intro c x m hsound hstate hline hframed hcalc
    obtain ⟨z, hz, hsize⟩ := hframed.size hcalc
    exact HTTPMessageSequence.keepsLength_iff hsound hstate hline hcalc hz hsize
  · intro c x m hsound hstate hline hframed hcalc
    obtain ⟨z, hz, hsize⟩ := hframed.size hcalc
    exact HTTPMessageSequence.keepsLength_iff hsound hstate hline hcalc hz hsize

theorem isNegativeNumber_minusFive : IsNegativeNumber (ascii "-5") :=
  ⟨[], ascii "5", rfl, fun c hc => (by cases hc), ⟨by decide, by decide +kernel⟩, by decide +kernel⟩

/-- A parser that has read a message as far as a `Content-Length` of `v`. -/
def lengthRead {X S : Type} (line v buffer : Bytes) (part : X) (derived : S) :
    HTTPMessageSequence X S where
  buffer := buffer
  completeMessages := []
  messageInProgress := {
    expectedBodySize := (false, 0)
    firstLine := line
    headers := [⟨ascii "Content-Length", v⟩]
    body := []
    state := .headersPending
    derived := part }
  derived := derived

theorem isLine_blank (x : Bytes) : IsLine (crlf ++ x) [] x := ⟨rfl, rfl⟩

/-- A request that announces five bytes gets five, a response that announces `-5` does not
keep to it. -/
theorem contentLength_faithful_iff_five :
    (∃ m, HTTPRequest.calculateExpectedBodySize
        { (lengthRead (ascii "POST / HTTP/1.1") (ascii "5") (crlf ++ ascii "helloGET /") {}
          () : HTTPRequestParser).messageInProgress with state := .bodyPending } = .ok m ∧
      (lengthRead (ascii "POST / HTTP/1.1") (ascii "5") (crlf ++ ascii "helloGET /") {}
        () : HTTPRequestParser).KeepsLength (ascii "helloGET /") m (ascii "5")) ∧
    ∃ m, HTTPResponse.calculateExpectedBodySize
        { (lengthRead (ascii "HTTP/1.1 200 OK") (ascii "-5") (crlf ++ ascii "hello")
          ⟨.bare (ascii "GET / HTTP/1.1"), none⟩ [] : HTTPResponseParser).messageInProgress with
          state := .bodyPending } = .ok m ∧
      ¬ (lengthRead (ascii "HTTP/1.1 200 OK") (ascii "-5") (crlf ++ ascii "hello")
        ⟨.bare (ascii "GET / HTTP/1.1"), none⟩ [] : HTTPResponseParser).KeepsLength
          (ascii "hello") m (ascii "-5") := by
  constructor
  · have hsound : (lengthRead (ascii "POST / HTTP/1.1") (ascii "5") (crlf ++ ascii "helloGET /") {}
        () : HTTPRequestParser).Sound := ⟨⟨rfl, trivial⟩, fun m hm => (by cases hm)⟩
    have hnot : ¬ IsNegativeNumber (ascii "5") := by
      rintro ⟨spaces, digits, hv, -⟩
      have hminus : (45 : UInt8) ∈ ascii "5" := by
        rw [hv]
        simp
      exact absurd hminus (by decide)
    exact ⟨_, rfl, ((contentLength_faithful_iff (ascii "5")).1 _ _ _ hsound rfl (isLine_blank _)
      ⟨by decide, rfl⟩ rfl).mpr hnot⟩
  · have hsound : (lengthRead (ascii "HTTP/1.1 200 OK") (ascii "-5") (crlf ++ ascii "hello")
        ⟨.bare (ascii "GET / HTTP/1.1"), none⟩ [] : HTTPResponseParser).Sound :=
      ⟨⟨rfl, rfl⟩, fun m hm => (by cases hm)⟩
    exact ⟨_, rfl, fun hkeeps => ((contentLength_faithful_iff (ascii "-5")).2 _ _ _ hsound rfl
      (isLine_blank _) ⟨rfl, rfl, rfl⟩ rfl).mp hkeeps isNegativeNumber_minusFive⟩

/-- A length of `-5` is `2 ^ 64 - 5` to the parser, and the request that follows becomes
a part of the body. -/
theorem negative_length_swallows :
    (∃ c : HTTPRequestParser, HTTPMessageSequence.parse (ascii "POST / HTTP/1.1\r\n" ++
          ascii "Content-Length: -5\r\n\r\n" ++ ascii "GET / HTTP/1.1\r\n\r\n") (.initial ()) = .ok c ∧
      c.completeMessages = [] ∧
      HTTPRequest.FramedByLength c.messageInProgress (ascii "-5") ∧
      c.messageInProgress.getExpectedBodySize = .ok (2 ^ 64 - 5) ∧
      c.messageInProgress.body = ascii "GET / HTTP/1.1\r\n\r\n") ∧
    ∀ n : Nat, ¬ Denotes (ascii "-5") n := by
  refine ⟨⟨{ buffer := [], completeMessages := [], messageInProgress :=
      { expectedBodySize := (true, 2 ^ 64 - 5), firstLine := ascii "POST / HTTP/1.1"
        headers := [⟨ascii "Content-Length", ascii "-5"⟩], body := ascii "GET / HTTP/1.1\r\n\r\n"
        state := .bodyPending, derived := {} }, derived := () },
    by rfl, rfl, ⟨by decide, by rfl⟩, by rfl, rfl⟩, ?_⟩
  · exact isNegativeNumber_minusFive.not_denotes

end Mahimahi
