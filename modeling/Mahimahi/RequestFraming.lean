import Mahimahi.ContentLength

/-!
# Requests with a chunked body

A response looks for a `Transfer-Encoding` before it looks for a
`Content-Length`; a request looks for a `Content-Length` only. So a request with a
chunked body is refused as long as there is no length to go by. With one, the
chunks are taken for a body of that length, and what is behind it for the next
request (`HTTPRequestParser.refuses_chunked_iff`).
-/

namespace Mahimahi

/-- The last of the transfer codings is `chunked`. -/
def LastCodingChunked (value : Bytes) : Prop :=
  ∃ codings last, split value (ascii ",") = .ok codings ∧ codings.getLast? = some last ∧
    equivalentStrings last (ascii "chunked") = true

/-- A `Transfer-Encoding` whose last coding is `chunked`, as the response has it. -/
def HTTPHeader.NamesChunked (h : HTTPHeader) : Prop :=
  equivalentStrings h.key (ascii "Transfer-Encoding") = true ∧ LastCodingChunked h.value

namespace HTTPRequest

/-- A POST request that says that its body is chunked. -/
structure ChunkedPost (m : HTTPRequest) : Prop where
  post : m.firstLine.take 5 = ascii "POST "
  chunked : ∃ h ∈ m.headers, h.NamesChunked

/-- There is a `Content-Length`, and the first one has a number that is a `long`. -/
def HasLength (m : HTTPRequest) : Prop :=
  ∃ v z, m.getHeaderValue (ascii "Content-Length") = .ok v ∧ Denotes v z ∧
    - 2 ^ 63 ≤ z ∧ z < 2 ^ 63

theorem getHeaderValue_of_hasHeader {m : HTTPRequest} {name : Bytes}
    (h : m.hasHeader name = true) : ∃ v, m.getHeaderValue name = .ok v := by
  obtain ⟨header, hmem, heq⟩ := List.any_eq_true.mp h
  cases hfind : m.headers.find? fun header => equivalentStrings header.key name with
  | none => exact absurd heq (List.find?_eq_none.mp hfind header hmem)
  | some header' => exact ⟨header'.value, by rw [HTTPMessage.getHeaderValue, hfind]⟩

/-- A POST is opened if it has a length, and not otherwise. -/
theorem calculateExpectedBodySize_post {m : HTTPRequest} (hstate : m.state = .bodyPending)
    (hpost : m.firstLine.take 5 = ascii "POST ") :
    (∃ m', m.calculateExpectedBodySize = .ok m') ↔ m.HasLength := by
  constructor
  · rintro ⟨m', hcalc⟩
    cases hhas : m.hasHeader (ascii "Content-Length") with
    | true =>
        obtain ⟨v, hv⟩ := getHeaderValue_of_hasHeader hhas
        obtain ⟨z, hz, -⟩ := FramedByLength.size ⟨hpost, hv⟩ hcalc
        exact ⟨v, z, hv, myatoi_eq_ok_iff_denotes.mp hz⟩
    | false =>
        obtain ⟨-, -, hcalc⟩ := bind_eq_ok.mp hcalc
        rw [if_neg (not_getOrHead hpost), if_pos hpost, hhas] at hcalc
        cases hcalc
  · rintro ⟨v, z, hv, hz⟩
    have hatoi := myatoi_eq_ok_iff_denotes.mpr hz
    have hhas := HTTPMessage.hasHeader_of_getHeaderValue hv
    have htest : (m.state == .bodyPending) = true := beq_iff_eq.mpr hstate
    refine ⟨{ m with expectedBodySize := (true, toSizeT z) }, ?_⟩
    rw [calculateExpectedBodySize, htest, assertThat_true, ok_bind,
      if_neg (not_getOrHead hpost), if_pos hpost, hhas, hv, ok_bind, hatoi, ok_bind]
    exact HTTPMessage.setExpectedBodySize_eq_ok.mpr ⟨hstate, rfl⟩

end HTTPRequest

namespace HTTPRequestParser

open HTTPMessageSequence

variable {c : HTTPRequestParser} {x : Bytes}

/-- The parser throws at the end of the headers, and has delivered what it had before. -/
def Refuses (c : HTTPRequestParser) : Prop :=
  ∃ e, c.parsingStep = .error e ∧ c.parseAll = .error (e, c.completeMessages)

/-- The size is calculated at the blank line, and nothing else can throw there. -/
theorem refuses_iff_calculate (h : c.Sound)
    (hstate : c.messageInProgress.state = .headersPending) (hline : IsLine c.buffer [] x) :
    Refuses c ↔ ¬ ∃ m, HTTPRequest.calculateExpectedBodySize
      { c.messageInProgress with state := .bodyPending } = .ok m := by
  constructor
  · rintro ⟨e, hstep, -⟩ ⟨m, hm⟩
    have hturn := parseTurn_of_goes (Goes.blankLine hstate hline hm)
    rw [parseTurn, hstep] at hturn
    cases hturn
  · intro hnot
    cases hcalc : HTTPRequest.calculateExpectedBodySize
        { c.messageInProgress with state := .bodyPending } with
    | ok m => exact absurd ⟨m, hcalc⟩ hnot
    | error e =>
        have hfails : Fails c e := .blankLine hstate hline hcalc
        refine ⟨e, ?_, parseAll_of_fails h hfails⟩
        have hturn := parseTurn_of_fails hfails
        rw [parseTurn] at hturn
        split at hturn
        · next e' hstep =>
            cases hturn
            exact hstep
        · cases hturn
        · cases hturn

/-- **A chunked request is refused unless it has a length.** With one, the size that the
parser goes by is that length. -/
theorem refuses_chunked_iff (h : c.Sound)
    (hstate : c.messageInProgress.state = .headersPending) (hline : IsLine c.buffer [] x)
    (hpost : HTTPRequest.ChunkedPost c.messageInProgress) :
    (Refuses c ↔ ¬ HTTPRequest.HasLength c.messageInProgress) ∧
      (¬ Refuses c → ∃ m n, m.expectedBodySize = (true, n) ∧ c.Delimits x m n) := by
  have hopens := refuses_iff_calculate h hstate hline
  constructor
  · rw [hopens]
    exact not_congr (HTTPRequest.calculateExpectedBodySize_post rfl hpost.post)
  · intro hnot
    obtain ⟨m, hm⟩ := not_not.mp fun hno => hnot (hopens.mpr hno)
    obtain ⟨-, n, hn⟩ := HTTPRequest.calculateExpectedBodySize_ok hm
    have hsize : m.expectedBodySize = (true, n) := by rw [hn]
    exact ⟨m, n, hsize, delimits_of_known h hstate hline hm hsize⟩

/-! ## Heads with and without a length -/

def chunkedHeader : HTTPHeader := ⟨ascii "Transfer-Encoding", ascii "gzip, chunked"⟩

theorem namesChunked_chunkedHeader : chunkedHeader.NamesChunked :=
  ⟨by decide, [ascii "gzip", ascii " chunked"], ascii " chunked", by rfl, rfl, by decide⟩

/-- A POST at the end of its headers, with one byte behind them. -/
def chunkedHead : HTTPRequestParser where
  buffer := crlf ++ ascii "0"
  completeMessages := []
  messageInProgress := { (HTTPMessage.initial : HTTPRequest) with
    firstLine := ascii "POST / HTTP/1.1"
    headers := [chunkedHeader]
    state := .headersPending }
  derived := ()

theorem refuses_chunked_iff_chunkedHead :
    (Refuses chunkedHead ↔ ¬ HTTPRequest.HasLength chunkedHead.messageInProgress) ∧
      (¬ Refuses chunkedHead → ∃ m n, m.expectedBodySize = (true, n) ∧
        chunkedHead.Delimits (ascii "0") m n) := by
  have hsound : chunkedHead.Sound :=
    ⟨⟨rfl, trivial⟩, fun m hm => absurd hm List.not_mem_nil⟩
  have hline : IsLine chunkedHead.buffer [] (ascii "0") := ⟨by rfl, rfl⟩
  exact refuses_chunked_iff hsound rfl hline
    ⟨by decide, chunkedHeader, List.mem_singleton_self _, namesChunked_chunkedHeader⟩

/-- The last chunk of a chunked body is delivered as a body of five bytes. A response
with these headers is chunked. -/
theorem chunks_delivered_as_body :
    (∃ (c : HTTPRequestParser) (m : HTTPRequest),
      parse (ascii "POST / HTTP/1.1\r\nTransfer-Encoding: gzip, chunked\r\n" ++
        ascii "Content-Length: 5\r\n\r\n" ++ ascii "0\r\n\r\n") (.initial ()) = .ok c ∧
      c.completeMessages = [m] ∧ HTTPRequest.ChunkedPost m ∧ m.body = ascii "0\r\n\r\n") ∧
    HTTPResponse.isChunked { (HTTPMessage.initial : HTTPResponse) with
      headers := [chunkedHeader, ⟨ascii "Content-Length", ascii "5"⟩] } = .ok true := by
  refine ⟨⟨_, { expectedBodySize := (true, 5), firstLine := ascii "POST / HTTP/1.1"
                headers := [chunkedHeader, ⟨ascii "Content-Length", ascii "5"⟩]
                body := ascii "0\r\n\r\n", state := .complete, derived := {} },
    by rfl, by rfl, ⟨by decide, chunkedHeader, ?_, namesChunked_chunkedHeader⟩, rfl⟩, by rfl⟩
  exact List.mem_cons_self

end HTTPRequestParser

end Mahimahi
