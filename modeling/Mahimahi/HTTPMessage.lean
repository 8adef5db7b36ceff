import Mahimahi.ChunkedParser

/-!
# HTTP messages

`HTTPMessage X` is a message in progress or complete; `X` stands for the
members that a subclass adds. What a subclass implements is the class
`HTTPMessageType`. A request (`HTTPRequest`) adds nothing and knows only
bodies of known length; a response (`HTTPResponse`) keeps the request that
it answers, which has a say in whether there is a body, and the parser for a
body whose length is not known in advance.
-/

namespace Mahimahi

/-! ## Headers -/

/-- `HTTPHeader`. -/
structure HTTPHeader where
  key : Bytes
  value : Bytes
  deriving DecidableEq, Repr

namespace HTTPHeader

/-- The constructor: parse a header line into a key and a value. -/
def ofLine (buf : Bytes) : Except Fault HTTPHeader :=
  match find (ascii ":") buf with
  | none => .error (.runtimeError "HTTPHeader: buffer does not contain colon")
  | some colonLocation =>
      let valueTemp := buf.drop (colonLocation + 1)
      let value := match findFirstNotOf (ascii " ") valueTemp with
        -- handle case where value is only space
        | none => valueTemp
        | some firstNonspace => valueTemp.drop firstNonspace
      .ok ⟨buf.take colonLocation, value⟩

def str (h : HTTPHeader) : Bytes := h.key ++ ascii ": " ++ h.value

end HTTPHeader

/-! ## Messages -/

inductive HTTPMessageState where
  | firstLinePending
  | headersPending
  | bodyPending
  | complete
  deriving DecidableEq, Repr

/-- `HTTPMessage`, with the members `derived` of a subclass. -/
structure HTTPMessage (X : Type) where
  /-- Whether the size is known in advance, and the size. -/
  expectedBodySize : Bool × Nat
  firstLine : Bytes
  headers : List HTTPHeader
  body : Bytes
  state : HTTPMessageState
  derived : X
  deriving DecidableEq, Repr

/-- What the subclasses of `HTTPMessage` implement. -/
class HTTPMessageType (X : Type) where
  initial : X
  calculateExpectedBodySize : HTTPMessage X → Except Fault (HTTPMessage X)
  readInComplexBody : Bytes → HTTPMessage X → Except Fault (Nat × HTTPMessage X)
  eofInBody : HTTPMessage X → Except Fault Bool

/-- Locale-insensitive ASCII conversion. -/
def httpToLower (c : UInt8) : UInt8 := if 65 ≤ c ∧ c ≤ 90 then c + 32 else c

def stripInitialWhitespace (str : Bytes) : Bytes :=
  match findFirstNotOf (ascii " ") str with
  | none => []
  | some firstNonspace => str.drop firstNonspace

/-- Check if two strings are equivalent per HTTP 1.1 comparison. -/
def equivalentStrings (a b : Bytes) : Bool :=
  let newA := stripInitialWhitespace a
  let newB := stripInitialWhitespace b
  newA.length == newB.length && (newA.zip newB).all fun c => httpToLower c.1 == httpToLower c.2

namespace HTTPMessage

variable {X : Type}

def initial [HTTPMessageType X] : HTTPMessage X where
  expectedBodySize := (false, npos)
  firstLine := []
  headers := []
  body := []
  state := .firstLinePending
  derived := HTTPMessageType.initial

def setFirstLine (str : Bytes) (m : HTTPMessage X) : Except Fault (HTTPMessage X) := do
  assertThat (m.state == .firstLinePending) "state_ == FIRST_LINE_PENDING"
  return { m with firstLine := str, state := .headersPending }

def addHeader (str : Bytes) (m : HTTPMessage X) : Except Fault (HTTPMessage X) := do
  assertThat (m.state == .headersPending) "state_ == HEADERS_PENDING"
  let header ← HTTPHeader.ofLine str
  return { m with headers := m.headers ++ [header] }

def setExpectedBodySize (isKnown : Bool) (value : Nat) (m : HTTPMessage X) :
    Except Fault (HTTPMessage X) := do
  assertThat (m.state == .bodyPending) "state_ == BODY_PENDING"
  return { m with expectedBodySize := (isKnown, value) }

def bodySizeIsKnown (m : HTTPMessage X) : Except Fault Bool := do
  assertThat (m.state == .bodyPending || m.state == .complete) "state_ > HEADERS_PENDING"
  return m.expectedBodySize.1

/-- The getter `expected_body_size()`. -/
def getExpectedBodySize (m : HTTPMessage X) : Except Fault Nat := do
  assertThat (← m.bodySizeIsKnown) "body_size_is_known()"
  return m.expectedBodySize.2

def hasHeader (headerName : Bytes) (m : HTTPMessage X) : Bool :=
  m.headers.any fun header => equivalentStrings header.key headerName

def getHeaderValue (headerName : Bytes) (m : HTTPMessage X) : Except Fault Bytes :=
  match m.headers.find? fun header => equivalentStrings header.key headerName with
  | some header => .ok header.value
  | none => .error (.runtimeErrorWith "HTTPMessage header not found: " headerName)

/-- Serialize the request or response as one string. -/
def str (m : HTTPMessage X) : Except Fault Bytes := do
  assertThat (m.state == .complete) "state_ == COMPLETE"
  return m.firstLine ++ crlf ++ m.headers.flatMap (fun h => h.str ++ crlf) ++ crlf ++ m.body

section

variable [HTTPMessageType X]

def doneWithHeaders (m : HTTPMessage X) : Except Fault (HTTPMessage X) := do
  assertThat (m.state == .headersPending) "state_ == HEADERS_PENDING"
  HTTPMessageType.calculateExpectedBodySize { m with state := .bodyPending }

def readInBody (str : Bytes) (m : HTTPMessage X) : Except Fault (Nat × HTTPMessage X) := do
  assertThat (m.state == .bodyPending) "state_ == BODY_PENDING"
  if ← m.bodySizeIsKnown then
    let expected ← m.getExpectedBodySize
    assertThat (m.body.length ≤ expected) "body_.size() <= expected_body_size()"
    let amountToAppend := min (expected - m.body.length) str.length
    let body := m.body ++ str.take amountToAppend
    return (amountToAppend,
      { m with body := body, state := if body.length = expected then .complete else m.state })
  else
    HTTPMessageType.readInComplexBody str m

def eof (m : HTTPMessage X) : Except Fault (HTTPMessage X) :=
  match m.state with
  | .firstLinePending => .ok m
  | .headersPending => .error (.runtimeError "HTTPMessage: EOF received in middle of headers")
  | .bodyPending => do
      if ← HTTPMessageType.eofInBody m then return { m with state := .complete } else return m
  | .complete => .error (.assertion "false")

end

end HTTPMessage

/-- Conversion of a `long int` to `size_t`. -/
def toSizeT (z : Int) : Nat := (z % 2 ^ 64).toNat

/-! ## Requests -/

/-- A request has no members of its own. -/
structure RequestPart where
  deriving DecidableEq, Repr

abbrev HTTPRequest := HTTPMessage RequestPart

namespace HTTPRequest

def calculateExpectedBodySize (m : HTTPRequest) : Except Fault HTTPRequest := do
  assertThat (m.state == .bodyPending) "state_ == BODY_PENDING"
  if m.firstLine.take 4 = ascii "GET " ∨ m.firstLine.take 5 = ascii "HEAD " then
    m.setExpectedBodySize true 0
  else if m.firstLine.take 5 = ascii "POST " then
    if !m.hasHeader (ascii "Content-Length") then
      throw (.runtimeError "HTTPRequest: does not support chunked requests")
    let value ← m.getHeaderValue (ascii "Content-Length")
    let size ← myatoi value 10
    m.setExpectedBodySize true (toSizeT size)
  else
    throw (.runtimeErrorWith "Cannot handle HTTP method: " m.firstLine)

def isHead (m : HTTPRequest) : Except Fault Bool := do
  assertThat (m.state != .firstLinePending) "state_ > FIRST_LINE_PENDING"
  return m.firstLine.take 5 == ascii "HEAD "

end HTTPRequest

instance : HTTPMessageType RequestPart where
  initial := {}
  calculateExpectedBodySize := HTTPRequest.calculateExpectedBodySize
  -- we don't support complex bodies
  readInComplexBody _ _ :=
    .error (.runtimeError "HTTPRequest: does not support chunked requests")
  eofInBody _ := .error (.runtimeError "HTTPRequest: got EOF in middle of body")

/-- A complete request that has nothing but a first line. -/
def HTTPRequest.bare (line : Bytes) : HTTPRequest :=
  { (HTTPMessage.initial : HTTPRequest) with
    expectedBodySize := (true, 0)
    firstLine := line
    state := .complete }

/-! ## Responses -/

/-- The members of `HTTPResponse`: `request_` and `body_parser_`. -/
structure ResponsePart where
  request : HTTPRequest
  bodyParser : Option BodyParser
  deriving DecidableEq, Repr

abbrev HTTPResponse := HTTPMessage ResponsePart

/-- `MIMEType( content_type ).type()`. -/
def mimeType (contentType : Bytes) : Except Fault Bytes := do
  let typeAndParameters ← split contentType (ascii ";")
  match typeAndParameters with
  | [] => throw (.runtimeError "MIMEType: invalid MIME media-type string")
  | type :: _ =>
      if type.isEmpty then
        throw (.runtimeError "MIMEType: invalid MIME media-type string")
      return type

namespace HTTPResponse

def request (m : HTTPResponse) : HTTPRequest := m.derived.request

def statusCode (m : HTTPResponse) : Except Fault Bytes := do
  assertThat (m.state != .firstLinePending) "state_ > FIRST_LINE_PENDING"
  let tokens ← split m.firstLine (ascii " ")
  if tokens.length < 3 then
    throw (.runtimeErrorWith "HTTPResponse: Invalid status line: " m.firstLine)
  else
    match tokens[1]? with
    | none => throw .outOfRange
    | some code => return code

/-- Whether there is no body, whatever the headers say. -/
def hasNoBody (m : HTTPResponse) : Except Fault Bool := do
  let code ← m.statusCode
  let firstDigit ← byteAtIndex code 0
  if firstDigit = 49 ∨ code = ascii "204" ∨ code = ascii "304" then
    return true
  else
    m.request.isHead

/-- Whether the last transfer coding is `chunked`. -/
def isChunked (m : HTTPResponse) : Except Fault Bool := do
  if m.hasHeader (ascii "Transfer-Encoding") then
    let value ← m.getHeaderValue (ascii "Transfer-Encoding")
    let codings ← split value (ascii ",")
    match codings.getLast? with
    | none => throw .outOfBounds
    | some last => return equivalentStrings last (ascii "chunked")
  else
    return false

/-- Whether the media type says that the body delimits itself. -/
def isMultipart (m : HTTPResponse) : Except Fault Bool := do
  if m.hasHeader (ascii "Content-Type") then
    let value ← m.getHeaderValue (ascii "Content-Type")
    let type ← mimeType value
    return equivalentStrings type (ascii "multipart/byteranges")
  else
    return false

/-- The rules of section 4.4 ("Message Length"). -/
def calculateExpectedBodySize (m : HTTPResponse) : Except Fault HTTPResponse := do
  assertThat (m.state == .bodyPending) "state_ == BODY_PENDING"
  if ← m.hasNoBody then
    -- Rule 1: size known to be zero
    m.setExpectedBodySize true 0
  else if ← m.isChunked then
    -- Rule 2: size dictated by chunked encoding
    let m ← m.setExpectedBodySize false npos
    let parser := ChunkedBodyParser.initial (m.hasHeader (ascii "Trailer"))
    return { m with derived := { m.derived with bodyParser := some (.chunked parser) } }
  else if !m.hasHeader (ascii "Transfer-Encoding") && m.hasHeader (ascii "Content-Length") then
    -- Rule 3: content-length header present to specify size
    let value ← m.getHeaderValue (ascii "Content-Length")
    let size ← myatoi value 10
    m.setExpectedBodySize true (toSizeT size)
  else if ← m.isMultipart then
    -- Rule 4
    let _ ← m.setExpectedBodySize false npos
    throw (.runtimeError "HTTPResponse: unsupported multipart/byteranges without Content-Length")
  else
    -- Rule 5
    let m ← m.setExpectedBodySize false npos
    return { m with derived := { m.derived with bodyParser := some .rule5 } }

def readInComplexBody (str : Bytes) (m : HTTPResponse) : Except Fault (Nat × HTTPResponse) := do
  assertThat (m.state == .bodyPending) "state_ == BODY_PENDING"
  match m.derived.bodyParser with
  | none => throw (.assertion "body_parser_")
  | some parser =>
      let (amountParsed, parser) ← parser.read str
      let m := { m with derived := { m.derived with bodyParser := some parser } }
      match amountParsed with
      | none => return (str.length, { m with body := m.body ++ str })
      | some amount =>
          return (amount, { m with body := m.body ++ str.take amount, state := .complete })

/-- Complex bodies sometimes allow an EOF to terminate the body. -/
def eofInBody (m : HTTPResponse) : Except Fault Bool :=
  match m.derived.bodyParser with
  | some parser => .ok parser.eof
  | none => .error (.runtimeError "HTTPResponse: got EOF in middle of body")

def setRequest (request : HTTPRequest) (m : HTTPResponse) : Except Fault HTTPResponse := do
  assertThat (m.state == .firstLinePending) "state_ == FIRST_LINE_PENDING"
  return { m with derived := { m.derived with request := request } }

end HTTPResponse

instance : HTTPMessageType ResponsePart where
  initial := ⟨HTTPMessage.initial, none⟩
  calculateExpectedBodySize := HTTPResponse.calculateExpectedBodySize
  readInComplexBody := HTTPResponse.readInComplexBody
  eofInBody := HTTPResponse.eofInBody

end Mahimahi
