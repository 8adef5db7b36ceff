import Mahimahi.HTTPBody

/-!
# The incremental parsers

`HTTPMessageSequence` collects the bytes of a connection in a buffer and
takes messages off it, one turn of `parsing_step` after the other, until a
turn says that it needs more bytes. `parse` is given the next bytes that
have come, or none for the end of the connection.

What a turn can do is said once (`Goes`, `Rests`, `Fails`, and `turn_cases`
that there is nothing else), for a sequence whose messages are in order
(`Sound`). From there: every call of `parse` comes to its end and leaves a
sound sequence (`parse_cases`), whatever has been called before.
-/

namespace Mahimahi

/-- `HTTPMessageSequence`, with the members `derived` of a subclass. -/
structure HTTPMessageSequence (X S : Type) where
  /-- bytes that haven't been parsed yet -/
  buffer : Bytes
  /-- complete messages ready to go -/
  completeMessages : List (HTTPMessage X)
  /-- the current message we're working on -/
  messageInProgress : HTTPMessage X
  derived : S

/-- What the subclasses of `HTTPMessageSequence` implement. -/
class HTTPMessageParser (X : Type) (S : outParam Type) where
  initializeNewMessage : HTTPMessage X → S → Except Fault (HTTPMessage X × S)

/-- An exception, with the messages that were complete when it was thrown. -/
abbrev ParseFault (X : Type) := Fault × List (HTTPMessage X)

namespace HTTPMessageSequence

variable {X S : Type}

def initial [HTTPMessageType X] (derived : S) : HTTPMessageSequence X S where
  buffer := []
  completeMessages := []
  messageInProgress := HTTPMessage.initial
  derived := derived

theorem initial_state_ne [HTTPMessageType X] {derived : S} :
    (initial derived : HTTPMessageSequence X S).messageInProgress.state ≠ .complete := by
  simp [initial, HTTPMessage.initial]

/-! ## The buffer -/

def haveCompleteLine (buffer : Bytes) : Bool := (find crlf buffer).isSome

def popBytes (num : Nat) (buffer : Bytes) : Except Fault Bytes := do
  assertThat (num ≤ buffer.length) "buffer_.size() >= num"
  return buffer.drop num

/-- The line, and the buffer behind it. -/
def getAndPopLine (buffer : Bytes) : Except Fault (Bytes × Bytes) :=
  match find crlf buffer with
  | none => .error (.assertion "first_line_ending != std::string::npos")
  | some firstLineEnding => do
      let rest ← popBytes (firstLineEnding + crlf.length) buffer
      return (buffer.take firstLineEnding, rest)

/-! ## Parsing -/

section

variable [HTTPMessageType X] [HTTPMessageParser X S]

/-- One loop through the parser: whether to continue. -/
def parsingStep (c : HTTPMessageSequence X S) : Except Fault (Bool × HTTPMessageSequence X S) :=
  match c.messageInProgress.state with
  | .firstLinePending =>
      -- do we have a complete line?
      if !haveCompleteLine c.buffer then .ok (false, c)
      else do
        -- supply status line to request/response initialization routine
        let (m, derived) ← HTTPMessageParser.initializeNewMessage c.messageInProgress c.derived
        let (line, buffer) ← getAndPopLine c.buffer
        let m ← m.setFirstLine line
        return (true, { c with buffer := buffer, messageInProgress := m, derived := derived })
  | .headersPending =>
      -- do we have a complete line?
      if !haveCompleteLine c.buffer then .ok (false, c)
      else do
        let (line, buffer) ← getAndPopLine c.buffer
        let m ← if line.isEmpty then c.messageInProgress.doneWithHeaders
          else c.messageInProgress.addHeader line
        return (true, { c with buffer := buffer, messageInProgress := m })
  | .bodyPending => do
      let (bytesRead, m) ← c.messageInProgress.readInBody c.buffer
      assertThat (bytesRead == c.buffer.length || m.state == .complete)
        "bytes_read == buffer_.str().size() or message_in_progress_.state() == COMPLETE"
      let buffer ← popBytes bytesRead c.buffer
      return (m.state == .complete, { c with buffer := buffer, messageInProgress := m })
  | .complete =>
      .ok (true, { c with
        completeMessages := c.completeMessages ++ [c.messageInProgress]
        messageInProgress := HTTPMessage.initial })

/-- A turn of the loop in `parse`. -/
def parseTurn (c : HTTPMessageSequence X S) :
    Except (ParseFault X) (HTTPMessageSequence X S ⊕ HTTPMessageSequence X S) :=
  match c.parsingStep with
  | .error e => .error (e, c.completeMessages)
  | .ok (true, c') => .ok (.inl c')
  | .ok (false, c') => .ok (.inr c')

def feed (c : HTTPMessageSequence X S) (buf : Bytes) : HTTPMessageSequence X S :=
  { c with buffer := c.buffer ++ buf }

/-- The call of `eof` with which `parse` begins when it is given no bytes. -/
def receiveEof (c : HTTPMessageSequence X S) : Except (ParseFault X) (HTTPMessageSequence X S) :=
  match c.messageInProgress.eof with
  | .error e => .error (e, c.completeMessages)
  | .ok m => .ok { c with messageInProgress := m }

/-- Parse as much as we can. A line takes two bytes off the buffer at least,
and two turns at most pass between two lines. -/
def parseAll (c : HTTPMessageSequence X S) :
    Except (ParseFault X) (HTTPMessageSequence X S) :=
  loop (.diverges, []) parseTurn (2 * c.buffer.length + 3) c

def parse (buf : Bytes) (c : HTTPMessageSequence X S) :
    Except (ParseFault X) (HTTPMessageSequence X S) := do
  if buf.isEmpty then
    let c ← c.receiveEof
    parseAll (c.feed buf)
  else
    parseAll (c.feed buf)

theorem parse_of_ne_nil {c : HTTPMessageSequence X S} {buf : Bytes} (hbuf : buf ≠ []) :
    c.parse buf = (c.feed buf).parseAll := by
  rw [parse, if_neg (by simpa using hbuf)]

/-- A sequence of calls of `parse`. -/
def parseCalls : List Bytes → HTTPMessageSequence X S →
    Except (ParseFault X) (HTTPMessageSequence X S)
  | [], c => .ok c
  | buf :: bufs, c => do
      let c ← c.parse buf
      parseCalls bufs c

end

end HTTPMessageSequence

/-! ## The two parsers -/

instance : HTTPMessageParser RequestPart Unit where
  initializeNewMessage m s := .ok (m, s)

abbrev HTTPRequestParser := HTTPMessageSequence RequestPart Unit

/-- `HTTPResponseParser`: the member `requests_` is what it adds. -/
abbrev HTTPResponseParser := HTTPMessageSequence ResponsePart (List HTTPRequest)

namespace HTTPResponseParser

def initializeNewMessage (m : HTTPResponse) (requests : List HTTPRequest) :
    Except Fault (HTTPResponse × List HTTPRequest) :=
  match requests with
  -- do we have a request that we can match this response up with?
  | [] => .error (.runtimeError "HTTPResponseParser: response without matching request")
  | request :: requests => do
      let m ← HTTPResponse.setRequest request m
      return (m, requests)

def newRequestArrived (request : HTTPRequest) (c : HTTPResponseParser) : HTTPResponseParser :=
  { c with derived := c.derived ++ [request] }

end HTTPResponseParser

instance : HTTPMessageParser ResponsePart (List HTTPRequest) where
  initializeNewMessage := HTTPResponseParser.initializeNewMessage

namespace HTTPResponseParser

/-- The calls that feed a response parser. -/
inductive Call where
  | parse (buf : Bytes)
  | newRequestArrived (request : HTTPRequest)
  deriving DecidableEq, Repr

def run : List Call → HTTPResponseParser → Except (ParseFault ResponsePart) HTTPResponseParser
  | [], c => .ok c
  | .parse buf :: calls, c => do
      let c ← c.parse buf
      run calls c
  | .newRequestArrived request :: calls, c => run calls (newRequestArrived request c)

end HTTPResponseParser

/-- What the subclasses satisfy: a new message gets members of its own and
nothing else. -/
class HTTPParserLaws (X : Type) (S : outParam Type) [HTTPMessageType X] [HTTPMessageParser X S]
    extends HTTPBodyLaws X where
  initialize_ok {m m' : HTTPMessage X} {s s' : S} :
    HTTPMessageParser.initializeNewMessage m s = .ok (m', s') →
      m' = { m with derived := m'.derived } ∧ (Plain m.derived → Plain m'.derived)
  initialize_error {m : HTTPMessage X} {s : S} : m.state = .firstLinePending →
    FailsForeign (HTTPMessageParser.initializeNewMessage m s)

instance : HTTPParserLaws RequestPart Unit where
  initialize_ok h := by
    cases h
    exact ⟨rfl, id⟩
  initialize_error _ := .ok _

instance : HTTPParserLaws ResponsePart (List HTTPRequest) where
  initialize_ok {m m' s s'} h := by
    cases s with
    | nil => cases h
    | cons request s =>
        obtain ⟨m₁, hset, h⟩ := bind_eq_ok.mp h
        obtain ⟨_, -, hm₁⟩ := bind_eq_ok.mp hset
        cases hm₁
        cases h
        exact ⟨rfl, id⟩
  initialize_error {m s} hstate := by
    cases s with
    | nil =>
        exact .error (e := .runtimeError "HTTPResponseParser: response without matching request")
          (foreign_of_not_assertion (by simp) (by simp))
    | cons request s =>
        have hset : HTTPResponse.setRequest request m
            = .ok { m with derived := { m.derived with request := request } } := by
          simp [HTTPResponse.setRequest, hstate]
        show FailsForeign (HTTPResponse.setRequest request m >>= _)
        rw [hset]
        exact .ok _

/-! ## Lines -/

/-- A complete line, and the buffer behind it. -/
structure IsLine (buffer line rest : Bytes) : Prop where
  found : find crlf buffer = some line.length
  bytes : buffer = line ++ crlf ++ rest

section

variable {buffer line rest line' rest' : Bytes}

theorem IsLine.append (y : Bytes) (h : IsLine buffer line rest) :
    IsLine (buffer ++ y) line (rest ++ y) where
  found := find_append h.found
  bytes := by
    rw [h.bytes]
    simp only [List.append_assoc]

theorem IsLine.length (h : IsLine buffer line rest) : rest.length + 2 ≤ buffer.length := by
  rw [h.bytes]
  simp only [List.length_append, show crlf.length = 2 from rfl]
  omega

/-- A buffer has a complete line or none. -/
theorem isLine_or (buffer : Bytes) :
    (∃ line rest, IsLine buffer line rest) ∨ find crlf buffer = none := by
  cases h : find crlf buffer with
  | none => exact .inr rfl
  | some i =>
      obtain ⟨rest, hrest⟩ := find_prefix h
      have hle := add_length_le_of_find h
      refine .inl ⟨buffer.take i, rest, ?_, ?_⟩
      · rw [h, List.length_take, Nat.min_eq_left (by omega)]
      · rw [List.append_assoc, hrest, List.take_append_drop]

namespace HTTPMessageSequence

theorem haveCompleteLine_of_isLine (h : IsLine buffer line rest) : haveCompleteLine buffer = true := by
  rw [haveCompleteLine, h.found]
  rfl

theorem getAndPopLine_of_isLine (h : IsLine buffer line rest) :
    getAndPopLine buffer = .ok (line, rest) := by
  have hle := h.length
  have hlen : line.length + crlf.length ≤ buffer.length := add_length_le_of_find h.found
  have hdrop : buffer.drop (line.length + crlf.length) = rest := by
    rw [h.bytes, ← List.length_append, List.drop_left]
  have htake : buffer.take line.length = line := by
    rw [h.bytes, List.append_assoc, List.take_left]
  simp only [getAndPopLine, h.found, popBytes, hlen, decide_true, assertThat_true, ok_bind,
    pure_eq_ok, hdrop, htake]

end HTTPMessageSequence

end

/-! ## The turns of the parser -/

namespace HTTPMessageSequence

variable {X S : Type} [HTTPMessageType X] [HTTPMessageParser X S]

/-- The turns that throw. -/
inductive Fails : HTTPMessageSequence X S → Fault → Prop where
  | firstLine {c line rest e} : c.messageInProgress.state = .firstLinePending →
      IsLine c.buffer line rest →
      HTTPMessageParser.initializeNewMessage c.messageInProgress c.derived = .error e → Fails c e
  | header {c line rest e} : c.messageInProgress.state = .headersPending →
      IsLine c.buffer line rest → line ≠ [] → HTTPHeader.ofLine line = .error e → Fails c e
  | blankLine {c rest e} : c.messageInProgress.state = .headersPending →
      IsLine c.buffer [] rest →
      HTTPMessageType.calculateExpectedBodySize
        { c.messageInProgress with state := .bodyPending } = .error e → Fails c e
  | body {c e} : c.messageInProgress.state = .bodyPending →
      c.messageInProgress.readInBody c.buffer = .error e → Fails c e

theorem parseTurn_of_fails {c : HTTPMessageSequence X S} {e : Fault} (h : Fails c e) :
    c.parseTurn = .error (e, c.completeMessages) := by
  cases h with
  | firstLine hstate hline hinit =>
      simp [parseTurn, parsingStep, hstate, haveCompleteLine_of_isLine hline, hinit]
  | header hstate hline hne hheader =>
      simp [parseTurn, parsingStep, hstate, haveCompleteLine_of_isLine hline,
        getAndPopLine_of_isLine hline, hne, HTTPMessage.addHeader, hheader]
  | blankLine hstate hline hcalc =>
      simp [parseTurn, parsingStep, hstate, haveCompleteLine_of_isLine hline,
        getAndPopLine_of_isLine hline, HTTPMessage.doneWithHeaders, hcalc]
  | body hstate hread => simp [parseTurn, parsingStep, hstate, hread]

variable [HTTPParserLaws X S]

/-- The turns after which the loop goes on. -/
inductive Goes : HTTPMessageSequence X S → HTTPMessageSequence X S → Prop where
  | firstLine {c m s line rest} : c.messageInProgress.state = .firstLinePending →
      IsLine c.buffer line rest →
      HTTPMessageParser.initializeNewMessage c.messageInProgress c.derived = .ok (m, s) →
      Goes c { c with
        buffer := rest
        messageInProgress := { m with firstLine := line, state := .headersPending }
        derived := s }
  | header {c line rest h} : c.messageInProgress.state = .headersPending →
      IsLine c.buffer line rest → line ≠ [] → HTTPHeader.ofLine line = .ok h →
      Goes c { c with
        buffer := rest
        messageInProgress := { c.messageInProgress with
          headers := c.messageInProgress.headers ++ [h] } }
  | blankLine {c m rest} : c.messageInProgress.state = .headersPending →
      IsLine c.buffer [] rest →
      HTTPMessageType.calculateExpectedBodySize
        { c.messageInProgress with state := .bodyPending } = .ok m →
      Goes c { c with buffer := rest, messageInProgress := m }
  | body {c n d} : c.messageInProgress.state = .bodyPending →
      HTTPMessage.Ends (c.messageInProgress.readInBody c.buffer) c.buffer c.messageInProgress n →
      c.messageInProgress.readInBody c.buffer = .ok (n, { c.messageInProgress with
        body := c.messageInProgress.body ++ c.buffer.take n
        state := .complete
        derived := d }) →
      HTTPBodyView.forget d = HTTPBodyView.forget c.messageInProgress.derived →
      Goes c { c with
        buffer := c.buffer.drop n
        messageInProgress := { c.messageInProgress with
          body := c.messageInProgress.body ++ c.buffer.take n
          state := .complete
          derived := d } }
  | complete {c} : c.messageInProgress.state = .complete →
      Goes c { c with
        completeMessages := c.completeMessages ++ [c.messageInProgress]
        messageInProgress := HTTPMessage.initial }

/-- The turns that wait for more bytes. -/
inductive Rests : HTTPMessageSequence X S → HTTPMessageSequence X S → Prop where
  | line {c} : c.messageInProgress.state = .firstLinePending ∨
        c.messageInProgress.state = .headersPending →
      find crlf c.buffer = none → Rests c c
  | body {c m} : c.messageInProgress.state = .bodyPending →
      HTTPMessage.GoesOn (c.messageInProgress.readInBody c.buffer) c.buffer c.messageInProgress m →
      Rests c { c with buffer := [], messageInProgress := m }

variable {c c' : HTTPMessageSequence X S} {e : Fault} {buf : Bytes}

theorem parseTurn_of_goes (h : Goes c c') : c.parseTurn = .ok (.inl c') := by
  cases h with
  | firstLine hstate hline hinit =>
      have hm := (HTTPParserLaws.initialize_ok hinit).1
      have hstate' := congrArg HTTPMessage.state hm
      simp only [hstate] at hstate'
      simp [parseTurn, parsingStep, hstate, haveCompleteLine_of_isLine hline, hinit,
        getAndPopLine_of_isLine hline, HTTPMessage.setFirstLine, hstate']
  | header hstate hline hne hheader =>
      simp [parseTurn, parsingStep, hstate, haveCompleteLine_of_isLine hline,
        getAndPopLine_of_isLine hline, hne, HTTPMessage.addHeader, hheader]
  | blankLine hstate hline hcalc =>
      simp [parseTurn, parsingStep, hstate, haveCompleteLine_of_isLine hline,
        getAndPopLine_of_isLine hline, HTTPMessage.doneWithHeaders, hcalc]
  | body hstate hends hread _ =>
      simp [parseTurn, parsingStep, hstate, hread, popBytes, hends.le]
  | complete hstate => simp [parseTurn, parsingStep, hstate]

theorem Goes.unique {d : HTTPMessageSequence X S} (h : Goes c c') (h' : Goes c d) : c' = d :=
  Sum.inl.inj (Except.ok.inj ((parseTurn_of_goes h).symm.trans (parseTurn_of_goes h')))

theorem parseTurn_of_rests (h : Rests c c') : c.parseTurn = .ok (.inr c') := by
  cases h with
  | line hstate hnone =>
      rcases hstate with hstate | hstate <;>
        simp [parseTurn, parsingStep, hstate, haveCompleteLine, hnone]
  | body hstate hgo =>
      have hstate' := congrArg HTTPMessage.state hgo.rest
      simp only [hstate] at hstate'
      simp [parseTurn, parsingStep, hstate, hgo.result, popBytes, hstate']
      rfl

/-! ## Sequences in order -/

end HTTPMessageSequence

section

variable {X S : Type} [HTTPMessageType X] [HTTPBodyLaws X]

/-- A message that is complete has as many bytes as it expected. -/
structure HTTPMessage.Finished (m : HTTPMessage X) : Prop where
  state : m.state = .complete
  size : m.expectedBodySize.1 = true → m.body.length = m.expectedBodySize.2

/-- What a message has got so far, by its state. -/
def HTTPMessage.InOrder (m : HTTPMessage X) : Prop :=
  match m.state with
  | .firstLinePending => m = HTTPMessage.initial
  | .headersPending => m.body = [] ∧ HTTPBodyView.Plain m.derived
  | .bodyPending => m.Due
  | .complete => m.Finished

end

namespace HTTPMessageSequence

variable {X S : Type} [HTTPMessageType X] [HTTPMessageParser X S] [HTTPParserLaws X S]

/-- The invariant of the sequence. -/
structure Sound (c : HTTPMessageSequence X S) : Prop where
  inProgress : c.messageInProgress.InOrder
  completed : ∀ m ∈ c.completeMessages, m.Finished

variable {c c' : HTTPMessageSequence X S} {e : Fault} {buf : Bytes}

theorem sound_initial (derived : S) : (initial derived : HTTPMessageSequence X S).Sound where
  inProgress := rfl
  completed := by simp [initial]

theorem Sound.feed (h : c.Sound) (buf : Bytes) : (c.feed buf).Sound := ⟨h.inProgress, h.completed⟩

theorem Sound.due (h : c.Sound) (hstate : c.messageInProgress.state = .bodyPending) :
    c.messageInProgress.Due := by
  have := h.inProgress
  rwa [HTTPMessage.InOrder, hstate] at this

/-- What calculating the size makes of a message whose headers are done. -/
theorem due_of_calculate {m m' : HTTPMessage X} (hbody : m.body = [])
    (hplain : HTTPBodyView.Plain m.derived)
    (h : HTTPMessageType.calculateExpectedBodySize { m with state := .bodyPending } = .ok m') :
    m'.Due := by
  obtain ⟨hm, -, hset, hkeep⟩ := HTTPBodyLaws.calculate_ok h
  refine ⟨?_, fun _ => ?_, hset, fun hk => ?_⟩
  · rw [hm]
  · rw [hm]
    simp [hbody]
  · rw [hkeep hk]
    exact hplain

/-- **There is nothing else.** -/
theorem turn_cases (h : c.Sound) :
    (∃ c', Goes c c') ∨ (∃ c', Rests c c') ∨ ∃ e, Fails c e ∧ e.Foreign := by
  have hin := h.inProgress
  rw [HTTPMessage.InOrder] at hin
  cases hstate : c.messageInProgress.state with
  | firstLinePending =>
      rcases isLine_or c.buffer with ⟨line, rest, hline⟩ | hnone
      · cases hinit : HTTPMessageParser.initializeNewMessage c.messageInProgress c.derived with
        | error e =>
            exact .inr (.inr ⟨e, .firstLine hstate hline hinit,
              HTTPParserLaws.initialize_error hstate e hinit⟩)
        | ok r => exact .inl ⟨_, .firstLine hstate hline hinit⟩
      · exact .inr (.inl ⟨_, .line (.inl hstate) hnone⟩)
  | headersPending =>
      rcases isLine_or c.buffer with ⟨line, rest, hline⟩ | hnone
      · cases line with
        | nil =>
            cases hcalc : HTTPMessageType.calculateExpectedBodySize
                { c.messageInProgress with state := .bodyPending } with
            | error e =>
                exact .inr (.inr ⟨e, .blankLine hstate hline hcalc,
                  HTTPBodyLaws.calculate_error rfl e hcalc⟩)
            | ok m => exact .inl ⟨_, .blankLine hstate hline hcalc⟩
        | cons b line =>
            cases hheader : HTTPHeader.ofLine (b :: line) with
            | error e =>
                refine .inr (.inr ⟨e, .header hstate hline (by simp) hheader, ?_⟩)
                rw [HTTPHeader.ofLine] at hheader
                split at hheader
                · cases hheader
                  exact foreign_of_not_assertion (by simp) (by simp)
                · cases hheader
            | ok header => exact .inl ⟨_, .header hstate hline (by simp) hheader⟩
      · exact .inr (.inl ⟨_, .line (.inr hstate) hnone⟩)
  | bodyPending =>
      rcases HTTPMessage.readInBody_cases (h.due hstate) c.buffer with
        ⟨e, he, hforeign⟩ | ⟨m, hgo, -⟩ | ⟨n, hends⟩
      · exact .inr (.inr ⟨e, .body hstate he, hforeign⟩)
      · exact .inr (.inl ⟨_, .body hstate hgo⟩)
      · obtain ⟨d, hread, hforget⟩ := hends.result
        exact .inl ⟨_, .body hstate hends hread hforget⟩
  | complete => exact .inl ⟨_, .complete hstate⟩

theorem parseTurn_again (h : c.Sound) : c.parseTurn = .ok (.inl c') ↔ Goes c c' := by
  refine ⟨fun hturn => ?_, parseTurn_of_goes⟩
  rcases turn_cases h with ⟨c₁, hgo⟩ | ⟨c₁, hrest⟩ | ⟨e, hfail, -⟩
  · rw [parseTurn_of_goes hgo] at hturn
    cases hturn
    exact hgo
  · rw [parseTurn_of_rests hrest] at hturn
    cases hturn
  · rw [parseTurn_of_fails hfail] at hturn
    cases hturn

theorem parseTurn_error (h : c.Sound) {err : ParseFault X} : c.parseTurn = .error err ↔
    ∃ e, Fails c e ∧ e.Foreign ∧ err = (e, c.completeMessages) := by
  constructor
  · intro hturn
    rcases turn_cases h with ⟨c₁, hgo⟩ | ⟨c₁, hrest⟩ | ⟨e, hfail, hforeign⟩
    · rw [parseTurn_of_goes hgo] at hturn
      cases hturn
    · rw [parseTurn_of_rests hrest] at hturn
      cases hturn
    · rw [parseTurn_of_fails hfail] at hturn
      cases hturn
      exact ⟨e, hfail, hforeign, rfl⟩
  · rintro ⟨e, hfail, -, rfl⟩
    exact parseTurn_of_fails hfail

/-! ### Turns keep the order -/

theorem Goes.sound (h : c.Sound) (hgo : Goes c c') : c'.Sound := by
  have hin := h.inProgress
  rw [HTTPMessage.InOrder] at hin
  cases hgo with
  | firstLine hstate _ hinit =>
      rw [hstate] at hin
      obtain ⟨hm, hplain⟩ := HTTPParserLaws.initialize_ok hinit
      refine ⟨⟨?_, ?_⟩, h.completed⟩
      · show HTTPMessage.body _ = []
        rw [hm, show c.messageInProgress = HTTPMessage.initial from hin]
        rfl
      · refine hplain ?_
        rw [show c.messageInProgress = HTTPMessage.initial from hin]
        exact HTTPBodyLaws.plain_initial
  | header hstate _ _ _ =>
      rw [hstate] at hin
      refine ⟨?_, h.completed⟩
      rw [HTTPMessage.InOrder]
      simp only [hstate]
      exact hin
  | blankLine hstate _ hcalc =>
      rw [hstate] at hin
      have hdue := due_of_calculate hin.1 hin.2 hcalc
      refine ⟨?_, h.completed⟩
      rw [HTTPMessage.InOrder]
      simp only [hdue.state]
      exact hdue
  | body hstate hends _ _ => exact ⟨⟨rfl, fun hk => hends.size (h.due hstate) hk⟩, h.completed⟩
  | complete hstate =>
      rw [hstate] at hin
      refine ⟨rfl, fun m hm => ?_⟩
      rcases List.mem_append.mp hm with hm | hm
      · exact h.completed m hm
      · rw [List.mem_singleton.mp hm]
        exact hin

theorem Rests.sound (h : c.Sound) (hrest : Rests c c') :
    c'.Sound ∧ c'.messageInProgress.state ≠ .complete := by
  cases hrest with
  | line hstate _ =>
      refine ⟨h, ?_⟩
      rcases hstate with hstate | hstate <;> simp [hstate]
  | body hstate hgo =>
      have hdue := hgo.due (h.due hstate)
      refine ⟨⟨?_, h.completed⟩, by simp [hdue.state]⟩
      rw [HTTPMessage.InOrder]
      simp only [hdue.state]
      exact hdue

/-! ## Every call comes to its end -/

/-- How many turns may still come without a line. -/
def rank : HTTPMessageState → Nat
  | .bodyPending => 2
  | .complete => 1
  | _ => 0

theorem Goes.measure_lt (h : c.Sound) (hgo : Goes c c') :
    2 * c'.buffer.length + rank c'.messageInProgress.state
      < 2 * c.buffer.length + rank c.messageInProgress.state := by
  cases hgo with
  | firstLine hstate hline _ =>
      have := hline.length
      simp only [hstate, rank]
      omega
  | header hstate hline _ _ =>
      have := hline.length
      simp only [hstate, rank]
      omega
  | blankLine hstate hline hcalc =>
      have := hline.length
      have hin := h.inProgress
      rw [HTTPMessage.InOrder, hstate] at hin
      simp only [hstate, (due_of_calculate hin.1 hin.2 hcalc).state, rank]
      omega
  | body hstate hends _ _ =>
      have := hends.le
      simp only [hstate, rank, List.length_drop]
      omega
  | complete hstate => simp [hstate, rank, HTTPMessage.initial]

theorem parseAll_exits (h : c.Sound) : Exits parseTurn c c.parseAll := by
  refine exits_loop (I := Sound)
    (μ := fun c => 2 * c.buffer.length + rank c.messageInProgress.state)
    (fun s s' hs hturn => ?_) h ?_
  · have hgo := (parseTurn_again hs).mp hturn
    exact ⟨hgo.sound hs, hgo.measure_lt hs⟩
  · have : rank c.messageInProgress.state ≤ 2 := by
      cases c.messageInProgress.state <;> simp [rank]
    omega

theorem parseAll_of_goes (h : c.Sound) (hgo : Goes c c') : c.parseAll = c'.parseAll :=
  (parseAll_exits h).unique (.again (parseTurn_of_goes hgo) (parseAll_exits (hgo.sound h)))

theorem parseAll_of_rests (h : c.Sound) (hrest : Rests c c') : c.parseAll = .ok c' :=
  (parseAll_exits h).unique (.leave (parseTurn_of_rests hrest))

theorem parseAll_of_fails (h : c.Sound) (hfail : Fails c e) :
    c.parseAll = .error (e, c.completeMessages) :=
  (parseAll_exits h).unique (.error (parseTurn_of_fails hfail))

/-- Induction over the turns of a call. -/
theorem Sound.induction {P : HTTPMessageSequence X S → Prop}
    (hrest : ∀ c c', c.Sound → Rests c c' → P c) (hfail : ∀ c e, c.Sound → Fails c e → P c)
    (hgo : ∀ c c', c.Sound → Goes c c' → P c' → P c) (h : c.Sound) : P c := by
  induction hμ : 2 * c.buffer.length + rank c.messageInProgress.state using Nat.strongRecOn
    generalizing c with
  | _ μ ih =>
      rcases turn_cases h with ⟨c', hc'⟩ | ⟨c', hc'⟩ | ⟨e, he, -⟩
      · have hlt := hc'.measure_lt h
        exact hgo c c' h hc' (ih _ (hμ ▸ hlt) (hc'.sound h) rfl)
      · exact hrest c c' h hc'
      · exact hfail c e h he

/-- What a call leaves behind: a sound sequence at rest, or a fault that is
none of the assertions here, with messages that are in order. -/
def Orderly : Except (ParseFault X) (HTTPMessageSequence X S) → Prop
  | .ok c => c.Sound ∧ c.messageInProgress.state ≠ .complete
  | .error (e, ms) => e.Foreign ∧ ∀ m ∈ ms, m.Finished

theorem parseAll_orderly (h : c.Sound) : Orderly c.parseAll := by
  refine Sound.induction (P := fun c => Orderly c.parseAll) ?_ ?_ ?_ h
  · intro c c' hs hrest
    rw [parseAll_of_rests hs hrest]
    exact hrest.sound hs
  · intro c e hs hfail
    rw [parseAll_of_fails hs hfail]
    obtain ⟨e', -, hforeign, heq⟩ := (parseTurn_error hs).mp (parseTurn_of_fails hfail)
    cases heq
    exact ⟨hforeign, hs.completed⟩
  · intro c c' hs hgo ih
    rw [parseAll_of_goes hs hgo]
    exact ih

/-- The sequence after an EOF that ends the body in progress. -/
def endMessage (c : HTTPMessageSequence X S) : HTTPMessageSequence X S :=
  { c with messageInProgress := { c.messageInProgress with state := .complete } }

theorem Sound.endMessage (h : c.Sound) (hu : c.messageInProgress.expectedBodySize.1 = false) :
    c.endMessage.Sound :=
  ⟨⟨rfl, fun hk => absurd (hu.symm.trans hk) Bool.false_ne_true⟩, h.completed⟩

/-- EOF completes the message or not, and does nothing else. -/
theorem receiveEof_cases (h : c.Sound) (hstate : c.messageInProgress.state ≠ .complete) :
    (∃ e, c.receiveEof = .error (e, c.completeMessages) ∧ e.Foreign) ∨
      (c.messageInProgress.state = .firstLinePending ∧ c.receiveEof = .ok c) ∨
      (c.messageInProgress.state = .bodyPending ∧ c.messageInProgress.expectedBodySize.1 = false ∧
        HTTPMessageType.eofInBody c.messageInProgress = .ok true ∧
        c.receiveEof = .ok c.endMessage) := by
  cases hs : c.messageInProgress.state with
  | firstLinePending => exact .inr (.inl ⟨rfl, by simp [receiveEof, HTTPMessage.eof, hs]⟩)
  | headersPending =>
      refine .inl ⟨.runtimeError "HTTPMessage: EOF received in middle of headers", ?_,
        foreign_of_not_assertion (by simp) (by simp)⟩
      simp [receiveEof, HTTPMessage.eof, hs]
  | bodyPending =>
      cases heof : HTTPMessageType.eofInBody c.messageInProgress with
      | error e =>
          refine .inl ⟨e, ?_, HTTPBodyLaws.eofInBody_error e heof⟩
          simp [receiveEof, HTTPMessage.eof, hs, heof]
      | ok ends =>
          cases ends with
          | false => exact absurd heof HTTPBodyLaws.eofInBody_ok
          | true =>
              have hres : c.receiveEof = .ok c.endMessage := by
                simp [receiveEof, HTTPMessage.eof, hs, heof, endMessage]
              refine .inr (.inr ⟨rfl, ?_, rfl, hres⟩)
              cases hk : c.messageInProgress.expectedBodySize.1 with
              | false => rfl
              | true => exact absurd heof (HTTPBodyLaws.eofInBody_plain ((h.due hs).plain hk))
  | complete => exact absurd hs hstate

theorem parse_orderly (h : c.Sound) (hstate : c.messageInProgress.state ≠ .complete)
    (buf : Bytes) : Orderly (c.parse buf) := by
  rw [parse]
  split
  · rcases receiveEof_cases h hstate with ⟨e, he, hforeign⟩ | ⟨-, he⟩ | ⟨-, hu, -, he⟩
    · rw [he]
      exact ⟨hforeign, h.completed⟩
    · rw [he]
      exact parseAll_orderly (h.feed buf)
    · rw [he]
      exact parseAll_orderly ((h.endMessage hu).feed buf)
  · exact parseAll_orderly (h.feed buf)

theorem parseCalls_orderly (h : c.Sound) (hstate : c.messageInProgress.state ≠ .complete)
    (bufs : List Bytes) : Orderly (c.parseCalls bufs) := by
  induction bufs generalizing c with
  | nil => exact ⟨h, hstate⟩
  | cons buf bufs ih =>
      have hparse := parse_orderly h hstate buf
      rw [parseCalls]
      cases hc : c.parse buf with
      | error err =>
          rw [hc] at hparse
          exact hparse
      | ok c₁ =>
          rw [hc] at hparse
          exact ih hparse.1 hparse.2

end HTTPMessageSequence

namespace HTTPResponseParser

open HTTPMessageSequence

theorem run_orderly {c : HTTPResponseParser} (h : c.Sound)
    (hstate : c.messageInProgress.state ≠ .complete) (calls : List Call) :
    Orderly (run calls c) := by
  induction calls generalizing c with
  | nil => exact ⟨h, hstate⟩
  | cons call calls ih =>
      cases call with
      | newRequestArrived request =>
          exact ih (c := newRequestArrived request c) ⟨h.inProgress, h.completed⟩ hstate
      | parse buf =>
          have hparse := parse_orderly h hstate buf
          rw [run]
          cases hc : c.parse buf with
          | error err =>
              rw [hc] at hparse
              exact hparse
          | ok c₁ =>
              rw [hc] at hparse
              exact ih hparse.1 hparse.2

end HTTPResponseParser

/-- **The state machine of the messages is never used out of order.** From a
fresh parser, any calls leave a sequence at rest whose complete messages have
the bytes that they expect, or throw something that is neither an assertion
of the message or of the sequence nor a loop without an end. -/
theorem parsers_stay_in_order :
    (∀ bufs : List Bytes,
      HTTPMessageSequence.Orderly
        (HTTPMessageSequence.parseCalls bufs (.initial () : HTTPRequestParser))) ∧
    ∀ (requests : List HTTPRequest) (calls : List HTTPResponseParser.Call),
      HTTPMessageSequence.Orderly (HTTPResponseParser.run calls (.initial requests)) := by
  refine ⟨fun bufs => ?_, fun requests calls => ?_⟩
  · exact HTTPMessageSequence.parseCalls_orderly (HTTPMessageSequence.sound_initial ())
      HTTPMessageSequence.initial_state_ne bufs
  · exact HTTPResponseParser.run_orderly (HTTPMessageSequence.sound_initial requests)
      HTTPMessageSequence.initial_state_ne calls

end Mahimahi