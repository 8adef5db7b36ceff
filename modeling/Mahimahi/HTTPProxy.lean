import Mathlib.Data.List.Forall2
import Mahimahi.HTTPAhead
import Mahimahi.Run

/-!
# The proxy between a client and a server

`HTTPProxy::loop` registers four actions with the poller. A round of the
poller asks every action whether it is interested, then runs the callbacks of
those whose descriptor is ready, in the order of the actions; what an action
answered may be out of date when its callback runs. The peers send at any
time.

What the loop keeps is an account of every request (`Account`): it is on its
way from the client, written to the server, answered by the server, or
delivered to the client with its response. Both parsers enter the account
through what they have ahead of them (`HTTPMessageSequence.Ahead`), so
neither the cuts of the streams nor the order of the callbacks matters.
-/

namespace Mahimahi

/-! ## Queues of messages -/

namespace HTTPMessageSequence

variable {X S : Type}

def empty (c : HTTPMessageSequence X S) : Bool := c.completeMessages.isEmpty

/-- `front()` of an empty queue is undefined. -/
def front (c : HTTPMessageSequence X S) : Except Fault (HTTPMessage X) :=
  match c.completeMessages with
  | [] => .error .outOfBounds
  | m :: _ => .ok m

/-- `pop()` of an empty queue is undefined. -/
def pop (c : HTTPMessageSequence X S) : Except Fault (HTTPMessageSequence X S) :=
  match c.completeMessages with
  | [] => .error .outOfBounds
  | _ :: ms => .ok { c with completeMessages := ms }

end HTTPMessageSequence

/-! ## The loop -/

/-- A connected socket: what the peer has sent and has not been read, whether
a read has found the end, and what has been written. -/
structure Connection where
  incoming : Bytes
  eof : Bool
  written : List Bytes
  deriving DecidableEq, Repr

namespace Connection

/-- A `read()` that returns the first `n` bytes. -/
def read (n : Nat) (c : Connection) : Bytes × Connection :=
  (c.incoming.take n, { c with incoming := c.incoming.drop n, eof := c.eof || n == 0 })

def write (buffer : Bytes) (c : Connection) : Connection :=
  { c with written := c.written ++ [buffer] }

end Connection

namespace HTTPProxy

/-- The actions, by descriptor and direction. -/
inductive Action where
  | serverIn
  | clientIn
  | serverOut
  | clientOut
  deriving DecidableEq, Repr

/-- The loop: its sockets, parsers and backing store; the actions of the
round whose callbacks are still to run; the exception that has ended it. With
it, for the record, the messages that the peers have sent. -/
structure State where
  server : Connection
  client : Connection
  requestParser : HTTPRequestParser
  responseParser : HTTPResponseParser
  backingStore : List HTTPResponse
  ready : List Action
  thrown : Option Fault
  requests : List HTTPRequest
  responses : List HTTPResponse

def initial : State where
  server := ⟨[], false, []⟩
  client := ⟨[], false, []⟩
  requestParser := .initial ()
  responseParser := .initial []
  backingStore := []
  ready := []
  thrown := none
  requests := []
  responses := []

/-- The actions in the order in which they are added to the poller. -/
def actions : List Action := [.serverIn, .clientIn, .serverOut, .clientOut]

def whenInterested (s : State) : Action → Bool
  | .serverIn => !s.client.eof
  | .clientIn => !s.server.eof
  | .serverOut => !s.requestParser.empty
  | .clientOut => !s.responseParser.empty

/-- Whether the descriptor can be ready: there is something to read, and no
end of file has been read from it. -/
def mayBeReady (s : State) : Action → Bool
  | .serverIn => !s.server.eof && !s.server.incoming.isEmpty
  | .clientIn => !s.client.eof && !s.client.incoming.isEmpty
  | .serverOut => true
  | .clientOut => true

/-- The bytes that a read may return: some, and no more than have come. -/
def readable (s : State) (n : Nat) : Action → Bool
  | .serverIn => 0 < n && n ≤ s.server.incoming.length
  | .clientIn => 0 < n && n ≤ s.client.incoming.length
  | .serverOut => true
  | .clientOut => true

/-- The callbacks. Each of them reads or writes its descriptor, so the poller
does not find a busy wait. -/
def callback (n : Nat) (s : State) : Action → Except Fault State
  | .serverIn => do
      let (buffer, server) := s.server.read n
      let responseParser ← (s.responseParser.parse buffer).mapError Prod.fst
      return { s with server := server, responseParser := responseParser }
  | .clientIn => do
      let (buffer, client) := s.client.read n
      let requestParser ← (s.requestParser.parse buffer).mapError Prod.fst
      return { s with client := client, requestParser := requestParser }
  | .serverOut => do
      let front ← s.requestParser.front
      let str ← front.str
      let requestParser ← s.requestParser.pop
      return { s with
        server := s.server.write str
        responseParser := HTTPResponseParser.newRequestArrived front s.responseParser
        requestParser := requestParser }
  | .clientOut => do
      let front ← s.responseParser.front
      -- the timer is stopped under the name of the request
      let _ ← (HTTPResponse.request front).str
      let str ← front.str
      let responseParser ← s.responseParser.pop
      return { s with
        client := s.client.write str
        backingStore := s.backingStore ++ [front]
        responseParser := responseParser }

/-- What happens: a peer sends a message, a round of the poller selects
actions, or the next callback of the round runs. -/
inductive Event where
  | clientSends (request : HTTPRequest)
  | serverSends (response : HTTPResponse)
  | poll (selected : List Action)
  | callback (n : Nat)

def step (s : State) : Event → Option State
  | .clientSends request =>
      match request.str with
      | .error _ => none
      | .ok str => some { s with
          client := { s.client with incoming := s.client.incoming ++ str }
          requests := s.requests ++ [request] }
  | .serverSends response =>
      match response.str with
      | .error _ => none
      | .ok str => some { s with
          server := { s.server with incoming := s.server.incoming ++ str }
          responses := s.responses ++ [response] }
  | .poll selected =>
      if s.thrown = none ∧ s.ready = [] ∧
          selected.Sublist (actions.filter fun a => whenInterested s a && mayBeReady s a) then
        some { s with ready := selected }
      else none
  | .callback n =>
      match s.ready with
      | [] => none
      | a :: ready =>
          if s.thrown = none ∧ readable s n a then
            match callback n s a with
            | .ok s' => some { s' with ready := ready }
            | .error e => some { s with thrown := some e }
          else none

end HTTPProxy

/-! ## The peers -/

/-- A request that the proxy supports, as the parser would have made it: GET or
HEAD, or POST with a `Content-Length`. -/
structure HTTPRequest.Supported (m : HTTPRequest) : Prop where
  state : m.state = .complete
  line : NoCrlf m.firstLine
  headers : ∀ h ∈ m.headers, h.Parsed
  framed : (m.firstLine.take 4 = ascii "GET " ∨ m.firstLine.take 5 = ascii "HEAD ") ∧ m.body = [] ∨
    m.firstLine.take 5 = ascii "POST " ∧ ∃ digits,
      m.getHeaderValue (ascii "Content-Length") = .ok digits ∧ IsNumber 10 digits ∧
        digitsValue 10 digits = m.body.length ∧ m.body.length < 2 ^ 63

/-- A final response to `request`, with no body, with a `Content-Length` or in
chunks. -/
structure HTTPResponse.Answers (request : HTTPRequest) (m : HTTPResponse) : Prop where
  state : m.state = .complete
  headers : ∀ h ∈ m.headers, h.Parsed
  framed : ∃ code sizes, IsStatusLine m.firstLine code ∧ code.head? ≠ some 49 ∧
    (opened request m.firstLine m.headers).Framed code sizes m.body

/-- Chunk sizes that leave room for the ending of the chunk. -/
def HTTPResponse.SmallChunkSizes (m : HTTPResponse) : Prop :=
  ∀ request code sizes, (opened request m.firstLine m.headers).Framed code sizes m.body →
    ∀ size ∈ sizes, size + 2 < 2 ^ 32

namespace HTTPProxy

/-- What the client and the server may send: the server answers the requests
in order, each when it has been written to it. -/
def Peers (s : State) : Event → Prop
  | .clientSends request => request.Supported
  | .serverSends response => s.responses.length < s.server.written.length ∧
      ∃ request, s.requests[s.responses.length]? = some request ∧ response.Answers request
  | _ => True

/-- The messages that the proxy passes on as they are. -/
def Survives (_ : State) : Event → Prop
  | .clientSends request => request.NoBlankValues
  | .serverSends response => response.NoBlankValues ∧ response.SmallChunkSizes
  | _ => True

/-- What the proxy promises in every state: no exception; requests and
responses are passed on in order, each once; every response that has been
passed on is saved once, with its own request. -/
structure Faithful (s : State) : Prop where
  thrown : s.thrown = none
  toServer : s.server.written.map .ok <+: s.requests.map HTTPMessage.str
  toClient : s.client.written.map .ok <+: s.responses.map HTTPMessage.str
  savedOnce : s.backingStore.length = s.client.written.length
  saved : s.backingStore.map HTTPMessageSequence.view <+: s.responses.map HTTPMessageSequence.view
  paired : s.backingStore.map (fun m => HTTPMessageSequence.view m.request)
    <+: s.requests.map HTTPMessageSequence.view

instance (s : State) : Decidable (Faithful s) :=
  decidable_of_iff (s.thrown = none ∧ s.server.written.map .ok <+: s.requests.map HTTPMessage.str ∧
      s.client.written.map .ok <+: s.responses.map HTTPMessage.str ∧
      s.backingStore.length = s.client.written.length ∧
      s.backingStore.map HTTPMessageSequence.view <+: s.responses.map HTTPMessageSequence.view ∧
      s.backingStore.map (fun m => HTTPMessageSequence.view m.request)
        <+: s.requests.map HTTPMessageSequence.view)
    ⟨fun ⟨h₁, h₂, h₃, h₄, h₅, h₆⟩ => ⟨h₁, h₂, h₃, h₄, h₅, h₆⟩,
      fun h => ⟨h.thrown, h.toServer, h.toClient, h.savedOnce, h.saved, h.paired⟩⟩

end HTTPProxy

/-! ## Messages that come across -/

/-- The same complete message, to the bytes. -/
structure HTTPMessage.Same {X : Type} (m n : HTTPMessage X) : Prop where
  state : m.state = .complete
  state' : n.state = .complete
  view : HTTPMessageSequence.view n = HTTPMessageSequence.view m

theorem HTTPMessage.Same.str {X : Type} {m n : HTTPMessage X} (h : m.Same n) : n.str = m.str := by
  obtain ⟨hline, hrest⟩ := Prod.mk.inj h.view
  obtain ⟨hheaders, hbody⟩ := Prod.mk.inj hrest
  simp only [HTTPMessage.str, h.state, h.state', hline, hheaders, hbody]

theorem HTTPMessage.Same.ok {X : Type} {m n : HTTPMessage X} (h : m.Same n) : ∃ s, n.str = .ok s :=
  ⟨_, HTTPMessage.str_eq_ok.mpr ⟨h.state', rfl⟩⟩

theorem HTTPMessage.Same.of_erase {X : Type} [HTTPBodyView X]
    {m n n' : HTTPMessage X} (h : m.Same n) (heq : n'.erase = n.erase) : m.Same n' :=
  ⟨h.state, by rw [← HTTPMessage.erase_state, heq, HTTPMessage.erase_state, h.state'],
    (HTTPMessageSequence.view_of_erase heq).trans h.view⟩

/-- A response that has come across, with the request that it answers. -/
structure Exchanged (p : HTTPRequest × HTTPResponse) (m : HTTPResponse) : Prop where
  response : p.2.Same m
  request : p.1.Same m.request

theorem Exchanged.of_erase {p : HTTPRequest × HTTPResponse} {m m' : HTTPResponse}
    (h : Exchanged p m) (heq : m'.erase = m.erase) : Exchanged p m' := by
  refine ⟨h.response.of_erase heq, ?_⟩
  have hrequest : HTTPResponse.request m' = m.request := by
    rw [← HTTPResponseParser.erase_request, heq, HTTPResponseParser.erase_request]
  rw [hrequest]
  exact h.request

theorem headerLines {headers : List HTTPHeader} (hparsed : ∀ h ∈ headers, h.Parsed)
    (hblank : ∀ h ∈ headers, ¬ h.Blank) :
    List.Forall₂ IsHeaderLine (headers.map HTTPHeader.str) headers := by
  induction headers with
  | nil => exact .nil
  | cons h headers ih =>
      have hh := hparsed h (by simp)
      refine .cons ⟨hh.noCrlf_str, h.str_ne_nil, ?_⟩
        (ih (fun h hmem => hparsed h (by simp [hmem])) fun h hmem => hblank h (by simp [hmem]))
      rw [HTTPHeader.ofLine_str hh, HTTPHeader.reparsed_eq_self.mpr (hblank h (by simp))]

theorem str_lines {X : Type} {m : HTTPMessage X} {s : Bytes} (hstr : m.str = .ok s) :
    s = m.firstLine ++ crlf ++
      ((m.headers.map HTTPHeader.str).flatMap (· ++ crlf) ++ (crlf ++ (m.body ++ []))) := by
  obtain ⟨-, rfl⟩ := HTTPMessage.str_eq_ok.mp hstr
  simp [List.flatMap_map]

/-- The body of a supported request has the size that is expected of it. -/
theorem HTTPRequest.Supported.calculate {m : HTTPRequest} (h : m.Supported) :
    HTTPMessageType.calculateExpectedBodySize { (HTTPMessage.initial : HTTPRequest) with
      firstLine := m.firstLine, headers := m.headers, state := .bodyPending } = .ok {
        (HTTPMessage.initial : HTTPRequest) with
        expectedBodySize := (true, m.body.length)
        firstLine := m.firstLine
        headers := m.headers
        state := .bodyPending } := by
  show HTTPRequest.calculateExpectedBodySize _ = _
  rcases h.framed with ⟨hmethod, hbody⟩ | ⟨hmethod, digits, hvalue, hnumber, hlength, hlt⟩
  · simp [HTTPRequest.calculateExpectedBodySize, HTTPMessage.setExpectedBodySize, hmethod, hbody]
  · have hget : m.firstLine.take 4 ≠ ascii "GET " := by
      intro hget
      have := congrArg (List.take 4) hmethod
      rw [List.take_take, show min 4 5 = 4 from rfl, hget] at this
      exact absurd this (by decide)
    have hhead : ascii "POST " ≠ ascii "HEAD " := by decide
    have hhas := HTTPMessage.hasHeader_of_getHeaderValue hvalue
    have hatoi := myatoi_digits (by omega) hnumber (hlength ▸ hlt)
    have hsize : toSizeT (digitsValue 10 digits : Int) = m.body.length := by
      rw [toSizeT]
      omega
    -- the headers are all that counts
    have hhas' : HTTPMessage.hasHeader (ascii "Content-Length") { (HTTPMessage.initial : HTTPRequest) with
        firstLine := m.firstLine, headers := m.headers, state := .bodyPending } = true := hhas
    have hvalue' : HTTPMessage.getHeaderValue (ascii "Content-Length") {
        (HTTPMessage.initial : HTTPRequest) with
        firstLine := m.firstLine, headers := m.headers, state := .bodyPending } = .ok digits := hvalue
    simp only [HTTPRequest.calculateExpectedBodySize, hget, hmethod, hhead, or_self, hhas', hvalue',
      hatoi, hsize, HTTPMessage.setExpectedBodySize, beq_self_eq_true, assertThat_true, ok_bind,
      if_false, if_true, Bool.not_true, Bool.false_eq_true, pure_eq_ok]

namespace HTTPMessageSequence

theorem comes_request {request : HTTPRequest} {s : Bytes} {c : HTTPRequestParser}
    (hrequest : request.Supported) (hblank : request.NoBlankValues) (hstr : request.str = .ok s)
    (hs : c.Sound) (hm : c.messageInProgress = HTTPMessage.initial) (hbuffer : c.buffer = s) :
    ∃ m : HTTPRequest, request.Same m ∧ Comes c { c with
      buffer := []
      completeMessages := c.completeMessages ++ [m]
      messageInProgress := HTTPMessage.initial
      derived := () } := by
  rw [str_lines hstr] at hbuffer
  obtain ⟨m, hview, hstate, -, hcomes⟩ := comes_message hs hm rfl hrequest.line
    (headerLines hrequest.headers hblank) hbuffer
    ⟨_, hrequest.calculate, HTTPMessage.takes_known _ [] rfl rfl trivial rfl⟩
  exact ⟨m, ⟨hrequest.state, hstate, hview⟩, hcomes⟩

end HTTPMessageSequence

/-- The framing depends on the request only through what `is_head()` says. -/
theorem HTTPResponse.Framed.congr {request expected : HTTPRequest} {line code body : Bytes}
    {headers : List HTTPHeader} {sizes : List Nat} (hsame : request.Same expected)
    (h : (opened request line headers).Framed code sizes body) :
    (opened expected line headers).Framed code sizes body := by
  have hline : expected.firstLine = request.firstLine := congrArg Prod.fst hsame.view
  have hhead : expected.isHead = request.isHead := by
    simp only [HTTPRequest.isHead, hsame.state, hsame.state', hline]
  have hmay {code : Bytes} (h : (opened request line headers).MayHaveBody code) :
      (opened expected line headers).MayHaveBody code :=
    ⟨h.not204, h.not304, hhead.trans h.notHead⟩
  cases h with
  | noBody hno => exact .noBody (hno.imp_right (Or.imp_right hhead.trans))
  | chunked h hchunked hbody => exact .chunked (hmay h) hchunked hbody
  | contentLength h hte hcl hnumber hvalue hlt =>
      exact .contentLength (hmay h) hte hcl hnumber hvalue hlt

namespace HTTPResponseParser

open HTTPMessageSequence

theorem comes_answer {request expected : HTTPRequest} {requests : List HTTPRequest}
    {response : HTTPResponse} {s : Bytes} {c : HTTPResponseParser} (hanswers : response.Answers request)
    (hblank : response.NoBlankValues) (hsizes : response.SmallChunkSizes)
    (hstr : response.str = .ok s) (hsame : request.Same expected) (hs : c.Sound)
    (hm : c.messageInProgress = HTTPMessage.initial) (hrequests : c.derived = expected :: requests)
    (hbuffer : c.buffer = s) :
    ∃ m : HTTPResponse, Exchanged (request, response) m ∧ Comes c { c with
      buffer := []
      completeMessages := c.completeMessages ++ [m]
      messageInProgress := HTTPMessage.initial
      derived := requests } := by
  obtain ⟨code, sizes, hstatus, hfinal, hframed⟩ := hanswers.framed
  have hexpected := hframed.congr hsame
  have htakes := hexpected.takes hstatus hfinal (hsizes request code sizes hframed) []
  rw [str_lines hstr] at hbuffer
  obtain ⟨m, hm, hcomes⟩ := comes_response hs hm hrequests hstatus.noCrlf
    (headerLines hanswers.headers hblank) hbuffer htakes
  refine ⟨m, ⟨⟨hanswers.state, hm.state, ?_⟩, hm.request ▸ hsame⟩, hcomes⟩
  rw [view, hm.firstLine, hm.headers, hm.body]
  rfl

end HTTPResponseParser

/-! ## The account -/

namespace HTTPProxy

open HTTPMessageSequence

/-- Where every request is: delivered with its response, answered by the
server, asked of the server, or still to be written to it. -/
structure Account (s : State) (delivered answered : List (HTTPRequest × HTTPResponse))
    (asked unwritten : List HTTPRequest) : Prop where
  thrown : s.thrown = none
  requests : s.requests = (delivered ++ answered).map Prod.fst ++ asked ++ unwritten
  responses : s.responses = (delivered ++ answered).map Prod.snd
  toServer : s.server.written.map .ok
    = ((delivered ++ answered).map Prod.fst ++ asked).map HTTPMessage.str
  toClient : s.client.written.map .ok = (delivered.map Prod.snd).map HTTPMessage.str
  saved : List.Forall₂ Exchanged delivered s.backingStore
  fromClient : ∃ ms, List.Forall₂ HTTPMessage.Same unwritten ms ∧
    Ahead s.requestParser s.client.incoming ms ()
  fromServer : ∃ ms expected, List.Forall₂ Exchanged answered ms ∧
    List.Forall₂ HTTPMessage.Same asked expected ∧
    Ahead s.responseParser s.server.incoming ms expected

/-- No callback of the round will find an empty queue. -/
structure Ready (s : State) : Prop where
  nodup : s.ready.Nodup
  serverOut : .serverOut ∈ s.ready → s.requestParser.completeMessages ≠ []
  clientOut : .clientOut ∈ s.ready → s.responseParser.completeMessages ≠ []

variable {s s' : State} {delivered answered : List (HTTPRequest × HTTPResponse)}
  {asked unwritten : List HTTPRequest} {n : Nat}

theorem map_eq_map {α β γ : Type} {R : α → β → Prop} {f : α → γ} {g : β → γ} {as : List α}
    {bs : List β} (h : List.Forall₂ R as bs) (hR : ∀ a b, R a b → f a = g b) :
    as.map f = bs.map g := by
  induction h with
  | nil => rfl
  | cons hab _ ih => rw [List.map_cons, List.map_cons, hR _ _ hab, ih]

theorem account_initial : Account initial [] [] [] [] where
  thrown := rfl
  requests := rfl
  responses := rfl
  toServer := rfl
  toClient := rfl
  saved := .nil
  fromClient := ⟨[], .nil, ahead_initial ()⟩
  fromServer := ⟨[], [], .nil, .nil, ahead_initial []⟩

theorem Account.faithful (h : Account s delivered answered asked unwritten) : Faithful s where
  thrown := h.thrown
  toServer := by
    rw [h.toServer, h.requests]
    exact (List.prefix_append _ unwritten).map _
  toClient := by
    rw [h.toClient, h.responses, List.map_append, List.map_append]
    exact List.prefix_append _ _
  savedOnce := by
    have := congrArg List.length h.toClient
    simp only [List.length_map] at this
    rw [← h.saved.length_eq, this]
  saved := by
    have hsaved : s.backingStore.map view = (delivered.map Prod.snd).map view := by
      rw [List.map_map]
      exact (map_eq_map h.saved fun _ _ hp => hp.response.view.symm).symm
    rw [hsaved, h.responses, List.map_append]
    exact (List.prefix_append _ _).map _
  paired := by
    have hpaired : s.backingStore.map (fun m => view (HTTPResponse.request m))
        = (delivered.map Prod.fst).map view := by
      rw [List.map_map]
      exact (map_eq_map h.saved fun _ _ hp => hp.request.view.symm).symm
    rw [hpaired, h.requests, List.map_append (f := Prod.fst), List.append_assoc, List.append_assoc]
    exact (List.prefix_append _ _).map _

/-! ### The peers -/

theorem Account.clientSends {request : HTTPRequest} {str : Bytes}
    (h : Account s delivered answered asked unwritten) (hrequest : request.Supported)
    (hblank : request.NoBlankValues) (hstr : request.str = .ok str) :
    Account { s with
      client := { s.client with incoming := s.client.incoming ++ str }
      requests := s.requests ++ [request] } delivered answered asked (unwritten ++ [request]) := by
  obtain ⟨ms, hms, hahead⟩ := h.fromClient
  obtain ⟨m, hsame, hahead'⟩ := hahead.send (P := request.Same) str ()
    fun d hs hm _ hbuffer => comes_request hrequest hblank hstr hs hm hbuffer
  exact { h with
    requests := by simp only [h.requests, List.append_assoc]
    fromClient := ⟨ms ++ [m], List.rel_append hms (.cons hsame .nil), hahead'⟩ }

theorem Account.serverSends {request : HTTPRequest} {response : HTTPResponse} {str : Bytes}
    (h : Account s delivered answered (request :: asked) unwritten)
    (hanswers : response.Answers request) (hblank : response.NoBlankValues)
    (hsizes : response.SmallChunkSizes) (hstr : response.str = .ok str) :
    Account { s with
      server := { s.server with incoming := s.server.incoming ++ str }
      responses := s.responses ++ [response] }
      delivered (answered ++ [(request, response)]) asked unwritten := by
  obtain ⟨ms, expected, hms, hexpected, hahead⟩ := h.fromServer
  cases hexpected with
  | @cons _ first _ expected hsame hexpected =>
      obtain ⟨m, hexchanged, hahead'⟩ := hahead.send
        (P := Exchanged (request, response)) str expected fun d hs hm hderived hbuffer =>
          HTTPResponseParser.comes_answer hanswers hblank hsizes hstr hsame hs hm hderived hbuffer
      exact { h with
        requests := by simp [h.requests]
        responses := by simp [h.responses]
        toServer := by simp [h.toServer]
        fromServer := ⟨ms ++ [m], expected, List.rel_append hms (.cons hexchanged .nil), hexpected,
          hahead'⟩ }

/-! ### The callbacks -/

/-- What a callback that returns leaves of the account and of the queues that
are not its own. -/
def Continues (s : State) (a : Action) (o : Except Fault State) : Prop :=
  ∃ s', o = .ok s' ∧
    (∃ delivered answered asked unwritten, Account s' delivered answered asked unwritten) ∧
    (a ≠ .serverOut → s.requestParser.completeMessages <+: s'.requestParser.completeMessages) ∧
    (a ≠ .clientOut → s.responseParser.completeMessages <+: s'.responseParser.completeMessages)

theorem take_ne_nil {x : Bytes} (h : 0 < n ∧ n ≤ x.length) : x.take n ≠ [] := by
  intro hnil
  have := congrArg List.length hnil
  rw [List.length_take, List.length_nil] at this
  omega

theorem Account.serverIn (h : Account s delivered answered asked unwritten)
    (hn : readable s n .serverIn = true) : Continues s .serverIn (callback n s .serverIn) := by
  obtain ⟨ms, expected, hms, hexpected, hahead⟩ := h.fromServer
  rw [← List.take_append_drop n s.server.incoming] at hahead
  obtain ⟨c, hparse, hahead', hkept⟩ := hahead.parse (take_ne_nil (by simpa [readable] using hn))
  have hcall : callback n s .serverIn = .ok { s with
      server := (s.server.read n).2, responseParser := c } := by
    simp only [HTTPProxy.callback, Connection.read, hparse, Except.mapError, ok_bind, pure_eq_ok]
  exact ⟨_, hcall, ⟨delivered, answered, asked, unwritten,
    { h with fromServer := ⟨ms, expected, hms, hexpected, hahead'⟩ }⟩, fun _ => List.prefix_rfl,
    fun _ => hkept⟩

theorem Account.clientIn (h : Account s delivered answered asked unwritten)
    (hn : readable s n .clientIn = true) : Continues s .clientIn (callback n s .clientIn) := by
  obtain ⟨ms, hms, hahead⟩ := h.fromClient
  rw [← List.take_append_drop n s.client.incoming] at hahead
  obtain ⟨c, hparse, hahead', hkept⟩ := hahead.parse (take_ne_nil (by simpa [readable] using hn))
  have hcall : callback n s .clientIn = .ok { s with
      client := (s.client.read n).2, requestParser := c } := by
    simp only [HTTPProxy.callback, Connection.read, hparse, Except.mapError, ok_bind, pure_eq_ok]
  exact ⟨_, hcall, ⟨delivered, answered, asked, unwritten,
    { h with fromClient := ⟨ms, hms, hahead'⟩ }⟩, fun _ => hkept, fun _ => List.prefix_rfl⟩

theorem Account.serverOut (h : Account s delivered answered asked unwritten)
    (hn : s.requestParser.completeMessages ≠ []) :
    Continues s .serverOut (callback n s .serverOut) := by
  obtain ⟨ms, hms, hahead⟩ := h.fromClient
  obtain ⟨m, rest, hqueue⟩ := List.exists_cons_of_ne_nil hn
  obtain ⟨m₀, ms₀, rfl, herase, hahead'⟩ := hahead.pop hqueue
  cases hms with
  | @cons request _ unwritten _ hsame hms =>
      have hsame := hsame.of_erase herase
      obtain ⟨str, hstr⟩ := hsame.ok
      obtain ⟨ms₁, expected, hms₁, hexpected, hahead₁⟩ := h.fromServer
      have hcall : callback n s .serverOut = .ok { s with
          server := s.server.write str
          responseParser := HTTPResponseParser.newRequestArrived m s.responseParser
          requestParser := { s.requestParser with completeMessages := rest } } := by
        simp only [HTTPProxy.callback, HTTPMessageSequence.front, HTTPMessageSequence.pop, hqueue,
          hstr, ok_bind, pure_eq_ok]
      refine ⟨_, hcall, ⟨delivered, answered, asked ++ [request], unwritten, ?_⟩,
        fun hne => absurd rfl hne, fun _ => List.prefix_rfl⟩
      exact { h with
        requests := by simp [h.requests]
        toServer := by
          simp only [Connection.write, List.map_append, h.toServer, List.append_assoc, List.map_cons,
            List.map_nil, ← hsame.str, hstr]
        fromClient := ⟨ms₀, hms, hahead'⟩
        fromServer := ⟨ms₁, expected ++ [m], hms₁, List.rel_append hexpected (.cons hsame .nil),
          HTTPResponseParser.Ahead.announce m hahead₁⟩ }

theorem Account.clientOut (h : Account s delivered answered asked unwritten)
    (hn : s.responseParser.completeMessages ≠ []) :
    Continues s .clientOut (callback n s .clientOut) := by
  obtain ⟨ms, expected, hms, hexpected, hahead⟩ := h.fromServer
  obtain ⟨m, rest, hqueue⟩ := List.exists_cons_of_ne_nil hn
  obtain ⟨m₀, ms₀, rfl, herase, hahead'⟩ := hahead.pop hqueue
  cases hms with
  | @cons p _ answered _ hexchanged hms =>
      have hexchanged := hexchanged.of_erase herase
      obtain ⟨str, hstr⟩ := hexchanged.response.ok
      obtain ⟨request, hrequest⟩ := hexchanged.request.ok
      have hcall : callback n s .clientOut = .ok { s with
          client := s.client.write str
          backingStore := s.backingStore ++ [m]
          responseParser := { s.responseParser with completeMessages := rest } } := by
        simp only [HTTPProxy.callback, HTTPMessageSequence.front, HTTPMessageSequence.pop, hqueue,
          hstr, hrequest, ok_bind, pure_eq_ok]
      refine ⟨_, hcall, ⟨delivered ++ [p], answered, asked, unwritten, ?_⟩, fun _ => List.prefix_rfl,
        fun hne => absurd rfl hne⟩
      exact { h with
        requests := by simp [h.requests]
        responses := by simp [h.responses]
        toServer := by simp [h.toServer]
        toClient := by
          simp only [Connection.write, List.map_append, h.toClient, List.map_cons, List.map_nil,
            ← hexchanged.response.str, hstr]
        saved := List.rel_append h.saved (.cons hexchanged .nil)
        fromServer := ⟨ms₀, expected, hms, hexpected, hahead'⟩ }

theorem Account.callback {a : Action} (h : Account s delivered answered asked unwritten)
    (hn : readable s n a = true) (hready : Ready s) (ha : a ∈ s.ready) :
    Continues s a (callback n s a) := by
  cases a with
  | serverIn => exact h.serverIn hn
  | clientIn => exact h.clientIn hn
  | serverOut => exact h.serverOut (hready.serverOut ha)
  | clientOut => exact h.clientOut (hready.clientOut ha)

/-! ### The loop -/

/-- What holds between two events. -/
def Accounted (s : State) : Prop :=
  (∃ delivered answered asked unwritten, Account s delivered answered asked unwritten) ∧ Ready s

theorem ready_poll {selected : List Action}
    (h : selected.Sublist (actions.filter fun a => whenInterested s a && mayBeReady s a)) :
    Ready { s with ready := selected } := by
  have hinterested : ∀ a ∈ selected, whenInterested s a = true := fun a ha => by
    have := List.of_mem_filter (h.subset ha)
    simp only [Bool.and_eq_true] at this
    exact this.1
  refine ⟨(h.trans List.filter_sublist).nodup (by decide), fun ha => ?_, fun ha => ?_⟩
  · have := hinterested _ ha
    simpa [whenInterested, HTTPMessageSequence.empty] using this
  · have := hinterested _ ha
    simpa [whenInterested, HTTPMessageSequence.empty] using this

theorem ready_callback {a : Action} {ready : List Action} (h : Ready s) (hs : s.ready = a :: ready)
    (hrequest : a ≠ .serverOut → s.requestParser.completeMessages <+: s'.requestParser.completeMessages)
    (hresponse : a ≠ .clientOut →
      s.responseParser.completeMessages <+: s'.responseParser.completeMessages) :
    Ready { s' with ready := ready } := by
  have hnodup := h.nodup
  rw [hs, List.nodup_cons] at hnodup
  refine ⟨hnodup.2, fun ha => ?_, fun ha => ?_⟩
  · have hne : a ≠ .serverOut := by
      rintro rfl
      exact hnodup.1 ha
    have := h.serverOut (by rw [hs]; exact List.mem_cons_of_mem _ ha)
    exact fun hnil => this (List.prefix_nil.mp (hnil ▸ hrequest hne))
  · have hne : a ≠ .clientOut := by
      rintro rfl
      exact hnodup.1 ha
    have := h.clientOut (by rw [hs]; exact List.mem_cons_of_mem _ ha)
    exact fun hnil => this (List.prefix_nil.mp (hnil ▸ hresponse hne))

/-- The request that the server may answer is the first one asked of it. -/
theorem Account.next {request : HTTPRequest} (h : Account s delivered answered asked unwritten)
    (hlt : s.responses.length < s.server.written.length)
    (hget : s.requests[s.responses.length]? = some request) : ∃ rest, asked = request :: rest := by
  have hwritten := congrArg List.length h.toServer
  have hlen : s.responses.length = ((delivered ++ answered).map Prod.fst).length := by
    rw [h.responses, List.length_map, List.length_map]
  rw [List.length_map, List.length_map, List.length_append] at hwritten
  cases asked with
  | nil =>
      rw [List.length_nil] at hwritten
      omega
  | cons first rest =>
      rw [h.requests, hlen, List.append_assoc, List.getElem?_append_right (Nat.le_refl _),
        Nat.sub_self] at hget
      exact ⟨rest, by rw [Option.some.inj hget]⟩

theorem step_accounted {e : Event} (h : Accounted s) (hstep : step s e = some s')
    (hevent : Peers s e ∧ Survives s e) : Accounted s' := by
  obtain ⟨⟨delivered, answered, asked, unwritten, haccount⟩, hready⟩ := h
  obtain ⟨hpeers, hsurvives⟩ := hevent
  cases e with
  | clientSends request =>
      cases hstr : request.str with
      | error e => simp [step, hstr] at hstep
      | ok str =>
          simp only [step, hstr, Option.some.injEq] at hstep
          subst hstep
          exact ⟨⟨_, _, _, _, haccount.clientSends hpeers hsurvives hstr⟩, hready.nodup,
            hready.serverOut, hready.clientOut⟩
  | serverSends response =>
      obtain ⟨hlt, request, hget, hanswers⟩ := hpeers
      obtain ⟨asked, rfl⟩ := haccount.next hlt hget
      cases hstr : response.str with
      | error e => simp [step, hstr] at hstep
      | ok str =>
          simp only [step, hstr, Option.some.injEq] at hstep
          subst hstep
          exact ⟨⟨_, _, _, _, haccount.serverSends hanswers hsurvives.1 hsurvives.2 hstr⟩,
            hready.nodup, hready.serverOut, hready.clientOut⟩
  | poll selected =>
      simp only [step, Option.ite_none_right_eq_some, Option.some.injEq] at hstep
      obtain ⟨⟨-, -, hselected⟩, rfl⟩ := hstep
      exact ⟨⟨_, _, _, _, { haccount with }⟩, ready_poll hselected⟩
  | callback n =>
      cases hs : s.ready with
      | nil => simp [step, hs] at hstep
      | cons a ready =>
          simp only [step, hs, Option.ite_none_right_eq_some] at hstep
          obtain ⟨⟨-, hn⟩, hstep⟩ := hstep
          obtain ⟨t, hcall, ⟨_, _, _, _, ht⟩, hrequest, hresponse⟩ :=
            haccount.callback hn hready (by rw [hs]; exact List.mem_cons_self)
          rw [hcall] at hstep
          cases hstep
          exact ⟨⟨_, _, _, _, { ht with }⟩, ready_callback hready hs hrequest hresponse⟩

/-- **The proxy keeps requests and responses in order and together.** In every
run in which no message has a blank header value or a huge chunk, nothing is
thrown, and what is written and saved is what the peers have sent, in order,
once, the responses with their own requests. -/
theorem proxy_keeps_order (events : List Event) (hpeers : EachStep step Peers initial events)
    (hsurvives : EachStep step Survives initial events) : Always step Faithful initial events := by
  refine always_of_eachStep (I := Accounted) (fun s h => ?_) (fun s e s' h hstep hevent => ?_) ?_
    (hpeers.and hsurvives)
  · obtain ⟨⟨_, _, _, _, haccount⟩, -⟩ := h
    exact haccount.faithful
  · exact step_accounted h hstep hevent
  · exact ⟨⟨_, _, _, _, account_initial⟩, List.nodup_nil, by simp [initial], by simp [initial]⟩

/-! ## Two runs -/

/-- A request without headers, and the response `200 OK` with one byte. -/
def getRequest : HTTPRequest := .bare (ascii "GET / HTTP/1.1")

def okResponse : HTTPResponse where
  expectedBodySize := (true, 1)
  firstLine := ascii "HTTP/1.1 200 OK"
  headers := [⟨ascii "Content-Length", ascii "1"⟩]
  body := ascii "x"
  state := .complete
  derived := ⟨getRequest, none⟩

theorem supported_get : getRequest.Supported :=
  ⟨rfl, by decide, fun _ h => absurd h List.not_mem_nil, .inl ⟨.inl (by decide), rfl⟩⟩

theorem answers_ok : okResponse.Answers getRequest where
  state := rfl
  headers := by
    intro h hh
    obtain rfl : h = ⟨ascii "Content-Length", ascii "1"⟩ := List.mem_singleton.mp hh
    exact ⟨by decide, by decide, by decide, .inr ⟨49, [], rfl, by decide⟩⟩
  framed := ⟨ascii "200", [], isFinal_ok.status, isFinal_ok.final, isFinal_ok.framed⟩

theorem smallChunkSizes_ok : okResponse.SmallChunkSizes := by
  intro request code sizes h size hsize
  -- there is a body, so the framing is by chunks or by length
  cases h with
  | chunked _ hchunked _ =>
      have : (HTTPResponse.opened request okResponse.firstLine okResponse.headers).isChunked
          = .ok false := rfl
      rw [this] at hchunked
      cases hchunked
  | contentLength _ _ _ _ _ _ => cases hsize

/-- A request and its response, the request read in two pieces. -/
def exchange : List Event :=
  [.clientSends getRequest, .poll [.clientIn], .callback 7, .poll [.clientIn], .callback 11,
    .poll [.serverOut], .callback 0, .serverSends okResponse, .poll [.serverIn], .callback 39,
    .poll [.clientOut], .callback 0]

theorem proxy_keeps_order_exchange : Always step Faithful initial exchange := by
  refine proxy_keeps_order exchange ?_ ?_
  · refine .cons rfl supported_get ?_
    refine .cons rfl trivial (.cons rfl trivial (.cons rfl trivial (.cons rfl trivial ?_)))
    refine .cons rfl trivial (.cons rfl trivial ?_)
    refine .cons rfl ⟨by decide +kernel, getRequest, by decide +kernel, answers_ok⟩ ?_
    exact .cons rfl trivial (.cons rfl trivial (.cons rfl trivial (.cons rfl trivial trivial)))
  · have hget : getRequest.NoBlankValues := fun _ h => absurd h List.not_mem_nil
    refine fun _ _ => ⟨hget, fun _ _ => ⟨trivial, fun _ _ => ⟨trivial, fun _ _ => ⟨trivial, ?_⟩⟩⟩⟩
    refine fun _ _ => ⟨trivial, fun _ _ => ⟨trivial, fun _ _ => ⟨trivial, fun _ _ => ⟨?_, ?_⟩⟩⟩⟩
    · exact ⟨by decide, smallChunkSizes_ok⟩
    · exact fun _ _ => ⟨trivial, fun _ _ => ⟨trivial, fun _ _ => ⟨trivial, fun _ _ => ⟨trivial, trivial⟩⟩⟩⟩

/-- A request with an empty header value. -/
def emptyValue : HTTPRequest := { getRequest with headers := [⟨ascii "X", []⟩] }

theorem supported_emptyValue : emptyValue.Supported where
  state := rfl
  line := by decide
  headers := by
    intro h hh
    obtain rfl : h = ⟨ascii "X", []⟩ := List.mem_singleton.mp hh
    exact ⟨by decide, by decide, by decide, .inl (by decide +kernel)⟩
  framed := .inl ⟨.inl (by decide), rfl⟩

/-- It arrives at the server with one space more than the client has sent. -/
theorem empty_value_changes_on_the_way :
    EachStep step Peers initial [.clientSends emptyValue, .poll [.clientIn], .callback 23,
      .poll [.serverOut], .callback 0] ∧
    ¬ Always step Faithful initial [.clientSends emptyValue, .poll [.clientIn], .callback 23,
      .poll [.serverOut], .callback 0] := by
  refine ⟨fun _ _ => ⟨supported_emptyValue, fun _ _ => ⟨trivial, fun _ _ => ⟨trivial, fun _ _ => ?_⟩⟩⟩,
    by decide +kernel⟩
  exact ⟨trivial, fun _ _ => ⟨trivial, trivial⟩⟩

end HTTPProxy

end Mahimahi
