import Mahimahi.HTTPProxy
import Mahimahi.HTTPRecord

/-!
# From the client of a recording to the client of a replay

A recording is made by one proxy for each connection; they share the directory, in
which each `save` makes a file of its own. `replayserver` reads the files in the order
in which the directory lists them, which says nothing about the order of the savings.

What is proved links the two ends: a client that asks the replay server a line which a
client has asked while recording gets, to the byte, what the proxy has passed on to that
client. In between are the order that the proxy keeps, the protocol buffers on disk and
the score of the search.
-/

namespace Mahimahi

open MahimahiProtobufs Wire

/-! ## The same request -/

section

variable {env : CgiEnvironment} {line : Bytes}

/-- The request asks for the line, from a server with the scheme asked for. -/
structure HTTPRequest.AsksFor (env : CgiEnvironment) (line : Bytes) (server : Address)
    (request : HTTPRequest) : Prop where
  line : request.firstLine = line
  scheme : server.port = 443 ↔ env.https = true
  host : request.headerOf (ascii "Host") = env.httpHost
  userAgent : request.headerOf (ascii "User-Agent") = env.httpUserAgent

/-- The request may be answered for the line: its own line may go on behind it. -/
def HTTPRequest.Continues (env : CgiEnvironment) (line : Bytes) (server : Address)
    (request : HTTPRequest) : Prop :=
  Eligible env line (server.port = 443) request ∧ line <+: request.firstLine

instance (env : CgiEnvironment) (line : Bytes) (server : Address) (request : HTTPRequest) :
    Decidable (request.Continues env line server) :=
  inferInstanceAs (Decidable (_ ∧ _))

/-- Of a request that has come across, the record says what the client has sent. -/
theorem HTTPMessage.Same.headerOf {X : Type} {m n : HTTPMessage X} (h : m.Same n)
    (headerName : Bytes) : n.headerOf headerName = m.headerOf headerName := by
  obtain ⟨-, hrest⟩ := Prod.mk.inj h.view
  obtain ⟨hheaders, -⟩ := Prod.mk.inj hrest
  rw [HTTPMessage.headerOf, HTTPMessage.headerOf, hheaders]

theorem HTTPMessage.Same.firstLine {X : Type} {m n : HTTPMessage X} (h : m.Same n) :
    n.firstLine = m.firstLine := (Prod.mk.inj h.view).1

theorem Exchanged.answers {p : HTTPRequest × HTTPResponse} {m : HTTPResponse}
    {server : Address} (h : Exchanged p m) (hasks : p.1.AsksFor env line server) :
    (⟨m, server⟩ : Exchange).Answers env line where
  line := by rw [h.request.firstLine, hasks.line]
  scheme := hasks.scheme
  host := by rw [h.request.headerOf, hasks.host]
  userAgent := by rw [h.request.headerOf, hasks.userAgent]

theorem Exchanged.continues_iff {p : HTTPRequest × HTTPResponse} {m : HTTPResponse}
    {server : Address} (h : Exchanged p m) :
    (⟨m, server⟩ : Exchange).Continues env line ↔ p.1.Continues env line server := by
  have hiff : Eligible env line (server.port = 443) m.request ↔
      Eligible env line (server.port = 443) p.1 := by
    constructor
    · intro he
      exact ⟨he.scheme, by rw [← h.request.headerOf, he.host],
        by rw [← h.request.headerOf, he.userAgent], by rw [he.query, h.request.firstLine]⟩
    · intro he
      exact ⟨he.scheme, by rw [h.request.headerOf, he.host],
        by rw [h.request.headerOf, he.userAgent], by rw [he.query, h.request.firstLine]⟩
  rw [Exchange.Continues, HTTPRequest.Continues, hiff, h.request.firstLine]

end

/-! ## A recording -/

/-- A connection through the recording proxy: a run of its loop, with the peers and the
messages that it can serve. -/
structure RecordedConnection where
  server : Address
  events : List HTTPProxy.Event
  final : HTTPProxy.State
  run : events.foldlM HTTPProxy.step HTTPProxy.initial = some final
  peers : EachStep HTTPProxy.step HTTPProxy.Peers HTTPProxy.initial events
  survives : EachStep HTTPProxy.step HTTPProxy.Survives HTTPProxy.initial events

theorem RecordedConnection.accounted (c : RecordedConnection) : HTTPProxy.Accounted c.final := by
  refine invariant_of_eachStep (I := HTTPProxy.Accounted) (fun s e s' h hstep hevent =>
    HTTPProxy.step_accounted h hstep hevent) ?_ (c.peers.and c.survives) c.run
  exact ⟨⟨_, _, _, _, HTTPProxy.account_initial⟩, List.nodup_nil, by simp [HTTPProxy.initial],
    by simp [HTTPProxy.initial]⟩

variable {R : Runtime} {recordFolder : Bytes}

/-- A file of the directory: what `save` has made of the response at one place of a
connection. -/
structure DirectoryEntry (R : Runtime) (recordFolder : Bytes) where
  connection : RecordedConnection
  place : Nat
  response : HTTPResponse
  backed : connection.final.backingStore[place]? = some response
  suffix : Bytes
  file : DiskFile
  saved : saveToDisk R recordFolder suffix response connection.server = .ok file
  fits : Storable R connection.server file

namespace DirectoryEntry

/-- The request that the client has sent at this place. -/
def request? (e : DirectoryEntry R recordFolder) : Option HTTPRequest :=
  e.connection.final.requests[e.place]?

def exchange (e : DirectoryEntry R recordFolder) : Exchange := ⟨e.response, e.connection.server⟩

/-- The file is of the request, of the response that the server has given to it, and of
the bytes that the client got. -/
theorem traced (e : DirectoryEntry R recordFolder) :
    ∃ p : HTTPRequest × HTTPResponse, e.request? = some p.1 ∧
      e.connection.final.responses[e.place]? = some p.2 ∧ Exchanged p e.response ∧
      ∃ text, e.connection.final.client.written[e.place]? = some text ∧ p.2.str = .ok text := by
  obtain ⟨⟨delivered, answered, asked, unwritten, haccount⟩, -⟩ := e.connection.accounted
  obtain ⟨hlt, hresponse⟩ := List.getElem?_eq_some_iff.mp e.backed
  have hlen := haccount.saved.length_eq
  have hdelivered : e.place < delivered.length := by omega
  have hexchanged := (List.forall₂_iff_get.mp haccount.saved).2 e.place hdelivered hlt
  refine ⟨delivered[e.place], ?_, ?_, ?_, ?_⟩
  · rw [request?, haccount.requests, List.getElem?_append_left (by simp; omega),
      List.getElem?_append_left (by simp; omega), List.getElem?_map,
      List.getElem?_append_left hdelivered, List.getElem?_eq_getElem hdelivered]
    rfl
  · rw [haccount.responses, List.getElem?_map, List.getElem?_append_left hdelivered,
      List.getElem?_eq_getElem hdelivered]
    rfl
  · rw [← hresponse]
    exact hexchanged
  · have hwritten := congrArg (fun l => l[e.place]?) haccount.toClient
    simp only [List.getElem?_map, List.getElem?_eq_getElem hdelivered, Option.map_some] at hwritten
    obtain ⟨text, htext, hstr⟩ := Option.map_eq_some_iff.mp hwritten
    exact ⟨text, htext, hstr.symm⟩

/-- Whether the request at this place may be answered for the line. -/
def continues (env : CgiEnvironment) (line : Bytes) (e : DirectoryEntry R recordFolder) : Bool :=
  e.request?.any fun request => decide (request.Continues env line e.connection.server)

theorem continues_eq (env : CgiEnvironment) (line : Bytes) (e : DirectoryEntry R recordFolder) :
    e.continues env line = decide (e.exchange.Continues env line) := by
  obtain ⟨p, hrequest, -, hexchanged, -⟩ := e.traced
  rw [continues, hrequest, Option.any_some]
  exact decide_eq_decide.mpr hexchanged.continues_iff.symm

/-- What `replayserver` finds in the file. -/
def load (looks : Lookaheads) (e : DirectoryEntry R recordFolder) : RecordFile := e.file.load R looks

theorem savedIn (looks : Lookaheads) : ∀ directory : List (DirectoryEntry R recordFolder),
    List.Forall₂ Exchange.SavedIn (directory.map (load looks)) (directory.map exchange)
  | [] => .nil
  | e :: directory => .cons (load_saveToDisk looks e.saved e.fits) (savedIn looks directory)

end DirectoryEntry

/-! ## Replaying -/

/-- **What is replayed is what was passed on.** Of a directory with the files of any
connections, in any order, and for a line that one of the clients has asked with the same
scheme, host and user agent: the replay server prints, to the byte, what the proxy has
written to the client in the first file whose request continues the line, and this is the
response that the server had sent to it. -/
theorem recorded_is_replayed (looks : Lookaheads) (directory : List (DirectoryEntry R recordFolder))
    {env : CgiEnvironment} {line : Bytes} (hline : env.requestLine = .ok line)
    (hshort : line.length < 2 ^ 32)
    (hasked : ∃ e ∈ directory, ∃ request, e.request? = some request ∧
      request.AsksFor env line e.connection.server) :
    ∃ e text response, directory.find? (DirectoryEntry.continues env line) = some e ∧
      e.connection.final.client.written[e.place]? = some text ∧
      e.connection.final.responses[e.place]? = some response ∧ response.str = .ok text ∧
      replay env (directory.map (DirectoryEntry.load looks)) = .ok text := by
  obtain ⟨e₀, he₀, request, hrequest, hasks⟩ := hasked
  have hanswers : ∃ x ∈ directory.map DirectoryEntry.exchange, x.Answers env line := by
    refine ⟨e₀.exchange, List.mem_map_of_mem he₀, ?_⟩
    obtain ⟨p, hp, -, hexchanged, -⟩ := e₀.traced
    obtain rfl := Option.some.inj (hrequest.symm.trans hp)
    exact hexchanged.answers hasks
  obtain ⟨x, hfind, hreplay⟩ := replay_eq hline (DirectoryEntry.savedIn looks directory) hanswers hshort
  have hpredicate : (fun x : Exchange => decide (x.Continues env line)) ∘ DirectoryEntry.exchange
      = (DirectoryEntry.continues env line : DirectoryEntry R recordFolder → Bool) := by
    funext e
    exact (e.continues_eq env line).symm
  rw [List.find?_map, hpredicate] at hfind
  obtain ⟨e, he, rfl⟩ := Option.map_eq_some_iff.mp hfind
  obtain ⟨p, -, hresponse, hexchanged, text, hwritten, htext⟩ := e.traced
  refine ⟨e, text, p.2, he, hwritten, hresponse, htext, ?_⟩
  rw [hreplay]
  show e.response.str = _
  rw [hexchanged.response.str, htext]

/-- The connection with one request and its response. -/
def recordedExchange : RecordedConnection where
  server := ⟨ascii "10.0.0.1", 80⟩
  events := HTTPProxy.exchange
  final := (HTTPProxy.exchange.foldlM HTTPProxy.step HTTPProxy.initial).get (by decide +kernel)
  run := (Option.some_get _).symm
  peers := by
    refine .cons rfl HTTPProxy.supported_get ?_
    refine .cons rfl trivial (.cons rfl trivial (.cons rfl trivial (.cons rfl trivial ?_)))
    refine .cons rfl trivial (.cons rfl trivial ?_)
    refine .cons rfl ⟨by decide +kernel, HTTPProxy.getRequest, by decide +kernel,
      HTTPProxy.answers_ok⟩ ?_
    exact .cons rfl trivial (.cons rfl trivial (.cons rfl trivial (.cons rfl trivial trivial)))
  survives := by
    refine .cons rfl (fun _ h => absurd h List.not_mem_nil) ?_
    refine .cons rfl trivial (.cons rfl trivial (.cons rfl trivial (.cons rfl trivial ?_)))
    refine .cons rfl trivial (.cons rfl trivial ?_)
    refine .cons rfl ⟨by decide, HTTPProxy.smallChunkSizes_ok⟩ ?_
    exact .cons rfl trivial (.cons rfl trivial (.cons rfl trivial (.cons rfl trivial trivial)))

theorem eq_ok_get {ε α : Type} {x : Except ε α} (h : x.toOption.isSome = true) :
    x = .ok (x.toOption.get h) := by
  cases x with
  | error e => cases h
  | ok a => rfl

/-- Its file. -/
def savedExchange : DirectoryEntry plain (ascii "recording/") where
  connection := recordedExchange
  place := 0
  response := recordedExchange.final.backingStore[0]?.get (by decide +kernel)
  backed := (Option.some_get _).symm
  suffix := ascii "aBcDeF"
  file := (saveToDisk plain (ascii "recording/") (ascii "aBcDeF")
    (recordedExchange.final.backingStore[0]?.get (by decide +kernel))
    recordedExchange.server).toOption.get (by decide +kernel)
  saved := eq_ok_get _
  fits := ⟨by decide, by decide +kernel, by decide +kernel⟩

/-- A request for `GET / HTTP/1.1`. -/
def getRoot : CgiEnvironment := { getQuery with requestUri := some (ascii "/") }

theorem recorded_is_replayed_exchange :
    replay getRoot [savedExchange.load .never]
      = .ok (ascii "HTTP/1.1 200 OK\r\nContent-Length: 1\r\n\r\nx") := by
  have hrequest : savedExchange.request? = some HTTPProxy.getRequest := by decide +kernel
  obtain ⟨e, text, response, hfind, hwritten, -, -, hreplay⟩ :=
    recorded_is_replayed .never [savedExchange] (show getRoot.requestLine = _ from rfl) (by decide)
      ⟨savedExchange, List.mem_singleton_self _, HTTPProxy.getRequest, hrequest, rfl, by decide,
        rfl, rfl⟩
  obtain rfl := List.mem_singleton.mp (List.mem_of_find?_eq_some hfind)
  have htext : savedExchange.connection.final.client.written[savedExchange.place]?
      = some (ascii "HTTP/1.1 200 OK\r\nContent-Length: 1\r\n\r\nx") := by decide +kernel
  rw [hwritten] at htext
  obtain rfl := Option.some.inj htext
  exact hreplay

end Mahimahi
