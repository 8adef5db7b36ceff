import Mathlib.Data.List.Basic
import Mahimahi.HTTPMessage

/-!
# Recording exchanges and replaying them

`HTTPDiskStore.save` writes a request and its response to a file of their
own; `replay` is `replayserver`, which answers one request from the files of
a recording directory. It gives every record a score, 0 where the record does
not match and otherwise the length of the common prefix of the two request
lines, and takes the first record with the highest.

A record for the very line asked for has the highest score there is, but it
has to share it with records whose line goes on after that. So the code gives
the response that was recorded exactly when no such record comes before
(`replays_recorded_iff`).
-/

namespace Mahimahi

/-! ## Protocol buffers -/

/-- `MahimahiProtobufs::HTTPMessage`. -/
structure HTTPMessageProto where
  firstLine : Bytes
  header : List HTTPHeader
  body : Bytes
  deriving DecidableEq, Repr

/-- `MahimahiProtobufs::RequestResponse_Scheme`. -/
inductive Scheme where
  | http
  | https
  deriving DecidableEq, Repr

/-- `MahimahiProtobufs::RequestResponse`. -/
structure RequestResponse where
  ip : Bytes
  port : Nat
  scheme : Scheme
  request : HTTPMessageProto
  response : HTTPMessageProto
  deriving DecidableEq, Repr

namespace HTTPMessage

variable {X : Type}

/-- `toprotobuf`. -/
def toProtobuf (m : HTTPMessage X) : Except Fault HTTPMessageProto := do
  assertThat (m.state == .complete) "state_ == COMPLETE"
  return ⟨m.firstLine, m.headers, m.body⟩

/-- Construct from protobuf. -/
def ofProtobuf [HTTPMessageType X] (proto : HTTPMessageProto) : HTTPMessage X :=
  { (initial : HTTPMessage X) with
    firstLine := proto.firstLine
    headers := proto.header
    body := proto.body
    state := .complete }

/-- The value of the first header with the name. -/
def headerOf (headerName : Bytes) (m : HTTPMessage X) : Option Bytes :=
  (m.headers.find? fun header => equivalentStrings header.key headerName).map HTTPHeader.value

theorem toProtobuf_eq_ok {m : HTTPMessage X} {proto : HTTPMessageProto}
    (h : m.toProtobuf = .ok proto) :
    m.state = .complete ∧ proto = ⟨m.firstLine, m.headers, m.body⟩ := by
  simp only [toProtobuf, bind_eq_ok, assertThat_eq_ok, beq_iff_eq, pure_eq_ok,
    Except.ok.injEq] at h
  obtain ⟨-, hstate, rfl⟩ := h
  exact ⟨hstate, rfl⟩

theorem str_ofProtobuf {Y : Type} [HTTPMessageType Y] {m : HTTPMessage X} {proto : HTTPMessageProto}
    (h : m.toProtobuf = .ok proto) : (ofProtobuf proto : HTTPMessage Y).str = m.str := by
  obtain ⟨hstate, rfl⟩ := toProtobuf_eq_ok h
  simp [str, ofProtobuf, hstate]

theorem hasHeader_eq (headerName : Bytes) (m : HTTPMessage X) :
    m.hasHeader headerName = (m.headerOf headerName).isSome := by
  rw [hasHeader, headerOf, Option.isSome_map, Bool.eq_iff_iff, List.find?_isSome, List.any_eq_true]

theorem getHeaderValue_of_headerOf {headerName value : Bytes} {m : HTTPMessage X}
    (h : m.headerOf headerName = some value) : m.getHeaderValue headerName = .ok value := by
  obtain ⟨header, hfind, rfl⟩ := Option.map_eq_some_iff.mp h
  rw [getHeaderValue, hfind]

end HTTPMessage

/-! ## Recording -/

/-- `Address`, as far as it is recorded. -/
structure Address where
  ip : Bytes
  port : Nat
  deriving DecidableEq, Repr

/-- `HTTPDiskStore::save`: what it writes to a file of its own. -/
def save (response : HTTPResponse) (serverAddress : Address) : Except Fault RequestResponse := do
  let request ← response.request.toProtobuf
  let proto ← response.toProtobuf
  return {
    ip := serverAddress.ip
    port := serverAddress.port
    scheme := if serverAddress.port = 443 then .https else .http
    request := request
    response := proto }

/-! ## Replaying -/

/-- The variables that the line asked for is made of. -/
inductive LineVariable where
  | requestMethod
  | requestUri
  | serverProtocol
  deriving DecidableEq

def LineVariable.key : LineVariable → Bytes
  | requestMethod => ascii "REQUEST_METHOD"
  | requestUri => ascii "REQUEST_URI"
  | serverProtocol => ascii "SERVER_PROTOCOL"

/-- What `replayserver` reads of its environment. -/
structure CgiEnvironment where
  requestMethod : Option Bytes
  requestUri : Option Bytes
  serverProtocol : Option Bytes
  httpHost : Option Bytes
  httpUserAgent : Option Bytes
  /-- Whether `HTTPS` is set. -/
  https : Bool
  /-- The order in which the operands of the line are evaluated: C++ leaves it open. -/
  order : List LineVariable
  everyOperand : ∀ v, v ∈ order

/-- `safe_getenv`, given what `getenv` returns. -/
def safeGetenv (key : Bytes) : Option Bytes → Except Fault Bytes
  | none => .error (.runtimeErrorWith "missing environment variable: " key)
  | some value => .ok value

def CgiEnvironment.getenv (env : CgiEnvironment) : LineVariable → Option Bytes
  | .requestMethod => env.requestMethod
  | .requestUri => env.requestUri
  | .serverProtocol => env.serverProtocol

def CgiEnvironment.requestLine (env : CgiEnvironment) : Except Fault Bytes := do
  let values ← env.order.mapM fun v => do return (v, ← safeGetenv v.key (env.getenv v))
  let operand v := (values.lookup v).getD []
  return operand .requestMethod ++ ascii " " ++ operand .requestUri ++ ascii " "
    ++ operand .serverProtocol

/-- With every variable set, the order makes no difference. -/
theorem requestLine_eq {env : CgiEnvironment} {method uri protocol : Bytes}
    (hmethod : env.requestMethod = some method) (huri : env.requestUri = some uri)
    (hprotocol : env.serverProtocol = some protocol) :
    env.requestLine = .ok (method ++ ascii " " ++ uri ++ ascii " " ++ protocol) := by
  let value : LineVariable → Bytes
    | .requestMethod => method
    | .requestUri => uri
    | .serverProtocol => protocol
  have hvalue (v : LineVariable) : safeGetenv v.key (env.getenv v) = .ok (value v) := by
    cases v
    · rw [CgiEnvironment.getenv, hmethod]; rfl
    · rw [CgiEnvironment.getenv, huri]; rfl
    · rw [CgiEnvironment.getenv, hprotocol]; rfl
  have hmap : (env.order.mapM fun v => do return (v, ← safeGetenv v.key (env.getenv v)))
      = (.ok (env.order.map fun v => (v, value v)) : Except Fault _) := by
    simp only [hvalue, ok_bind]
    exact List.mapM_pure
  rw [CgiEnvironment.requestLine, hmap, ok_bind]
  simp only [List.lookup_graph value (env.everyOperand _), Option.getD_some]
  rfl

/-- `header_match`, given the value of the environment variable. -/
def headerMatch (envValue : Option Bytes) (headerName : Bytes) (savedRequest : HTTPRequest) :
    Except Fault Bool :=
  match envValue with
  -- case 1: neither header exists
  | none => .ok (!savedRequest.hasHeader headerName)
  -- case 2: headers both exist
  | some value =>
      if savedRequest.hasHeader headerName then do
        return (← savedRequest.getHeaderValue headerName) == value
      -- case 3: one exists but the other doesn't
      else .ok false

def stripQuery (requestLine : Bytes) : Bytes :=
  match find (ascii "?") requestLine with
  | none => requestLine
  | some index => requestLine.take index

/-- The loop over the common prefix, from index `i` on. -/
def commonPrefix : Nat → Bytes → Bytes → Nat
  | i, a :: as, b :: bs => if a = b then commonPrefix (i + 1) as bs else i
  | i, _, _ => i

def matchScore (savedRecord : RequestResponse) (requestLine : Bytes) (env : CgiEnvironment) :
    Except Fault Nat := do
  let savedRequest : HTTPRequest := .ofProtobuf savedRecord.request
  if env.https ∧ savedRecord.scheme ≠ .https then return 0
  if ¬ env.https ∧ savedRecord.scheme ≠ .http then return 0
  if !(← headerMatch env.httpHost (ascii "Host") savedRequest) then return 0
  if !(← headerMatch env.httpUserAgent (ascii "User-Agent") savedRequest) then return 0
  -- must match first line up to "?" at least
  if stripQuery requestLine ≠ stripQuery savedRequest.firstLine then return 0
  -- the index is an `unsigned int`, which never gets to a larger end
  let score := commonPrefix 0 requestLine savedRequest.firstLine
  if score < 2 ^ 32 then return score else throw .diverges

/-- A file of the recording directory: its name, and the record that it holds
if it holds one. -/
structure RecordFile where
  name : Bytes
  parsed : Option RequestResponse

/-- The loop over the files, with the best score so far and its record. -/
def bestMatch (env : CgiEnvironment) (requestLine : Bytes) :
    List RecordFile → Nat → RequestResponse → Except Fault (Nat × RequestResponse)
  | [], bestScore, best => .ok (bestScore, best)
  | file :: files, bestScore, best =>
      if (find (ascii "save") file.name).isSome then
        match file.parsed with
        | none =>
            .error (.runtimeErrorWith "" (file.name ++ ascii ": invalid HTTP request/response"))
        | some current => do
            let score ← matchScore current requestLine env
            if bestScore < score then bestMatch env requestLine files score current
            else bestMatch env requestLine files bestScore best
      else bestMatch env requestLine files bestScore best

def notFound (requestLine : Bytes) : Bytes :=
  ascii "HTTP/1.1 404 Not Found" ++ crlf ++ ascii "Content-Type: text/plain" ++ crlf ++ crlf ++
    ascii "replayserver: could not find a match for " ++ requestLine ++ crlf

/-- A `RequestResponse` with nothing set. -/
def RequestResponse.unset : RequestResponse := ⟨[], 0, .http, ⟨[], [], []⟩, ⟨[], [], []⟩⟩

/-- `main` of `replayserver`: what it prints, unless it prints an exception. -/
def replay (env : CgiEnvironment) (files : List RecordFile) : Except Fault Bytes := do
  let requestLine ← env.requestLine
  let (bestScore, best) ← bestMatch env requestLine files 0 .unset
  if 0 < bestScore then (HTTPMessage.ofProtobuf best.response : HTTPResponse).str
  else return notFound requestLine

/-! ## The first of the best -/

section

variable {α : Type} {score : α → Nat} {seen : List α} {b : Nat} {best : α}

/-- Of the elements seen, `best` is the first with the highest score `b`, if
any has a score above 0. -/
structure Leads (score : α → Nat) (seen : List α) (b : Nat) (best : α) : Prop where
  le : ∀ x ∈ seen, score x ≤ b
  first : 0 < b → seen.find? (fun x => decide (b ≤ score x)) = some best

/-- Only a score that is strictly better takes the lead. -/
theorem Leads.next (h : Leads score seen b best) (x : α) :
    Leads score (seen ++ [x]) (if b < score x then score x else b)
      (if b < score x then x else best) := by
  by_cases hlt : b < score x
  · rw [if_pos hlt, if_pos hlt]
    refine ⟨fun y hy => ?_, fun _ => ?_⟩
    · rcases List.mem_append.mp hy with hy | hy
      · exact Nat.le_of_lt (Nat.lt_of_le_of_lt (h.le y hy) hlt)
      · rw [List.mem_singleton.mp hy]
    · have hbelow : seen.find? (fun y => decide (score x ≤ score y)) = none := by
        rw [List.find?_eq_none]
        intro y hy hle
        have hyb := h.le y hy
        have hxy := of_decide_eq_true hle
        omega
      rw [List.find?_append, hbelow]
      simp
  · rw [if_neg hlt, if_neg hlt]
    refine ⟨fun y hy => ?_, fun hpos => ?_⟩
    · rcases List.mem_append.mp hy with hy | hy
      · exact h.le y hy
      · rw [List.mem_singleton.mp hy]
        exact Nat.le_of_not_lt hlt
    · rw [List.find?_append, h.first hpos]
      rfl

end

/-! ## The score of a record -/

theorem commonPrefix_le : ∀ (i : Nat) (a b : Bytes), commonPrefix i a b ≤ i + a.length
  | i, [], b => by simp [commonPrefix]
  | i, a :: as, [] => by simp [commonPrefix]
  | i, a :: as, b :: bs => by
      rw [commonPrefix, List.length_cons]
      split
      · have := commonPrefix_le (i + 1) as bs
        omega
      · omega

/-- The whole line is common exactly with the lines that begin with it. -/
theorem le_commonPrefix_iff : ∀ (i : Nat) (a b : Bytes),
    i + a.length ≤ commonPrefix i a b ↔ a <+: b
  | i, [], b => by simp [commonPrefix]
  | i, a :: as, [] => by simp [commonPrefix]
  | i, a :: as, b :: bs => by
      have ih := le_commonPrefix_iff (i + 1) as bs
      rw [commonPrefix, List.length_cons, List.cons_prefix_cons]
      split
      · next hab =>
          rw [← ih, Nat.add_right_comm, Nat.add_assoc]
          simp [hab]
      · next hab => simp [hab]

/-- A request with the first line `firstLine`, recorded from an HTTPS server or
not, may be answered: everything but the query agrees. -/
structure Eligible (env : CgiEnvironment) (requestLine : Bytes) (https : Prop)
    (request : HTTPRequest) : Prop where
  scheme : https ↔ env.https = true
  host : request.headerOf (ascii "Host") = env.httpHost
  userAgent : request.headerOf (ascii "User-Agent") = env.httpUserAgent
  query : stripQuery requestLine = stripQuery request.firstLine

instance (env : CgiEnvironment) (requestLine : Bytes) (https : Prop) [Decidable https]
    (request : HTTPRequest) : Decidable (Eligible env requestLine https request) :=
  decidable_of_iff
    ((https ↔ env.https = true) ∧ request.headerOf (ascii "Host") = env.httpHost ∧
      request.headerOf (ascii "User-Agent") = env.httpUserAgent ∧
      stripQuery requestLine = stripQuery request.firstLine)
    ⟨fun h => ⟨h.1, h.2.1, h.2.2.1, h.2.2.2⟩, fun h => ⟨h.1, h.2, h.3, h.4⟩⟩

theorem headerMatch_eq (envValue : Option Bytes) (headerName : Bytes) (request : HTTPRequest) :
    headerMatch envValue headerName request
      = .ok (decide (request.headerOf headerName = envValue)) := by
  cases hvalue : request.headerOf headerName with
  | none =>
      have hhas : request.hasHeader headerName = false := by
        rw [HTTPMessage.hasHeader_eq, hvalue]
        rfl
      cases envValue <;> simp [headerMatch, hhas]
  | some value =>
      have hhas : request.hasHeader headerName = true := by
        rw [HTTPMessage.hasHeader_eq, hvalue]
        rfl
      cases envValue with
      | none => simp [headerMatch, hhas]
      | some expected =>
          simp [headerMatch, hhas, HTTPMessage.getHeaderValue_of_headerOf hvalue, Bool.beq_eq_decide_eq]

/-- What `match_score` computes, when the lines are not too long for it. -/
def scoreOf (env : CgiEnvironment) (requestLine : Bytes) (record : RequestResponse) : Nat :=
  let request : HTTPRequest := .ofProtobuf record.request
  if Eligible env requestLine (record.scheme = .https) request
  then commonPrefix 0 requestLine request.firstLine else 0

theorem matchScore_eq (record : RequestResponse) (requestLine : Bytes) (env : CgiEnvironment) :
    matchScore record requestLine env =
      if scoreOf env requestLine record < 2 ^ 32 then .ok (scoreOf env requestLine record)
      else .error .diverges := by
  have hzero (h : ¬ Eligible env requestLine (record.scheme = .https)
      (.ofProtobuf record.request)) :
      (.ok 0 : Except Fault Nat) = if scoreOf env requestLine record < 2 ^ 32
        then .ok (scoreOf env requestLine record) else .error .diverges := by
    rw [scoreOf, if_neg h]
    rfl
  have hscheme : ((env.https ∧ record.scheme ≠ .https) ∨ (¬ env.https ∧ record.scheme ≠ .http)) ↔
      ¬ (record.scheme = .https ↔ env.https = true) := by
    cases env.https <;> cases record.scheme <;> simp
  simp only [matchScore, headerMatch_eq, ok_bind, pure_eq_ok, throw_eq_error]
  by_cases hscheme' : record.scheme = .https ↔ env.https = true
  case neg =>
    rw [← hzero fun h => hscheme' h.scheme]
    rcases hscheme.mpr hscheme' with h | h
    · rw [if_pos h]
    · rw [if_neg (by simp [h.1]), if_pos h]
  have hnot := not_or.mp (mt hscheme.mp (not_not_intro hscheme'))
  rw [if_neg hnot.1, if_neg hnot.2]
  by_cases hhost : (HTTPMessage.ofProtobuf record.request : HTTPRequest).headerOf (ascii "Host")
      = env.httpHost
  case neg =>
    rw [← hzero fun h => hhost h.host]
    simp [hhost]
  by_cases hagent : (HTTPMessage.ofProtobuf record.request : HTTPRequest).headerOf
      (ascii "User-Agent") = env.httpUserAgent
  case neg =>
    rw [← hzero fun h => hagent h.userAgent]
    simp [hhost, hagent]
  by_cases hquery : stripQuery requestLine
      = stripQuery (HTTPMessage.ofProtobuf record.request : HTTPRequest).firstLine
  case neg =>
    rw [← hzero fun h => hquery h.query]
    simp [hhost, hagent, hquery]
  have hscore : scoreOf env requestLine record = commonPrefix 0 requestLine
      (HTTPMessage.ofProtobuf record.request : HTTPRequest).firstLine :=
    if_pos ⟨hscheme', hhost, hagent, hquery⟩
  rw [hscore]
  simp only [hhost, hagent, decide_true, Bool.not_true, Bool.false_eq_true, if_false]
  rw [if_neg (not_not_intro hquery)]

/-- No score is above the length of the line asked for, and that is the score of
the eligible records whose line begins with it. -/
theorem scoreOf_le (env : CgiEnvironment) (requestLine : Bytes) (record : RequestResponse) :
    scoreOf env requestLine record ≤ requestLine.length := by
  simp only [scoreOf]
  split
  · simpa using commonPrefix_le 0 requestLine _
  · exact Nat.zero_le _

theorem le_scoreOf_iff {env : CgiEnvironment} {requestLine : Bytes} {record : RequestResponse}
    (hne : 0 < requestLine.length) : requestLine.length ≤ scoreOf env requestLine record ↔
      Eligible env requestLine (record.scheme = .https) (.ofProtobuf record.request) ∧
        requestLine <+: record.request.firstLine := by
  have hcommon := le_commonPrefix_iff 0 requestLine record.request.firstLine
  rw [Nat.zero_add] at hcommon
  have hline : (HTTPMessage.ofProtobuf record.request : HTTPRequest).firstLine
      = record.request.firstLine := rfl
  simp only [scoreOf, hline]
  split
  · next helig => simpa [helig] using hcommon
  · next helig => simp [helig, Nat.not_le.mpr hne]

/-! ## The loop over the files -/

/-- A file that the loop does not skip, and that holds the record. -/
def Holds (file : RecordFile) (record : RequestResponse) : Prop :=
  (find (ascii "save") file.name).isSome = true ∧ file.parsed = some record

/-- Where every score can be computed, the loop ends with the first of the best. -/
theorem bestMatch_leads {env : CgiEnvironment} {requestLine : Bytes}
    (hshort : requestLine.length < 2 ^ 32) :
    ∀ {files : List RecordFile} {records seen : List RequestResponse} {b : Nat}
      {best : RequestResponse}, List.Forall₂ Holds files records →
      Leads (scoreOf env requestLine) seen b best →
      ∃ b' best', bestMatch env requestLine files b best = .ok (b', best') ∧
        Leads (scoreOf env requestLine) (seen ++ records) b' best'
  | [], [], seen, b, best, .nil, h => ⟨b, best, rfl, by rw [List.append_nil]; exact h⟩
  | file :: files, record :: records, seen, b, best, .cons ⟨hname, hparsed⟩ hrest, h => by
      have hlt : scoreOf env requestLine record < 2 ^ 32 :=
        Nat.lt_of_le_of_lt (scoreOf_le env requestLine record) hshort
      have hscore : matchScore record requestLine env = .ok (scoreOf env requestLine record) := by
        rw [matchScore_eq, if_pos hlt]
      obtain ⟨b', best', hloop, h'⟩ := bestMatch_leads hshort hrest (h.next record)
      refine ⟨b', best', ?_, ?_⟩
      · rw [bestMatch, if_pos hname, hparsed]
        simp only [hscore, ok_bind]
        rw [← hloop]
        split <;> rfl
      · rwa [List.append_assoc] at h'

/-- Where the loop ends, it has computed every score. -/
theorem matchScore_of_bestMatch {env : CgiEnvironment} {requestLine : Bytes} :
    ∀ {files : List RecordFile} {records : List RequestResponse} {b : Nat} {best : RequestResponse}
      {r : Nat × RequestResponse}, List.Forall₂ Holds files records →
      bestMatch env requestLine files b best = .ok r →
      ∀ record ∈ records, scoreOf env requestLine record < 2 ^ 32
  | [], [], _, _, _, .nil, _ => fun _ hrecord => by cases hrecord
  | file :: files, record :: records, b, best, r, .cons ⟨hname, hparsed⟩ hrest, h => by
      rw [bestMatch, if_pos hname, hparsed] at h
      obtain ⟨score, hscore, h⟩ := bind_eq_ok.mp h
      have hlt : scoreOf env requestLine record < 2 ^ 32 := by
        by_contra hge
        rw [matchScore_eq, if_neg hge] at hscore
        cases hscore
      intro record' hrecord'
      rcases List.mem_cons.mp hrecord' with rfl | hrecord'
      · exact hlt
      · split at h <;> exact matchScore_of_bestMatch hrest h record' hrecord'

/-! ## What was recorded -/

/-- A response with its request, and the server that it came from. -/
structure Exchange where
  response : HTTPResponse
  server : Address

namespace Exchange

/-- The request line, the scheme, the host and the user agent are those asked for. -/
structure Answers (env : CgiEnvironment) (requestLine : Bytes) (x : Exchange) : Prop where
  line : x.response.request.firstLine = requestLine
  scheme : x.server.port = 443 ↔ env.https = true
  host : x.response.request.headerOf (ascii "Host") = env.httpHost
  userAgent : x.response.request.headerOf (ascii "User-Agent") = env.httpUserAgent

instance (env : CgiEnvironment) (requestLine : Bytes) (x : Exchange) :
    Decidable (x.Answers env requestLine) :=
  decidable_of_iff
    (x.response.request.firstLine = requestLine ∧ (x.server.port = 443 ↔ env.https = true) ∧
      x.response.request.headerOf (ascii "Host") = env.httpHost ∧
      x.response.request.headerOf (ascii "User-Agent") = env.httpUserAgent)
    ⟨fun h => ⟨h.1, h.2.1, h.2.2.1, h.2.2.2⟩, fun h => ⟨h.1, h.2, h.3, h.4⟩⟩

/-- The request line may go on after the one asked for. -/
def Continues (env : CgiEnvironment) (requestLine : Bytes) (x : Exchange) : Prop :=
  Eligible env requestLine (x.server.port = 443) x.response.request ∧
    requestLine <+: x.response.request.firstLine

instance (env : CgiEnvironment) (requestLine : Bytes) (x : Exchange) :
    Decidable (x.Continues env requestLine) :=
  inferInstanceAs (Decidable (_ ∧ _))

/-- The file is one that `save` has written for the exchange. -/
def SavedIn (file : RecordFile) (x : Exchange) : Prop :=
  ∃ record, save x.response x.server = .ok record ∧ Holds file record

theorem Answers.continues {env : CgiEnvironment} {requestLine : Bytes} {x : Exchange}
    (h : x.Answers env requestLine) : x.Continues env requestLine :=
  ⟨⟨h.scheme, h.host, h.userAgent, by rw [h.line]⟩, by rw [h.line]⟩

end Exchange

/-- What `save` records of an exchange. -/
structure Records (record : RequestResponse) (x : Exchange) : Prop where
  scheme : record.scheme = .https ↔ x.server.port = 443
  request : record.request = ⟨x.response.request.firstLine, x.response.request.headers,
    x.response.request.body⟩
  response : (HTTPMessage.ofProtobuf record.response : HTTPResponse).str = x.response.str
  printable : ∃ text, x.response.str = .ok text

theorem records_of_save {x : Exchange} {record : RequestResponse}
    (h : save x.response x.server = .ok record) : Records record x := by
  simp only [save, bind_eq_ok, pure_eq_ok, Except.ok.injEq] at h
  obtain ⟨request, hrequest, response, hresponse, rfl⟩ := h
  refine ⟨?_, (HTTPMessage.toProtobuf_eq_ok hrequest).2, HTTPMessage.str_ofProtobuf hresponse, ?_⟩
  · show (if x.server.port = 443 then Scheme.https else .http) = .https ↔ _
    split <;> simp [*]
  · simp [HTTPMessage.str, (HTTPMessage.toProtobuf_eq_ok hresponse).1]

/-- The records with the highest score are those whose line continues the one asked for. -/
theorem Records.le_scoreOf_iff {env : CgiEnvironment} {requestLine : Bytes}
    {record : RequestResponse} {x : Exchange} (h : Records record x)
    (hne : 0 < requestLine.length) :
    requestLine.length ≤ scoreOf env requestLine record ↔ x.Continues env requestLine := by
  have hiff : Eligible env requestLine (record.scheme = .https) (.ofProtobuf record.request) ↔
      Eligible env requestLine (x.server.port = 443) x.response.request := by
    rw [h.request]
    exact ⟨fun he => ⟨h.scheme.symm.trans he.scheme, he.host, he.userAgent, he.query⟩,
      fun he => ⟨h.scheme.trans he.scheme, he.host, he.userAgent, he.query⟩⟩
  rw [Mahimahi.le_scoreOf_iff hne, hiff, h.request]
  rfl

/-! ## What is replayed -/

theorem requestLine_pos {env : CgiEnvironment} {requestLine : Bytes}
    (h : env.requestLine = .ok requestLine) : 0 < requestLine.length := by
  obtain ⟨values, -, h⟩ := bind_eq_ok.mp h
  have hspace : (ascii " ").length = 1 := rfl
  rw [← Except.ok.inj h, List.length_append, List.length_append, List.length_append, hspace]
  omega

theorem exists_records {files : List RecordFile} {xs : List Exchange}
    (h : List.Forall₂ Exchange.SavedIn files xs) :
    ∃ records, List.Forall₂ Holds files records ∧ List.Forall₂ Records records xs := by
  induction h with
  | nil => exact ⟨[], .nil, .nil⟩
  | cons hsaved _ ih =>
      obtain ⟨record, hsave, hholds⟩ := hsaved
      obtain ⟨records, hfiles, hxs⟩ := ih
      exact ⟨record :: records, .cons hholds hfiles, .cons (records_of_save hsave) hxs⟩

theorem exists_record {x : Exchange} {records : List RequestResponse} {xs : List Exchange}
    (h : List.Forall₂ Records records xs) (hx : x ∈ xs) :
    ∃ record ∈ records, Records record x := by
  induction h with
  | nil => cases hx
  | @cons record _ _ _ hrecord _ ih =>
      rcases List.mem_cons.mp hx with rfl | hx
      · exact ⟨record, List.mem_cons_self, hrecord⟩
      · obtain ⟨record', hmem, hrecord'⟩ := ih hx
        exact ⟨record', List.mem_cons_of_mem _ hmem, hrecord'⟩

/-- The first exchange that continues the line is that of the first record
with the highest score. -/
theorem find_continues {env : CgiEnvironment} {requestLine : Bytes} (hne : 0 < requestLine.length)
    {records : List RequestResponse} {xs : List Exchange} {best : RequestResponse}
    (h : List.Forall₂ Records records xs)
    (hfind : records.find? (fun record =>
      decide (requestLine.length ≤ scoreOf env requestLine record)) = some best) :
    ∃ x, xs.find? (fun x => decide (x.Continues env requestLine)) = some x ∧ Records best x := by
  induction h with
  | nil => cases hfind
  | @cons record x _ _ hx _ ih =>
      rw [List.find?_cons] at hfind
      rw [List.find?_cons]
      by_cases hle : requestLine.length ≤ scoreOf env requestLine record
      · rw [decide_eq_true hle] at hfind
        rw [decide_eq_true ((hx.le_scoreOf_iff hne).mp hle)]
        obtain rfl := Option.some.inj hfind
        exact ⟨x, rfl, hx⟩
      · rw [decide_eq_false hle] at hfind
        rw [decide_eq_false (mt (hx.le_scoreOf_iff hne).mpr hle)]
        exact ih hfind

variable {env : CgiEnvironment} {requestLine : Bytes} {files : List RecordFile} {xs : List Exchange}

/-- With the line recorded, and not too long for the score, the first exchange
that continues the line is replayed. -/
theorem replay_eq (hline : env.requestLine = .ok requestLine)
    (hsaved : List.Forall₂ Exchange.SavedIn files xs)
    (hrecorded : ∃ x ∈ xs, x.Answers env requestLine) (hshort : requestLine.length < 2 ^ 32) :
    ∃ x, xs.find? (fun x => decide (x.Continues env requestLine)) = some x ∧
      replay env files = x.response.str := by
  have hne := requestLine_pos hline
  obtain ⟨records, hfiles, hxs⟩ := exists_records hsaved
  have hstart : Leads (scoreOf env requestLine) [] 0 .unset :=
    ⟨fun record hrecord => (by cases hrecord), fun h => absurd h (Nat.lt_irrefl 0)⟩
  obtain ⟨b, best, hloop, hleads⟩ := bestMatch_leads hshort hfiles hstart
  rw [List.nil_append] at hleads
  obtain ⟨x₀, hx₀, hanswers⟩ := hrecorded
  obtain ⟨record₀, hrecord₀, hof₀⟩ := exists_record hxs hx₀
  -- the recorded line has the highest score there is
  have hscore₀ := (hof₀.le_scoreOf_iff hne).mpr hanswers.continues
  have hb : b = requestLine.length := by
    have hle : requestLine.length ≤ b := Nat.le_trans hscore₀ (hleads.le record₀ hrecord₀)
    have hbest := List.find?_some (hleads.first (by omega))
    have hge := Nat.le_trans (of_decide_eq_true hbest) (scoreOf_le env requestLine best)
    omega
  obtain ⟨x, hfind, hof⟩ := find_continues hne hxs (hb ▸ hleads.first (by omega))
  refine ⟨x, hfind, ?_⟩
  simp only [replay, hline, ok_bind, hloop, if_pos (show 0 < b by omega)]
  exact hof.response

/-- What is recorded for the line is what is replayed. -/
def ReplaysRecorded (env : CgiEnvironment) (requestLine : Bytes) (files : List RecordFile)
    (xs : List Exchange) : Prop :=
  ∃ x ∈ xs, x.Answers env requestLine ∧ ∃ text, x.response.str = .ok text ∧
    replay env files = .ok text

/-- **Replaying a recorded line.** For every list of files that `save` has
written and every request for a line that was recorded with the same scheme,
host and user agent: a response recorded for that line is replayed exactly when
the score can be computed and the first exchange whose line continues the one
asked for has such a response. -/
theorem replays_recorded_iff (env : CgiEnvironment) (requestLine : Bytes) (files : List RecordFile)
    (xs : List Exchange) (hline : env.requestLine = .ok requestLine)
    (hsaved : List.Forall₂ Exchange.SavedIn files xs)
    (hrecorded : ∃ x ∈ xs, x.Answers env requestLine) :
    ReplaysRecorded env requestLine files xs ↔
      requestLine.length < 2 ^ 32 ∧
        ∀ x, xs.find? (fun x => decide (x.Continues env requestLine)) = some x →
          ∃ x' ∈ xs, x'.Answers env requestLine ∧ x'.response.str = x.response.str := by
  obtain ⟨records, hfiles, hxs⟩ := exists_records hsaved
  constructor
  · rintro ⟨x, hx, hanswers, text, htext, hreplay⟩
    have hshort : requestLine.length < 2 ^ 32 := by
      obtain ⟨record, hrecord, hof⟩ := exists_record hxs hx
      simp only [replay, hline, ok_bind] at hreplay
      obtain ⟨r, hloop, -⟩ := bind_eq_ok.mp hreplay
      exact Nat.lt_of_le_of_lt
        ((hof.le_scoreOf_iff (requestLine_pos hline)).mpr hanswers.continues)
        (matchScore_of_bestMatch hfiles hloop record hrecord)
    refine ⟨hshort, fun x' hfind => ⟨x, hx, hanswers, ?_⟩⟩
    obtain ⟨x'', hfind', hreplay'⟩ := replay_eq hline hsaved hrecorded hshort
    obtain rfl := Option.some.inj (hfind.symm.trans hfind')
    rw [htext, ← hreplay', hreplay]
  · rintro ⟨hshort, hfirst⟩
    obtain ⟨x, hfind, hreplay⟩ := replay_eq hline hsaved hrecorded hshort
    obtain ⟨x', hx', hanswers, hstr⟩ := hfirst x hfind
    obtain ⟨record, -, hof⟩ := exists_record hxs hx'
    obtain ⟨text, htext⟩ := hof.printable
    exact ⟨x', hx', hanswers, text, htext, by rw [hreplay, ← hstr, htext]⟩

/-- A complete response to a request for `line`. -/
def Exchange.plain (line body : String) : Exchange where
  response := {
    expectedBodySize := (true, body.length)
    firstLine := ascii "HTTP/1.1 200 OK"
    headers := []
    body := ascii body
    state := .complete
    derived := ⟨.bare (ascii line), none⟩ }
  server := ⟨ascii "10.0.0.1", 80⟩

/-- The file that `save` writes for it. -/
def RecordFile.ofExchange (x : Exchange) : RecordFile where
  name := ascii "recording/save.aBcDeF"
  parsed := (save x.response x.server).toOption

/-- A request for `GET /?a HTTP/1.1`. -/
def getQuery : CgiEnvironment where
  requestMethod := some (ascii "GET")
  requestUri := some (ascii "/?a")
  serverProtocol := some (ascii "HTTP/1.1")
  httpHost := none
  httpUserAgent := none
  https := false
  order := [.serverProtocol, .requestUri, .requestMethod]
  everyOperand := by rintro ⟨⟩ <;> decide

theorem savedIn_plain (line body : String) :
    Exchange.SavedIn (.ofExchange (.plain line body)) (.plain line body) :=
  ⟨_, rfl, rfl, rfl⟩

/-- Three exchanges of one host: another line, the one that is asked for, and one that
goes on after it. -/
def threeExchanges : List Exchange :=
  [.plain "GET /?b HTTP/1.1" "b", .plain "GET /?a HTTP/1.1" "a", .plain "GET /?a HTTP/1.10" "c"]

theorem replays_recorded_iff_threeExchanges :
    ReplaysRecorded getQuery (ascii "GET /?a HTTP/1.1") (threeExchanges.map .ofExchange)
      threeExchanges := by
  refine (replays_recorded_iff getQuery (ascii "GET /?a HTTP/1.1") _ threeExchanges rfl
    (.cons (savedIn_plain ..) (.cons (savedIn_plain ..) (.cons (savedIn_plain ..) .nil)))
    (by decide +kernel)).mpr ⟨by decide, fun x hx => ?_⟩
  -- the line itself comes before the one that continues it
  have hfirst : (threeExchanges.find? fun x =>
      decide (x.Continues getQuery (ascii "GET /?a HTTP/1.1")))
      = some (.plain "GET /?a HTTP/1.1" "a") := by rfl
  obtain rfl := Option.some.inj (hfirst.symm.trans hx)
  exact ⟨_, List.mem_of_find?_eq_some hx, by decide +kernel, rfl⟩

/-- A line that goes on after the one asked for comes first: its response is
replayed, though the line itself was recorded too. -/
theorem longer_line_is_replayed :
    let xs := [Exchange.plain "GET /?a HTTP/1.10" "b", .plain "GET /?a HTTP/1.1" "a"]
    getQuery.requestLine = .ok (ascii "GET /?a HTTP/1.1") ∧
      List.Forall₂ Exchange.SavedIn (xs.map .ofExchange) xs ∧
      (∃ x ∈ xs, x.Answers getQuery (ascii "GET /?a HTTP/1.1")) ∧
      ¬ ReplaysRecorded getQuery (ascii "GET /?a HTTP/1.1") (xs.map .ofExchange) xs := by
  refine ⟨rfl, .cons (savedIn_plain ..) (.cons (savedIn_plain ..) .nil), by decide +kernel, ?_⟩
  rintro ⟨x, hx, hanswers, text, htext, hreplay⟩
  have hbody : replay getQuery [.ofExchange (.plain "GET /?a HTTP/1.10" "b"),
      .ofExchange (.plain "GET /?a HTTP/1.1" "a")]
      = .ok (ascii "HTTP/1.1 200 OK\r\n\r\nb") := by decide +kernel
  obtain rfl := Except.ok.inj (hbody.symm.trans hreplay)
  revert htext hanswers
  revert x
  decide +kernel

end Mahimahi
