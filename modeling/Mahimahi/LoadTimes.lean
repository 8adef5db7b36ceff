import Mahimahi.ByteString
import Mahimahi.Run

/-!
# The load times of objects

Every proxied connection starts a timer when it forwards a request and stops it when
it forwards the response. The timers of all connections are in one map, under the URL
of the request, so a request takes over the timer of any other request for the same
URL. What is logged for a response is the time since the last request for its URL,
whoever made it (`TimerSystem.Consistent`); that is the time since its own request if
that was the last one, and otherwise only if the two are as many milliseconds ago
(`load_times_right_iff`).
-/

namespace Mahimahi

/-! ## The URL of a request -/

/-- `request.find( ' ', pos )`, converted to an `int`. -/
def findSpace (request : Bytes) (pos : Nat) : Int :=
  i32 (match find (ascii " ") (request.drop pos) with
    | some i => (pos + i : Nat)
    | none => (npos : Nat))

/-- Conversion of an `int` to `size_t`. -/
def sizeOfInt (z : Int) : Nat := (z % 2 ^ 64).toNat

/-- The method and the URL: what stands in front of the first space, and from there to
the second. -/
def methodAndUrl (request : Bytes) : Except Fault (Bytes × Bytes) := do
  let firstSpace := findSpace request 0
  let secondSpace := findSpace request (sizeOfInt (firstSpace + 1))
  let methodType ← substr request 0 (sizeOfInt firstSpace)
  let requestUrl ← substr request (sizeOfInt (firstSpace + 1)) (sizeOfInt (secondSpace - firstSpace - 1))
  return (methodType, requestUrl)

/-! ## The logger -/

/-- `TimeLogger`, without the round-trip times. Time points are nanoseconds since the
epoch, which is what `operator[]` makes of a URL without a timer. -/
structure TimeLogger (F : Type) where
  objectLoadStart : Bytes → Nat
  finals : List (Bytes × Bytes × F)

namespace TimeLogger

variable {F : Type}

def initial : TimeLogger F := ⟨fun _ => 0, []⟩

def startObjLoadTimer (request : Bytes) (now : Nat) (l : TimeLogger F) :
    Except Fault (TimeLogger F) := do
  let (_, requestUrl) ← methodAndUrl request
  return { l with
    objectLoadStart := fun url => if url = requestUrl then now else l.objectLoadStart url }

/-- `( now - start ) / milliseconds( 1 )`. -/
def wholeMs (now start : Nat) : Int := ((now : Int) - start).tdiv 1000000

/-- `stopObjLoadTimer`; `toFloat` converts the number of milliseconds to a `float`. -/
def stopObjLoadTimer (toFloat : Int → F) (request : Bytes) (now : Nat) (l : TimeLogger F) :
    Except Fault (TimeLogger F) := do
  let (methodType, requestUrl) ← methodAndUrl request
  let value := toFloat (wholeMs now (l.objectLoadStart requestUrl))
  return { l with finals := l.finals ++ [(methodType, requestUrl, value)] }

end TimeLogger

/-! ## Connections -/

/-- The logger and the connections that use it. What the connections did is recorded
along with it. -/
structure TimerSystem (Conn F : Type) where
  logger : TimeLogger F
  /-- The requests of each connection that wait for their response, and when they were
  forwarded. -/
  outstanding : Conn → List (Bytes × Nat)
  /-- Every request that was forwarded, and when, the last one first. -/
  forwarded : List (Bytes × Nat)
  /-- The load times that should be in `finals`. -/
  loadTimes : List F
  now : Nat

/-- A connection forwards a request, or the response to the first request that waits
for one. -/
inductive TimerEvent (Conn : Type) where
  | start (conn : Conn) (request : Bytes) (now : Nat)
  | stop (conn : Conn) (now : Nat)
  deriving DecidableEq, Repr

namespace TimerSystem

variable {Conn F : Type}

def initial : TimerSystem Conn F where
  logger := .initial
  outstanding := fun _ => []
  forwarded := []
  loadTimes := []
  now := 0

/-- Every entry has as its value the time since its own request. -/
def Right (s : TimerSystem Conn F) : Prop :=
  s.logger.finals.map (fun entry => entry.2.2) = s.loadTimes

instance [DecidableEq F] : DecidablePred (Right : TimerSystem Conn F → Prop) :=
  fun _ => inferInstanceAs (Decidable (_ = _))

/-- When the last request for the URL was forwarded, on whatever connection. -/
def lastForwarded (s : TimerSystem Conn F) (url : Bytes) : Option Nat :=
  (s.forwarded.find? fun r => ((methodAndUrl r.1).toOption.map Prod.snd) = some url).map Prod.snd

/-- When a response is forwarded, the last request for its URL was forwarded as many
milliseconds ago as its own request. -/
def OwnTimer (toFloat : Int → F) (s : TimerSystem Conn F) : TimerEvent Conn → Prop
  | .start _ _ _ => True
  | .stop conn now => ∀ request start rest method url last,
      s.outstanding conn = (request, start) :: rest → methodAndUrl request = .ok (method, url) →
      s.lastForwarded url = some last →
      toFloat (TimeLogger.wholeMs now last) = toFloat (TimeLogger.wholeMs now start)

/-- The map has the last start of every URL, and every request that waits was forwarded. -/
structure Consistent (s : TimerSystem Conn F) : Prop where
  timers : ∀ url, s.logger.objectLoadStart url = (s.lastForwarded url).getD 0
  outstanding : ∀ conn, ∀ r ∈ s.outstanding conn, r ∈ s.forwarded

theorem consistent_initial : Consistent (initial : TimerSystem Conn F) :=
  ⟨fun _ => rfl, fun _ _ hr => absurd hr List.not_mem_nil⟩

/-- The URL of a request that waits has been forwarded. -/
theorem Consistent.lastForwarded {conn : Conn} {request method url : Bytes} {start : Nat}
    {rest : List (Bytes × Nat)} {s : TimerSystem Conn F} (h : s.Consistent)
    (hout : s.outstanding conn = (request, start) :: rest)
    (hurl : methodAndUrl request = .ok (method, url)) :
    ∃ last, s.lastForwarded url = some last ∧ s.logger.objectLoadStart url = last := by
  have hmem : (request, start) ∈ s.forwarded := h.outstanding conn _ (hout ▸ List.mem_cons_self)
  have htimer := h.timers url
  cases hlast : s.lastForwarded url with
  | some last =>
      rw [hlast] at htimer
      exact ⟨last, rfl, htimer⟩
  | none =>
      rw [TimerSystem.lastForwarded, Option.map_eq_none_iff, List.find?_eq_none] at hlast
      exact absurd (by simp [hurl, Except.toOption]) (hlast _ hmem)

/-! ## Runs -/

section

variable [DecidableEq Conn]

/-- The clock does not go back. An exception is thrown before anything is changed and
ends the connection: what the others do then is a run without that event. -/
def step (toFloat : Int → F) (s : TimerSystem Conn F) :
    TimerEvent Conn → Option (TimerSystem Conn F)
  | .start conn request now =>
      if now < s.now then none
      else match s.logger.startObjLoadTimer request now with
        | .error _ => none
        | .ok logger => some {
            logger := logger
            outstanding := fun c =>
              if c = conn then s.outstanding conn ++ [(request, now)] else s.outstanding c
            forwarded := (request, now) :: s.forwarded
            loadTimes := s.loadTimes
            now := now }
  | .stop conn now =>
      if now < s.now then none
      else match s.outstanding conn with
        | [] => none
        | (request, start) :: rest =>
            match s.logger.stopObjLoadTimer toFloat request now with
            | .error _ => none
            | .ok logger => some {
                logger := logger
                outstanding := fun c => if c = conn then rest else s.outstanding c
                forwarded := s.forwarded
                loadTimes := s.loadTimes ++ [toFloat (TimeLogger.wholeMs now start)]
                now := now }

variable {toFloat : Int → F} {s s' : TimerSystem Conn F}

theorem step_cases {e : TimerEvent Conn} (h : step toFloat s e = some s') :
    (∃ conn request now method url, e = .start conn request now ∧
      methodAndUrl request = .ok (method, url) ∧
      s' = {
        logger := { s.logger with
          objectLoadStart := fun u => if u = url then now else s.logger.objectLoadStart u }
        outstanding := fun c =>
          if c = conn then s.outstanding conn ++ [(request, now)] else s.outstanding c
        forwarded := (request, now) :: s.forwarded
        loadTimes := s.loadTimes
        now := now }) ∨
    ∃ conn now request start rest method url, e = .stop conn now ∧
      s.outstanding conn = (request, start) :: rest ∧ methodAndUrl request = .ok (method, url) ∧
      s' = {
        logger := { s.logger with finals := s.logger.finals ++
          [(method, url, toFloat (TimeLogger.wholeMs now (s.logger.objectLoadStart url)))] }
        outstanding := fun c => if c = conn then rest else s.outstanding c
        forwarded := s.forwarded
        loadTimes := s.loadTimes ++ [toFloat (TimeLogger.wholeMs now start)]
        now := now } := by
  cases e with
  | start conn request now =>
      simp only [step] at h
      split at h
      · cases h
      cases hurl : methodAndUrl request with
      | error e => simp [TimeLogger.startObjLoadTimer, hurl] at h
      | ok r =>
          obtain ⟨method, url⟩ := r
          simp only [TimeLogger.startObjLoadTimer, hurl, ok_bind, pure_eq_ok] at h
          exact .inl ⟨conn, request, now, method, url, rfl, hurl, (Option.some.inj h).symm⟩
  | stop conn now =>
      simp only [step] at h
      split at h
      · cases h
      cases hout : s.outstanding conn with
      | nil => simp [hout] at h
      | cons r rest =>
          obtain ⟨request, start⟩ := r
          cases hurl : methodAndUrl request with
          | error e => simp [hout, TimeLogger.stopObjLoadTimer, hurl] at h
          | ok u =>
              obtain ⟨method, url⟩ := u
              simp only [hout, TimeLogger.stopObjLoadTimer, hurl, ok_bind, pure_eq_ok] at h
              exact .inr ⟨conn, now, request, start, rest, method, url, rfl, hout, hurl,
                (Option.some.inj h).symm⟩

theorem Consistent.step {e : TimerEvent Conn} (h : s.Consistent) (hstep : step toFloat s e = some s') :
    s'.Consistent := by
  rcases step_cases hstep with ⟨conn, request, now, method, url, -, hurl, rfl⟩ |
    ⟨conn, now, request, start, rest, method, url, -, hout, -, rfl⟩
  · refine ⟨fun u => ?_, fun c r hr => ?_⟩
    · have htimer := h.timers u
      rw [TimerSystem.lastForwarded] at htimer ⊢
      by_cases hu : u = url
      · simp [hurl, hu, Except.toOption]
      · have hne : ¬ url = u := fun h => hu h.symm
        simp [hurl, hu, hne, Except.toOption, htimer]
    · dsimp only at hr
      split at hr
      · rcases List.mem_append.mp hr with hr | hr
        · exact List.mem_cons_of_mem _ (h.outstanding conn r hr)
        · rw [List.mem_singleton.mp hr]
          exact List.mem_cons_self
      · exact List.mem_cons_of_mem _ (h.outstanding c r hr)
  · refine ⟨h.timers, fun c r hr => ?_⟩
    dsimp only at hr
    split at hr
    · exact h.outstanding conn r (hout ▸ List.mem_cons_of_mem _ hr)
    · exact h.outstanding c r hr

/-- An entry is right if and only if the timer is the request's own. -/
theorem Consistent.right_iff {e : TimerEvent Conn} (h : s.Consistent) (hright : s.Right)
    (hstep : TimerSystem.step toFloat s e = some s') : s'.Right ↔ s.OwnTimer toFloat e := by
  rcases step_cases hstep with ⟨conn, request, now, method, url, rfl, hurl, rfl⟩ |
    ⟨conn, now, request, start, rest, method, url, rfl, hout, hurl, rfl⟩
  · exact iff_of_true hright trivial
  · obtain ⟨last, hlast, htimer⟩ := h.lastForwarded hout hurl
    rw [Right] at hright ⊢
    rw [List.map_append, hright, List.map_singleton, List.append_cancel_left_eq,
      List.singleton_inj, htimer]
    constructor
    · intro hvalue request' start' rest' method' url' last' hout' hurl' hlast'
      obtain ⟨hr, -⟩ := List.cons.inj (hout.symm.trans hout')
      cases hr
      cases hurl.symm.trans hurl'
      cases hlast.symm.trans hlast'
      exact hvalue
    · intro hown
      exact hown request start rest method url last hout hurl hlast

/-- **The logged load times are right if and only if every response finds the timer of
its own request, or one that is as many milliseconds old.** -/
theorem load_times_right_iff (toFloat : Int → F) (events : List (TimerEvent Conn)) :
    Always (step toFloat) Right initial events ↔
      EachStep (step toFloat) (OwnTimer toFloat) initial events :=
  always_iff_eachStep (I := fun s : TimerSystem Conn F => s.Consistent ∧ s.Right) (fun _ h => h.2)
    (fun _ _ _ h hstep hown => ⟨h.1.step hstep, (h.1.right_iff h.2 hstep).mpr hown⟩)
    (fun _ _ _ h hstep hright => (h.1.right_iff h.2 hstep).mp hright)
    ⟨consistent_initial, rfl⟩

end

/-- Two connections ask for the same object, the second one 10 ms after the first, and
the response comes to the first 5 ms later: 5 is logged, for 15. -/
theorem second_request_takes_timer :
    ¬ Always (step (fun ms => ms)) Right (initial : TimerSystem Bool Int)
      [.start true (ascii "GET /a HTTP/1.1\r\n") 0, .start false (ascii "GET /a HTTP/1.1\r\n") 10000000,
        .stop true 15000000] := by
  decide +kernel

end TimerSystem

end Mahimahi
