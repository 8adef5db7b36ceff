import Mahimahi.HTTPPairing

/-!
# Bytes on their way to a parser

A parser between two calls, the bytes that its peer has sent and it has not
read yet, and the messages that it will have complete when it has read them
all (`Ahead`). A read takes any of these bytes off the way, a peer that sends
a message adds to them, and the messages stay what they are: it does not
matter when the complete ones are taken away (`Ahead.pop`), nor when a
request is announced (`Ahead.announce`).
-/

namespace Mahimahi

namespace HTTPMessageSequence

/-- The sequence with complete messages in front of its own. -/
def behind {X S : Type} (ms : List (HTTPMessage X)) (c : HTTPMessageSequence X S) :
    HTTPMessageSequence X S :=
  { c with completeMessages := ms ++ c.completeMessages }

section

variable {X S : Type} [HTTPMessageType X] [HTTPMessageParser X S]

theorem Fails.behind {c : HTTPMessageSequence X S} {e : Fault} (ms : List (HTTPMessage X))
    (h : Fails c e) : Fails (c.behind ms) e := by
  cases h with
  | firstLine hstate hline hinit => exact .firstLine hstate hline hinit
  | header hstate hline hne hheader => exact .header hstate hline hne hheader
  | blankLine hstate hline hcalc => exact .blankLine hstate hline hcalc
  | body hstate hread => exact .body (c := c.behind ms) hstate hread

variable [HTTPParserLaws X S]
variable {c c' d f : HTTPMessageSequence X S} {e : Fault} {x y : Bytes}
  {m : HTTPMessage X} {ms : List (HTTPMessage X)} {s s' : S}

/-! ## Where a parser rests between two messages -/

theorem parseAll_more (hs : c.Sound) (hsmall : SmallRun c) (h : c.parseAll = .ok d)
    (hd : d.messageInProgress.state = .firstLinePending) (hmore : SmallRun (d.feed y)) :
    SmallRun (c.feed y) ∧ AlikeOutcome (d.feed y).parseAll (c.feed y).parseAll := by
  refine Sound.induction (P := fun c => SmallRun c → c.parseAll = .ok d →
    SmallRun (c.feed y) ∧ AlikeOutcome (d.feed y).parseAll (c.feed y).parseAll) ?_ ?_ ?_ hs hsmall h
  · intro c c' hs hrest _ h
    rw [parseAll_of_rests hs hrest] at h
    cases h
    cases hrest with
    | line _ _ => exact ⟨hmore, parseAll_alike (hs.feed y) (hs.feed y) (.refl _)⟩
    | body hstate hgo => exact absurd hd (by simp [(hgo.due (hs.due hstate)).state])
  · intro c e hs hfail _ h
    rw [parseAll_of_fails hs hfail] at h
    cases h
  · intro c c' hs hgo ih hsmall h
    rw [parseAll_of_goes hs hgo] at h
    obtain ⟨hsmall', hout⟩ := ih (hsmall.goes hgo) h
    obtain ⟨c₁, hgo₁, halike⟩ := hgo.extend (y := y) hs hsmall
    have hs' := (hgo.sound hs).feed y
    have hs₁ := hgo₁.sound (hs.feed y)
    constructor
    · refine SmallRun.of_goes (hs.feed y) (hgo.smallReads hs hsmall) fun c₂ hgo₂ => ?_
      rw [← hgo₁.unique hgo₂]
      exact hsmall'.alike hs' hs₁ halike
    · rw [parseAll_of_goes (hs.feed y) hgo₁]
      exact hout.trans (parseAll_alike hs' hs₁ halike)

/-! ## Complete messages in front -/

theorem Goes.behind (ms : List (HTTPMessage X)) (h : Goes c c') :
    Goes (c.behind ms) (c'.behind ms) := by
  cases h with
  | firstLine hstate hline hinit => exact .firstLine hstate hline hinit
  | header hstate hline hne hheader => exact .header hstate hline hne hheader
  | blankLine hstate hline hcalc => exact .blankLine hstate hline hcalc
  | body hstate hends hread hforget => exact .body hstate hends hread hforget
  | complete hstate =>
      have := Goes.complete (c := c.behind ms) hstate
      simpa only [HTTPMessageSequence.behind, List.append_assoc] using this

theorem Rests.behind (ms : List (HTTPMessage X)) (h : Rests c c') :
    Rests (c.behind ms) (c'.behind ms) := by
  cases h with
  | line hstate hnone => exact .line hstate hnone
  | body hstate hgo => exact .body (c := c.behind ms) hstate hgo

theorem parseAll_of_behind (hs : c.Sound) (hms : ∀ m ∈ ms, m.Finished)
    (h : (c.behind ms).parseAll = .ok d) : ∃ d₀, c.parseAll = .ok d₀ ∧ d = d₀.behind ms := by
  have hbehind {c : HTTPMessageSequence X S} (hs : c.Sound) : (c.behind ms).Sound := by
    refine ⟨hs.inProgress, fun m hm => ?_⟩
    rcases List.mem_append.mp hm with hm | hm
    · exact hms m hm
    · exact hs.completed m hm
  refine Sound.induction (P := fun c => (c.behind ms).parseAll = .ok d →
    ∃ d₀, c.parseAll = .ok d₀ ∧ d = d₀.behind ms) ?_ ?_ ?_ hs h
  · intro c c' hs hrest h
    rw [parseAll_of_rests (hbehind hs) (hrest.behind ms)] at h
    cases h
    exact ⟨c', parseAll_of_rests hs hrest, rfl⟩
  · intro c e hs hfail h
    rw [parseAll_of_fails (hbehind hs) (hfail.behind ms)] at h
    cases h
  · intro c c' hs hgo ih h
    rw [parseAll_of_goes (hbehind hs) (hgo.behind ms)] at h
    rw [parseAll_of_goes hs hgo]
    exact ih h

theorem SmallRun.of_behind (hs : c.Sound) (h : SmallRun (c.behind ms)) : SmallRun c := by
  intro t ht
  have hagain (s s' : HTTPMessageSequence X S) (hs : s.Sound) (hturn : s.parseTurn = .ok (.inl s')) :
      (s.behind ms).parseTurn = .ok (.inl (s'.behind ms)) :=
    parseTurn_of_goes (((parseTurn_again hs).mp hturn).behind ms)
  induction ht with
  | refl => exact h.now
  | again hturn _ ih =>
      have hgo := (parseTurn_again hs).mp hturn
      exact ih (hgo.sound hs) (h.goes (hgo.behind ms))

/-! ## What is ahead -/

/-- With the bytes `y`, the parser comes to the complete messages `ms`, up to
what is left of body parsers, and has the members `s` then. -/
structure Ahead (c : HTTPMessageSequence X S) (y : Bytes) (ms : List (HTTPMessage X)) (s : S) :
    Prop where
  sound : c.Sound
  small : SmallRun (c.feed y)
  comes : ∃ d, (c.feed y).parseAll = .ok d ∧ d.buffer = [] ∧
    d.messageInProgress = HTTPMessage.initial ∧
    d.completeMessages.map HTTPMessage.erase = ms.map HTTPMessage.erase ∧ d.derived = s

theorem ahead_initial (s : S) : Ahead (initial s : HTTPMessageSequence X S) [] [] s := by
  have hs : (initial s : HTTPMessageSequence X S).Sound := sound_initial s
  have hrest : Rests (initial s : HTTPMessageSequence X S) (initial s) := rests_of_nil rfl rfl
  have hcomes := (Comes.refl hs).ends rfl rfl
  exact ⟨hs, hcomes.2, initial s, hcomes.1, rfl, rfl, rfl, rfl⟩

theorem Alike.initial (h : Alike c d) (hm : d.messageInProgress = HTTPMessage.initial) :
    c.messageInProgress = HTTPMessage.initial := by
  have hin := h.inProgress
  have hstate : d.messageInProgress.state ≠ .complete := by simp [hm, HTTPMessage.initial]
  rw [HTTPMessage.erase_of_ne hstate, HTTPMessage.erase_of_ne (h.state ▸ hstate)] at hin
  rw [← hin, hm]

theorem Ahead.parse (h : Ahead c (x ++ y) ms s) (hx : x ≠ []) :
    ∃ c', c.parse x = .ok c' ∧ Ahead c' y ms s ∧ c.completeMessages <+: c'.completeMessages := by
  obtain ⟨hs, hsmall, d, hd, hbuffer, hm, hms, hderived⟩ := h
  have hfeed : c.feed (x ++ y) = (c.feed x).feed y := by simp [HTTPMessageSequence.feed]
  rw [hfeed] at hsmall hd
  have hmeet := parseAll_feed (hs.feed x) hsmall
  have hord := parseAll_orderly (hs.feed x)
  have hkept := parseAll_completed (hs.feed x)
  rw [hd] at hmeet
  rw [parse_of_ne_nil hx]
  cases hc' : (c.feed x).parseAll with
  | error err =>
      rw [hc'] at hmeet
      exact hmeet.elim
  | ok c' =>
      rw [hc'] at hmeet hord
      obtain ⟨hsmall', hout⟩ := hmeet
      cases hd' : (c'.feed y).parseAll with
      | error err =>
          rw [hd'] at hout
          exact hout.elim
      | ok d' =>
          rw [hd'] at hout
          have halike : Alike d' d := hout
          exact ⟨c', rfl, ⟨hord.1, hsmall', d', hd', halike.buffer ▸ hbuffer, halike.initial hm,
            halike.complete ▸ hms, halike.derived ▸ hderived⟩, hkept c' hc'⟩

theorem Ahead.send {P : HTTPMessage X → Prop} (y : Bytes) (s' : S) (h : Ahead c x ms s)
    (hcomes : ∀ d : HTTPMessageSequence X S, d.Sound → d.messageInProgress = HTTPMessage.initial →
      d.derived = s → d.buffer = y → ∃ m, P m ∧ Comes d { d with
        buffer := []
        completeMessages := d.completeMessages ++ [m]
        messageInProgress := HTTPMessage.initial
        derived := s' }) :
    ∃ m, P m ∧ Ahead c (x ++ y) (ms ++ [m]) s' := by
  obtain ⟨hs, hsmall, d, hd, hbuffer, hm, hms, hderived⟩ := h
  have hord := parseAll_orderly (hs.feed x)
  rw [hd] at hord
  obtain ⟨m, hP, hcomes⟩ := hcomes (d.feed y) (hord.1.feed y) hm hderived
    (by simp [HTTPMessageSequence.feed, hbuffer])
  obtain ⟨hall, hmore⟩ := hcomes.ends rfl rfl
  have hstate : d.messageInProgress.state = .firstLinePending := by
    rw [hm]
    rfl
  have hfeed : c.feed (x ++ y) = (c.feed x).feed y := by simp [HTTPMessageSequence.feed]
  obtain ⟨hsmall', hout⟩ := parseAll_more (hs.feed x) hsmall hd hstate hmore
  rw [hall] at hout
  refine ⟨m, hP, hs, hfeed ▸ hsmall', ?_⟩
  rw [hfeed]
  cases hf : ((c.feed x).feed y).parseAll with
  | error err =>
      rw [hf] at hout
      exact hout.elim
  | ok f =>
      rw [hf] at hout
      have halike := Alike.symm hout
      refine ⟨f, rfl, halike.buffer.symm, halike.initial rfl, ?_, halike.derived.symm⟩
      rw [← halike.complete, List.map_append, List.map_append, ← hms]
      rfl

theorem Ahead.pop {ms' : List (HTTPMessage X)} (h : Ahead c y ms s)
    (hc : c.completeMessages = m :: ms') :
    ∃ m₀ ms₀, ms = m₀ :: ms₀ ∧ m.erase = m₀.erase ∧
      Ahead { c with completeMessages := ms' } y ms₀ s := by
  obtain ⟨hs, hsmall, d, hd, hbuffer, hm, hms, hderived⟩ := h
  have hs' : ({ c with completeMessages := ms' } : HTTPMessageSequence X S).Sound :=
    ⟨hs.inProgress, fun m' hm' => hs.completed m' (by rw [hc]; exact List.mem_cons_of_mem _ hm')⟩
  have hbehind : c.feed y
      = (({ c with completeMessages := ms' } : HTTPMessageSequence X S).feed y).behind [m] := by
    rw [HTTPMessageSequence.feed, hc]
    rfl
  have hfinished : ∀ m' ∈ [m], m'.Finished := fun m' hm' => by
    rw [List.mem_singleton.mp hm']
    exact hs.completed m (by rw [hc]; exact List.mem_cons_self)
  rw [hbehind] at hd hsmall
  obtain ⟨d₀, hd₀, rfl⟩ := parseAll_of_behind (hs'.feed y) hfinished hd
  cases ms with
  | nil => cases hms
  | cons m₀ ms₀ =>
      obtain ⟨hhead, htail⟩ := List.cons.inj hms
      exact ⟨m₀, ms₀, rfl, hhead, hs', hsmall.of_behind (hs'.feed y), d₀, hd₀, hbuffer, hm, htail,
        hderived⟩

end

end HTTPMessageSequence

namespace HTTPResponseParser

open HTTPMessageSequence

variable {c c' d : HTTPResponseParser} {y : Bytes}
  {ms : List HTTPResponse} {s : List HTTPRequest}

theorem Goes.announce (request : HTTPRequest) (h : Goes c c') :
    Goes (newRequestArrived request c) (newRequestArrived request c') := by
  cases h with
  | @firstLine m s line rest hstate hline hinit =>
      refine .firstLine (s := s ++ [request]) hstate hline ?_
      cases hderived : c.derived with
      | nil =>
          rw [hderived] at hinit
          cases hinit
      | cons first requests =>
          rw [hderived] at hinit
          obtain ⟨m', hset, hm⟩ := bind_eq_ok.mp hinit
          cases hm
          show initializeNewMessage c.messageInProgress (c.derived ++ [request]) = _
          rw [hderived, List.cons_append, initializeNewMessage, hset]
          rfl
  | header hstate hline hne hheader => exact .header hstate hline hne hheader
  | blankLine hstate hline hcalc => exact .blankLine hstate hline hcalc
  | body hstate hends hread hforget => exact .body hstate hends hread hforget
  | complete hstate => exact .complete hstate

theorem Rests.announce (request : HTTPRequest) (h : Rests c c') :
    Rests (newRequestArrived request c) (newRequestArrived request c') := by
  cases h with
  | line hstate hnone => exact .line hstate hnone
  | body hstate hgo => exact .body (c := newRequestArrived request c) hstate hgo

theorem sound_announce (request : HTTPRequest) (hs : c.Sound) :
    (newRequestArrived request c).Sound := ⟨hs.inProgress, hs.completed⟩

/-- A parser that gets along without the request leaves it where it is. -/
theorem parseAll_announce (request : HTTPRequest) (hs : c.Sound) (hsmall : SmallRun c)
    (h : c.parseAll = .ok d) :
    SmallRun (newRequestArrived request c) ∧
      HTTPMessageSequence.parseAll (newRequestArrived request c)
        = .ok (newRequestArrived request d) := by
  refine Sound.induction (P := fun c => SmallRun c → c.parseAll = .ok d →
    SmallRun (newRequestArrived request c) ∧
      HTTPMessageSequence.parseAll (newRequestArrived request c)
        = .ok (newRequestArrived request d)) ?_ ?_ ?_ hs hsmall h
  · intro c c' hs hrest hsmall h
    rw [parseAll_of_rests hs hrest] at h
    cases h
    have hs' := sound_announce request hs
    exact ⟨.of_rests hs' (Rests.announce request hrest) hsmall.now,
      parseAll_of_rests hs' (Rests.announce request hrest)⟩
  · intro c e hs hfail _ h
    rw [parseAll_of_fails hs hfail] at h
    cases h
  · intro c c' hs hgo ih hsmall h
    rw [parseAll_of_goes hs hgo] at h
    obtain ⟨hsmall', hparse⟩ := ih (hsmall.goes hgo) h
    have hs' := sound_announce request hs
    have hgo' := Goes.announce request hgo
    refine ⟨SmallRun.of_goes hs' hsmall.now fun c₁ hgo₁ => ?_, ?_⟩
    · rw [← hgo'.unique hgo₁]
      exact hsmall'
    · rw [parseAll_of_goes hs' hgo']
      exact hparse

theorem Ahead.announce (request : HTTPRequest) (h : Ahead c y ms s) :
    Ahead (newRequestArrived request c) y ms (s ++ [request]) := by
  obtain ⟨hs, hsmall, d, hd, hbuffer, hm, hms, rfl⟩ := h
  obtain ⟨hsmall', hparse⟩ := parseAll_announce request (hs.feed y) hsmall hd
  exact ⟨sound_announce request hs, hsmall', newRequestArrived request d, hparse, hbuffer, hm, hms,
    rfl⟩

end HTTPResponseParser

end Mahimahi
