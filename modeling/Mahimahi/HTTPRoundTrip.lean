import Mahimahi.HTTPCuts

/-!
# Parsing what has been serialized

The proxy forwards `str()` of a message, not the bytes that came. What comes
of a header that is written and parsed again is `HTTPHeader.reparsed`: a
value that is empty or consists of spaces gains a space, and every other
header survives. So a message comes back as it was just when none of its
values is blank.

What a parser extracts has a history: a head out of lines that hold no line
ending, opened by `calculate_expected_body_size`, and a body that the opened
message takes when it gets it at once (`Whole`). A parser that gets `str()`
runs through that history again.
-/

namespace Mahimahi

/-! ## Headers -/

namespace HTTPHeader

/-- The value is empty, or spaces only. -/
def Blank (h : HTTPHeader) : Prop := ∀ c ∈ h.value, c = 32

instance (h : HTTPHeader) : Decidable h.Blank := inferInstanceAs (Decidable (∀ c ∈ h.value, c = 32))

/-- What the constructor makes of a line. -/
structure Parsed (h : HTTPHeader) : Prop where
  key : NoCrlf h.key
  noColon : 58 ∉ h.key
  value : NoCrlf h.value
  start : h.Blank ∨ ∃ c t, h.value = c :: t ∧ c ≠ 32

/-- The header that is found in `str()`. -/
def reparsed (h : HTTPHeader) : HTTPHeader :=
  if h.Blank then { h with value := 32 :: h.value } else h

variable {h : HTTPHeader} {line : Bytes}

theorem blank_of_find (hnone : findFirstNotOf (ascii " ") h.value = none) : h.Blank := by
  intro c hc
  have := findFirstNotOf_eq_none (c := 32).mp hnone
  rw [this] at hc
  exact List.eq_of_mem_replicate hc

theorem parsed_of_ofLine (hline : NoCrlf line) (hh : ofLine line = .ok h) : h.Parsed := by
  rw [ofLine] at hh
  split at hh
  · cases hh
  · next i hfind =>
      have hdrop : NoCrlf (line.drop (i + 1)) := by
        rw [← List.take_append_drop (i + 1) line] at hline
        exact hline.right
      have hkey : NoCrlf (line.take i) := by
        rw [← List.take_append_drop i line] at hline
        exact hline.left
      have hcolon : 58 ∉ line.take i := not_mem_take_of_find hfind
      dsimp only at hh
      split at hh
      · next hnone =>
          cases hh
          exact ⟨hkey, hcolon, hdrop, .inl (blank_of_find hnone)⟩
      · next k hk =>
          cases hh
          obtain ⟨c, t, hc, hrest⟩ := (findFirstNotOf_eq_some (c := 32)).mp hk
          have hvalue : (line.drop (i + 1)).drop k = c :: t := by
            rw [hrest, List.drop_left' (by simp)]
          refine ⟨hkey, hcolon, ?_, .inr ⟨c, t, hvalue, hc⟩⟩
          rw [hrest] at hdrop
          show NoCrlf ((line.drop (i + 1)).drop k)
          rw [hvalue]
          exact hdrop.right

theorem str_eq (h : HTTPHeader) : h.str = h.key ++ 58 :: 32 :: h.value := by
  show h.key ++ [58, 32] ++ h.value = _
  simp

theorem Parsed.noCrlf_str (hp : h.Parsed) : NoCrlf h.str := by
  have hspace : NoCrlf (32 :: h.value) := by
    refine NoCrlf.append (s := [32]) (List.isChain_singleton _) hp.value ?_
    simp
  have hcolon : NoCrlf (58 :: 32 :: h.value) := by
    refine NoCrlf.append (s := [58]) (List.isChain_singleton _) hspace ?_
    simp
  rw [str_eq]
  exact hp.key.append hcolon (by simp)

theorem str_ne_nil (h : HTTPHeader) : h.str ≠ [] := by
  rw [str_eq]
  simp

theorem ofLine_str (hp : h.Parsed) : ofLine h.str = .ok h.reparsed := by
  have hfind : find (ascii ":") (h.key ++ 58 :: 32 :: h.value) = some h.key.length :=
    find_byte_eq_some hp.noColon
  have hdrop : (h.key ++ 58 :: 32 :: h.value).drop (h.key.length + 1) = 32 :: h.value := by
    rw [List.drop_append]
    simp
  rw [str_eq, ofLine, hfind]
  dsimp only
  rw [hdrop, List.take_left, reparsed]
  by_cases hblank : h.Blank
  · have hnone : findFirstNotOf (ascii " ") (32 :: h.value) = none := by
      refine findFirstNotOf_eq_none (c := 32).mpr (List.eq_replicate_iff.mpr ⟨rfl, ?_⟩)
      intro c hc
      rcases List.mem_cons.mp hc with rfl | hc
      · rfl
      · exact hblank c hc
    rw [hnone, if_pos hblank]
  · obtain hb | ⟨c, t, hvalue, hc⟩ := hp.start
    · exact absurd hb hblank
    · have hsome : findFirstNotOf (ascii " ") (32 :: h.value) = some 1 :=
        (findFirstNotOf_eq_some (c := 32)).mpr ⟨c, t, hc, by rw [hvalue]; rfl⟩
      rw [hsome, if_neg hblank]
      rfl

theorem reparsed_eq_self : h.reparsed = h ↔ ¬ h.Blank := by
  unfold reparsed
  split
  · next hblank =>
      refine ⟨fun heq => ?_, fun hn => absurd hblank hn⟩
      have := congrArg (fun h => h.value.length) heq
      simp at this
  · next hblank => simp [hblank]

end HTTPHeader

/-! ## Serializing and parsing again -/

theorem HTTPMessage.str_eq_ok {X : Type} {m : HTTPMessage X} {s : Bytes} :
    m.str = .ok s ↔ m.state = .complete ∧
      s = m.firstLine ++ crlf ++ m.headers.flatMap (fun h => h.str ++ crlf) ++ crlf ++ m.body := by
  rw [HTTPMessage.str, bind_eq_ok]
  simp only [assertThat_eq_ok, beq_iff_eq, pure_eq_ok, Except.ok.injEq, exists_const,
    @eq_comm _ _ s]

/-- No header value is empty or consists of spaces. -/
def HTTPMessage.NoBlankValues {X : Type} (m : HTTPMessage X) : Prop := ∀ h ∈ m.headers, ¬ h.Blank

instance {X : Type} (m : HTTPMessage X) : Decidable m.NoBlankValues :=
  inferInstanceAs (Decidable (∀ h ∈ m.headers, ¬ h.Blank))

theorem HTTPMessage.str_ne_nil {X : Type} {m : HTTPMessage X} {s : Bytes} (hstr : m.str = .ok s) :
    s ≠ [] := by
  obtain ⟨-, rfl⟩ := HTTPMessage.str_eq_ok.mp hstr
  simp [crlf, ascii]

namespace HTTPMessageSequence

variable {X S : Type} [HTTPMessageType X] [HTTPMessageParser X S] {m : HTTPMessage X} {s : Bytes}

/-- The messages that an outcome leaves complete. -/
def extracted : Except (ParseFault X) (HTTPMessageSequence X S) → List (HTTPMessage X)
  | .ok c => c.completeMessages
  | .error (_, ms) => ms

/-- Parsing what `str()` gives yields the message again, and nothing else. A
body that was delimited by an EOF is followed by one. -/
def RoundTrips (derived : S) (byEof : Bool) (m : HTTPMessage X) : Prop :=
  ∃ s, m.str = .ok s ∧ ∃ c : HTTPMessageSequence X S,
    parseCalls (if byEof then [s, []] else [s]) (initial derived) = .ok c ∧
      c.completeMessages.map view = [view m]

/-- The test for it. -/
def comesBack (derived : S) (byEof : Bool) (m : HTTPMessage X) : Bool :=
  match m.str with
  | .error _ => false
  | .ok s =>
      match parseCalls (if byEof then [s, []] else [s])
          (initial derived : HTTPMessageSequence X S) with
      | .error _ => false
      | .ok c => decide (c.completeMessages.map view = [view m])

theorem comesBack_iff (derived : S) (byEof : Bool) (m : HTTPMessage X) :
    comesBack derived byEof m = true ↔ RoundTrips derived byEof m := by
  unfold comesBack RoundTrips
  cases m.str with
  | error e => simp
  | ok s =>
      dsimp only
      cases hc : parseCalls (if byEof then [s, []] else [s])
        (initial derived : HTTPMessageSequence X S) <;> simp [hc]

instance (derived : S) (byEof : Bool) (m : HTTPMessage X) :
    Decidable (RoundTrips derived byEof m) :=
  decidable_of_iff _ (comesBack_iff derived byEof m)

theorem parseCalls_str (derived : S) (byEof : Bool) (hstr : m.str = .ok s) :
    parseCalls (if byEof then [s, []] else [s]) (initial derived : HTTPMessageSequence X S)
      = ((initial derived : HTTPMessageSequence X S).feed s).parseAll >>=
        fun c => if byEof then c.parse [] else .ok c := by
  have hne := HTTPMessage.str_ne_nil hstr
  cases byEof with
  | false =>
      simp only [parseCalls, parse_of_ne_nil hne, Bool.false_eq_true, if_false]
  | true =>
      simp only [parseCalls, parse_of_ne_nil hne, if_true]
      cases ((initial derived : HTTPMessageSequence X S).feed s).parseAll with
      | error err => rfl
      | ok c₁ =>
          simp only [ok_bind]
          cases c₁.parse [] <;> rfl

end HTTPMessageSequence

/-! ## The history of a message -/

/-- What a subclass has to say about starting over with the same message. -/
class HTTPReparseLaws (X : Type) (S : outParam Type) [HTTPMessageType X] [HTTPMessageParser X S]
    extends HTTPParserLaws X S where
  /-- The members of a fresh parser that is to expect the message. -/
  expecting : X → S
  expecting_forget {d d' : X} : forget d = forget d' → expecting d = expecting d'
  initialize_expecting {s s' : S} {m : HTTPMessage X} :
    HTTPMessageParser.initializeNewMessage HTTPMessage.initial s = .ok (m, s') →
      ∃ s'', HTTPMessageParser.initializeNewMessage HTTPMessage.initial (expecting m.derived)
        = .ok (m, s'')

instance : HTTPReparseLaws RequestPart Unit where
  expecting _ := ()
  expecting_forget _ := rfl
  initialize_expecting h := ⟨_, h⟩

instance : HTTPReparseLaws ResponsePart (List HTTPRequest) where
  expecting d := [d.request]
  expecting_forget {d d'} h := by
    have := congrArg ResponsePart.request h
    simp only [HTTPBodyView.forget, HTTPResponse.forgetParser] at this
    rw [this]
  initialize_expecting {s s' m} h := by
    cases s with
    | nil => cases h
    | cons request s =>
        cases h
        exact ⟨[], rfl⟩

section

variable {X S : Type} [HTTPMessageType X] [HTTPMessageParser X S]

/-- A message whose headers have come, out of lines. -/
structure HTTPMessage.IsHead (m : HTTPMessage X) : Prop where
  opened : ∃ s s' m', HTTPMessageParser.initializeNewMessage (HTTPMessage.initial : HTTPMessage X) s
    = .ok (m', s') ∧ m.derived = m'.derived
  rest : m = { (HTTPMessage.initial : HTTPMessage X) with
    firstLine := m.firstLine
    headers := m.headers
    state := .headersPending
    derived := m.derived }
  line : NoCrlf m.firstLine
  headers : ∀ h ∈ m.headers, h.Parsed

theorem HTTPMessage.IsHead.body {head : HTTPMessage X} (h : head.IsHead) : head.body = [] := by
  rw [h.rest]
  rfl

theorem HTTPMessage.IsHead.state {head : HTTPMessage X} (h : head.IsHead) :
    head.state = .headersPending := by
  rw [h.rest]

variable [HTTPReparseLaws X S]

/-- The message `m` has the head `head`, and is opened by it as `m₀`. -/
structure HTTPMessage.Opens (head m₀ m : HTTPMessage X) : Prop where
  isHead : head.IsHead
  calculate : HTTPMessageType.calculateExpectedBodySize { head with state := .bodyPending } = .ok m₀
  firstLine : m.firstLine = head.firstLine
  headers : m.headers = head.headers
  forget : HTTPBodyView.forget m.derived = HTTPBodyView.forget head.derived

/-- Opened, and some body read. What depends on the chunk sizes is said under
the condition `small`. -/
def HTTPMessage.Partly (small : Prop) (m : HTTPMessage X) : Prop :=
  ∃ head m₀, Opens head m₀ m ∧
    (small → GoesOn (m₀.readInBody m.body) m.body m₀ m ∧ m₀.SmallReads m.body)

/-- Opened, and all of the body read: to where the body ends by itself, or to
an EOF. -/
def HTTPMessage.Whole (small : Prop) (byEof : Bool) (m : HTTPMessage X) : Prop :=
  ∃ head m₀, Opens head m₀ m ∧ (small →
    if byEof then ∃ m₁, GoesOn (m₀.readInBody m.body) m.body m₀ m₁ ∧
      HTTPMessageType.eofInBody m₁ = .ok true
    else Ends (m₀.readInBody m.body) m.body m₀ m.body.length)

namespace HTTPMessage

variable {head m₀ m m₁ : HTTPMessage X} {small : Prop} {x : Bytes} {n : Nat}

theorem IsHead.plain (h : head.IsHead) : HTTPBodyView.Plain head.derived := by
  obtain ⟨s, s', m', hinit, hd⟩ := h.opened
  rw [hd]
  exact (HTTPParserLaws.initialize_ok hinit).2 HTTPBodyLaws.plain_initial

theorem Opens.due (h : Opens head m₀ m) : m₀.Due :=
  HTTPMessageSequence.due_of_calculate h.isHead.body h.isHead.plain h.calculate

theorem Opens.message (h : Opens head m₀ m) :
    m₀ = { head with
      state := .bodyPending
      expectedBodySize := m₀.expectedBodySize
      derived := m₀.derived } :=
  (HTTPBodyLaws.calculate_ok h.calculate).1

theorem IsHead.opens (h : head.IsHead)
    (hcalc : HTTPMessageType.calculateExpectedBodySize { head with state := .bodyPending } = .ok m₀) :
    Opens head m₀ m₀ := by
  obtain ⟨hm, hforget, -, -⟩ := HTTPBodyLaws.calculate_ok hcalc
  refine ⟨h, hcalc, ?_, ?_, hforget⟩ <;> rw [hm]

theorem Opens.of_eq (h : Opens head m₀ m) (hline : m₁.firstLine = m.firstLine)
    (hheaders : m₁.headers = m.headers)
    (hforget : HTTPBodyView.forget m₁.derived = HTTPBodyView.forget m.derived) : Opens head m₀ m₁ :=
  ⟨h.isHead, h.calculate, hline.trans h.firstLine, hheaders.trans h.headers, hforget.trans h.forget⟩

theorem Opens.goesOn (h : Opens head m₀ m) (hgo : GoesOn (m.readInBody x) x m m₁) :
    Opens head m₀ m₁ := by
  refine h.of_eq ?_ ?_ hgo.forget <;> rw [hgo.rest]

theorem Partly.goesOn (h : m.Partly small) (hsmall : small → m.SmallReads x)
    (hgo : GoesOn (m.readInBody x) x m m₁) : m₁.Partly small := by
  obtain ⟨head, m₀, hopens, hread⟩ := h
  refine ⟨head, m₀, hopens.goesOn hgo, fun hs => ?_⟩
  have hbody : m₁.body = m.body ++ x := by rw [hgo.rest]
  obtain ⟨hm, hsm⟩ := hread hs
  have hboth := hsm.append hopens.due hm (hsmall hs)
  rw [hbody]
  exact ⟨(hm.append hopens.due hboth).2.2.1 m₁ hgo, hboth⟩

theorem Partly.ends (h : m.Partly small) (hdue : m.Due) (hsmall : small → m.SmallReads x)
    (hends : Ends (m.readInBody x) x m n) {d : X}
    (hforget : HTTPBodyView.forget d = HTTPBodyView.forget m.derived) :
    Whole small false
      { m with body := m.body ++ x.take n, state := .complete, derived := d } := by
  obtain ⟨head, m₀, hopens, hread⟩ := h
  refine ⟨head, m₀, hopens.of_eq rfl rfl hforget, fun hs => ?_⟩
  obtain ⟨hm, hsm⟩ := hread hs
  have htake := hends.take hdue (hsmall hs)
  have hsmallTake : m.SmallReads (x.take n) := by
    have := hsmall hs
    rw [← List.take_append_drop n x] at this
    exact this.left
  have := (hm.append hopens.due (hsm.append hopens.due hm hsmallTake)).2.2.2 n htake
  simpa [Nat.min_eq_left hends.le] using this

theorem Opens.partly (h : Opens head m m) (hbody : m.body = []) (hsmall : small → m.SmallReads x)
    (hgo : GoesOn (m.readInBody x) x m m₁) : m₁.Partly small := by
  refine ⟨head, m, h.goesOn hgo, fun hs => ?_⟩
  have hx : m₁.body = x := by
    rw [hgo.rest, hbody]
    rfl
  rw [hx]
  exact ⟨hgo, hsmall hs⟩

theorem Opens.whole (h : Opens head m m) (hbody : m.body = []) (hsmall : small → m.SmallReads x)
    (hends : Ends (m.readInBody x) x m n) {d : X}
    (hforget : HTTPBodyView.forget d = HTTPBodyView.forget m.derived) :
    Whole small false
      { m with body := m.body ++ x.take n, state := .complete, derived := d } := by
  refine ⟨head, m, h.of_eq rfl rfl hforget, fun hs => ?_⟩
  simpa [hbody, Nat.min_eq_left hends.le] using hends.take h.due (hsmall hs)

end HTTPMessage

/-! ## What a parser extracts -/

namespace HTTPMessageSequence

variable {c c' : HTTPMessageSequence X S} {small : Prop} {k : Nat} {buf : Bytes}

theorem noCrlf_of_isLine {buffer line rest : Bytes} (h : IsLine buffer line rest) : NoCrlf line := by
  have := h.found
  rw [h.bytes] at this
  exact (find_crlf_eq_length _ _).mp this

/-- The history of a sequence in the middle of a call, where `k` messages
were complete at its start. -/
structure Tracked (small : Prop) (k : Nat) (c : HTTPMessageSequence X S) : Prop where
  headers : c.messageInProgress.state = .headersPending → c.messageInProgress.IsHead
  body : c.messageInProgress.state = .bodyPending → c.messageInProgress.Partly small ∨
    (∃ head, HTTPMessage.Opens head c.messageInProgress c.messageInProgress) ∧
      c.messageInProgress.body = []
  complete : c.messageInProgress.state = .complete → c.messageInProgress.Whole small false
  completed : ∀ m ∈ c.completeMessages.drop k, m.Whole small false
  before : k ≤ c.completeMessages.length

/-- The history between two calls. -/
structure Paused (small : Prop) (c : HTTPMessageSequence X S) : Prop where
  sound : c.Sound
  headers : c.messageInProgress.state = .headersPending → c.messageInProgress.IsHead
  body : c.messageInProgress.state = .bodyPending → c.messageInProgress.Partly small
  notComplete : c.messageInProgress.state ≠ .complete
  noLine : c.messageInProgress.state ≠ .bodyPending → find crlf c.buffer = none
  noBytes : c.messageInProgress.state = .bodyPending → c.buffer = []

theorem paused_initial (derived : S) :
    (initial derived : HTTPMessageSequence X S).Paused small where
  sound := sound_initial derived
  headers h := by cases h
  body h := by cases h
  notComplete := initial_state_ne
  noLine _ := rfl
  noBytes h := by cases h

theorem Paused.feed (h : c.Paused small) (buf : Bytes) :
    (c.feed buf).Tracked small c.completeMessages.length where
  headers := h.headers
  body hstate := .inl (h.body hstate)
  complete hstate := absurd hstate h.notComplete
  completed := by simp [HTTPMessageSequence.feed]
  before := Nat.le_refl _

theorem Goes.tracked (hs : c.Sound) (hsmall : small → SmallRun c) (h : c.Tracked small k)
    (hgo : Goes c c') : c'.Tracked small k := by
  cases hgo with
  | @firstLine m s line rest hstate hline hinit =>
      have hin := hs.inProgress
      rw [HTTPMessage.InOrder, hstate] at hin
      replace hin : c.messageInProgress = HTTPMessage.initial := hin
      rw [hin] at hinit
      have hm := (HTTPParserLaws.initialize_ok hinit).1
      refine ⟨fun _ => ⟨⟨_, _, m, hinit, rfl⟩, ?_, noCrlf_of_isLine hline, ?_⟩, ?_, ?_,
        h.completed, h.before⟩
      · rw [hm]
      · rw [hm]
        exact fun h hh => absurd hh List.not_mem_nil
      · intro h
        cases h
      · intro h
        cases h
  | @header line rest hdr hstate hline _ hheader =>
      have hhead := h.headers hstate
      refine ⟨fun _ => ⟨hhead.opened, ?_, hhead.line, ?_⟩, ?_, ?_, h.completed, h.before⟩
      · dsimp only
        rw [hhead.rest]
      · intro hd hmem
        rcases List.mem_append.mp hmem with hmem | hmem
        · exact hhead.headers hd hmem
        · rw [List.mem_singleton.mp hmem]
          exact HTTPHeader.parsed_of_ofLine (noCrlf_of_isLine hline) hheader
      · intro hb
        cases hstate.symm.trans hb
      · intro hb
        cases hstate.symm.trans hb
  | @blankLine m rest hstate hline hcalc =>
      have hhead := h.headers hstate
      have hopens := hhead.opens hcalc
      have hdue := hopens.due
      refine ⟨?_, fun _ => .inr ⟨⟨_, hopens⟩, ?_⟩, ?_, h.completed, h.before⟩
      · intro hb
        cases hdue.state.symm.trans hb
      · show m.body = []
        rw [hopens.message]
        exact hhead.body
      · intro hb
        cases hdue.state.symm.trans hb
  | @body n d hstate hends hread hforget =>
      refine ⟨?_, ?_, fun _ => ?_, h.completed, h.before⟩
      · intro hb
        cases hb
      · intro hb
        cases hb
      · rcases h.body hstate with hpartly | ⟨⟨head, hopens⟩, hbody⟩
        · exact hpartly.ends (hs.due hstate) (fun h => (hsmall h).now hstate) hends hforget
        · exact hopens.whole hbody (fun h => (hsmall h).now hstate) hends hforget
  | complete hstate =>
      refine ⟨?_, ?_, ?_, ?_, ?_⟩
      · intro hb
        cases hb
      · intro hb
        cases hb
      · intro hb
        cases hb
      · intro m hm
        rw [List.drop_append_of_le_length h.before] at hm
        rcases List.mem_append.mp hm with hm | hm
        · exact h.completed m hm
        · rw [List.mem_singleton.mp hm]
          exact h.complete hstate
      · have := h.before
        simp only [List.length_append]
        omega

theorem Rests.paused (hs : c.Sound) (hsmall : small → SmallRun c) (h : c.Tracked small k)
    (hrest : Rests c c') :
    c'.Paused small ∧ ∀ m ∈ c'.completeMessages.drop k, m.Whole small false := by
  have hs' := hrest.sound hs
  cases hrest with
  | line hstate hnone =>
      refine ⟨⟨hs'.1, h.headers, fun hb => ?_, hs'.2, fun _ => hnone, fun hb => ?_⟩, h.completed⟩
      · rcases hstate with hstate | hstate <;> cases hstate.symm.trans hb
      · rcases hstate with hstate | hstate <;> cases hstate.symm.trans hb
  | @body m hstate hgo =>
      have hstate' : m.state = .bodyPending := (hgo.due (hs.due hstate)).state
      refine ⟨⟨hs'.1, fun hb => ?_, fun _ => ?_, hs'.2, fun hb => absurd hstate' hb, fun _ => rfl⟩,
        h.completed⟩
      · cases hstate'.symm.trans hb
      · rcases h.body hstate with hpartly | ⟨⟨head, hopens⟩, hbody⟩
        · exact hpartly.goesOn (fun h => (hsmall h).now hstate) hgo
        · exact hopens.partly hbody (fun h => (hsmall h).now hstate) hgo

/-- What a call makes of the history: it is paused again, where it does not
throw, and the messages it has completed are whole. -/
def Leaves (small : Prop) (byEof : Bool) (k : Nat)
    (o : Except (ParseFault X) (HTTPMessageSequence X S)) : Prop :=
  (∀ c, o = .ok c → c.Paused small) ∧ ∀ m ∈ (extracted o).drop k, m.Whole small byEof

theorem parseAll_leaves (hs : c.Sound) (hsmall : small → SmallRun c) (h : c.Tracked small k) :
    Leaves small false k c.parseAll := by
  refine Sound.induction (P := fun c => (small → SmallRun c) → c.Tracked small k →
    Leaves small false k c.parseAll) ?_ ?_ ?_ hs hsmall h
  · intro c c' hs hrest hsmall h
    obtain ⟨hpaused, hwhole⟩ := hrest.paused hs hsmall h
    rw [parseAll_of_rests hs hrest]
    refine ⟨fun c₁ hc₁ => ?_, hwhole⟩
    cases hc₁
    exact hpaused
  · intro c e hs hfail _ h
    rw [parseAll_of_fails hs hfail]
    exact ⟨fun c₁ hc₁ => absurd hc₁ (by simp), h.completed⟩
  · intro c c' hs hgo ih hsmall h
    rw [parseAll_of_goes hs hgo]
    exact ih (fun h => (hsmall h).goes hgo) (hgo.tracked hs hsmall h)

/-- A sequence that has been given its EOF. -/
theorem parseAll_endMessage (h : c.Sound) (hu : c.messageInProgress.expectedBodySize.1 = false)
    (hbuffer : c.buffer = []) :
    (c.endMessage.feed []).parseAll = .ok { c with
      completeMessages := c.completeMessages ++
        [{ c.messageInProgress with state := .complete }]
      messageInProgress := HTTPMessage.initial } := by
  have hs := (h.endMessage hu).feed []
  have hgo : Goes (c.endMessage.feed []) _ := .complete rfl
  rw [parseAll_of_goes hs hgo]
  refine (parseAll_of_rests (hgo.sound hs) (.line (.inl rfl) ?_)).trans ?_
  · simp only [HTTPMessageSequence.feed, endMessage, hbuffer]
    rfl
  · simp [HTTPMessageSequence.feed, endMessage]

theorem parse_leaves (h : c.Paused small) (hsmall : small → buf ≠ [] → SmallRun (c.feed buf)) :
    Leaves small buf.isEmpty c.completeMessages.length (c.parse buf) := by
  cases buf with
  | cons b bs =>
      rw [parse_of_ne_nil (by simp)]
      exact parseAll_leaves (h.sound.feed _) (fun hs => hsmall hs (by simp)) (h.feed _)
  | nil =>
      have hdrop : ∀ m ∈ c.completeMessages.drop c.completeMessages.length,
          m.Whole small true := by simp
      have hparse : c.parse [] = c.receiveEof >>= fun c => (c.feed []).parseAll := rfl
      rw [hparse]
      rcases receiveEof_cases h.sound h.notComplete with ⟨e, he, -⟩ | ⟨hstate, he⟩ |
        ⟨hstate, hu, heof, he⟩
      · rw [he]
        exact ⟨fun c₁ hc₁ => absurd hc₁ (by simp), hdrop⟩
      · have hnone := h.noLine (by simp [hstate])
        have hfeed : c.feed [] = c := by simp [HTTPMessageSequence.feed]
        rw [he, ok_bind, hfeed, parseAll_of_rests h.sound (.line (.inl hstate) hnone)]
        refine ⟨fun c₁ hc₁ => ?_, hdrop⟩
        cases hc₁
        exact h
      · have hend := parseAll_endMessage h.sound hu (h.noBytes hstate)
        rw [he, ok_bind, hend]
        constructor
        · intro c₁ hc₁
          have hs := parseAll_orderly ((h.sound.endMessage hu).feed [])
          rw [hend] at hs
          cases hc₁
          refine ⟨hs.1, fun h => ?_, fun h => ?_, hs.2, fun _ => ?_, fun h => ?_⟩
          · cases h
          · cases h
          · simp only [h.noBytes hstate]
            rfl
          · cases h
        · obtain ⟨head, m₀, hopens, hread⟩ := h.body hstate
          intro m hm
          simp only [extracted, List.drop_left, List.mem_singleton] at hm
          rw [hm]
          exact ⟨head, m₀, hopens.of_eq rfl rfl rfl, fun hs => ⟨_, (hread hs).1, heof⟩⟩

/-! ## The parser that gets what has been serialized -/

variable {head m₀ m : HTTPMessage X} {s : Bytes}

theorem isLine_of_noCrlf {line : Bytes} (rest : Bytes) (h : NoCrlf line) :
    IsLine (line ++ crlf ++ rest) line rest := ⟨(find_crlf_eq_length line rest).mpr h, rfl⟩

theorem parseAll_headers {hs : List HTTPHeader} {rest : Bytes} (hc : c.Sound)
    (hstate : c.messageInProgress.state = .headersPending)
    (hbuffer : c.buffer = hs.flatMap (fun h => h.str ++ crlf) ++ rest)
    (hparsed : ∀ h ∈ hs, h.Parsed) :
    ∃ d : HTTPMessageSequence X S, d.Sound ∧ c.parseAll = d.parseAll ∧ d = { c with
      buffer := rest
      messageInProgress := { c.messageInProgress with
        headers := c.messageInProgress.headers ++ hs.map HTTPHeader.reparsed } } := by
  induction hs generalizing c with
  | nil => exact ⟨c, hc, rfl, by simp [← show c.buffer = rest from hbuffer]⟩
  | cons h hs ih =>
      have hh := hparsed h (by simp)
      have hline : IsLine c.buffer h.str (hs.flatMap (fun h => h.str ++ crlf) ++ rest) := by
        rw [hbuffer, List.flatMap_cons, List.append_assoc]
        exact isLine_of_noCrlf _ hh.noCrlf_str
      have hgo := Goes.header hstate hline h.str_ne_nil (HTTPHeader.ofLine_str hh)
      obtain ⟨d, hd, hparse, rfl⟩ := ih (hgo.sound hc) hstate rfl fun h hmem => hparsed h (by simp [hmem])
      refine ⟨_, hd, (parseAll_of_goes hc hgo).trans hparse, ?_⟩
      simp

/-- A fresh parser that gets a serialized message comes to the blank line
behind its headers. -/
theorem parseAll_str (hopens : HTTPMessage.Opens head m₀ m) (hstr : m.str = .ok s) :
    ∃ d : HTTPMessageSequence X S, d.Sound ∧
      ((initial (HTTPReparseLaws.expecting m.derived) : HTTPMessageSequence X S).feed s).parseAll
        = d.parseAll ∧
      d.completeMessages = [] ∧ IsLine d.buffer [] m.body ∧
      d.messageInProgress = { head with headers := head.headers.map HTTPHeader.reparsed } := by
  have hhead := hopens.isHead
  obtain ⟨t, t', m', hinit, hderived⟩ := hhead.opened
  obtain ⟨t'', hinit'⟩ := HTTPReparseLaws.initialize_expecting hinit
  have hexpect : HTTPReparseLaws.expecting m.derived
      = (HTTPReparseLaws.expecting m'.derived : S) := by
    rw [← hderived]
    exact HTTPReparseLaws.expecting_forget hopens.forget
  have hm' := (HTTPParserLaws.initialize_ok hinit).1
  obtain ⟨-, rfl⟩ := HTTPMessage.str_eq_ok.mp hstr
  have hs := (sound_initial (X := X) (HTTPReparseLaws.expecting m.derived : S)).feed
    (m.firstLine ++ crlf ++ m.headers.flatMap (fun h => h.str ++ crlf) ++ crlf ++ m.body)
  have hline : IsLine ([] ++ (m.firstLine ++ crlf ++ m.headers.flatMap (fun h => h.str ++ crlf) ++
      crlf ++ m.body)) m.firstLine (m.headers.flatMap (fun h => h.str ++ crlf) ++ (crlf ++ m.body)) := by
    have := isLine_of_noCrlf (m.headers.flatMap (fun h => h.str ++ crlf) ++ (crlf ++ m.body))
      hhead.line
    rw [← hopens.firstLine] at this
    simpa only [List.nil_append, List.append_assoc] using this
  rw [← hexpect] at hinit'
  have hgo := Goes.firstLine (c := (initial (HTTPReparseLaws.expecting m.derived) :
    HTTPMessageSequence X S).feed _) rfl hline hinit'
  obtain ⟨d, hd, hparse, hdeq⟩ := parseAll_headers (hgo.sound hs) rfl rfl
    (by rw [hopens.headers]; exact hhead.headers)
  refine ⟨d, hd, (parseAll_of_goes hs hgo).trans hparse, ?_, ?_, ?_⟩
  · rw [hdeq]
    rfl
  · rw [hdeq]
    exact isLine_of_noCrlf m.body List.isChain_nil
  · rw [hdeq, hm', hhead.rest, hopens.firstLine, hopens.headers, hderived]
    rfl

/-- The bytes in the buffer are the rest of the body, and it ends with them. -/
theorem parseAll_whole {c : HTTPMessageSequence X S} (h : c.Sound)
    (hstate : c.messageInProgress.state = .bodyPending)
    (hends : HTTPMessage.Ends (c.messageInProgress.readInBody c.buffer) c.buffer
      c.messageInProgress c.buffer.length) :
    ∃ derived, c.parseAll = .ok { c with
      buffer := []
      completeMessages := c.completeMessages ++ [{ c.messageInProgress with
        body := c.messageInProgress.body ++ c.buffer
        state := .complete
        derived := derived }]
      messageInProgress := HTTPMessage.initial } := by
  obtain ⟨derived, hread, hforget⟩ := hends.result
  have hgo := Goes.body (S := S) hstate hends hread hforget
  have hbody := hgo.sound h
  have hgo' := Goes.complete (c := { c with
    buffer := c.buffer.drop c.buffer.length
    messageInProgress := { c.messageInProgress with
      body := c.messageInProgress.body ++ c.buffer.take c.buffer.length
      state := .complete
      derived := derived } }) rfl
  refine ⟨derived, ?_⟩
  rw [parseAll_of_goes h hgo, parseAll_of_goes hbody hgo',
    parseAll_of_rests (hgo'.sound hbody) (.line (.inl rfl) (by simp [find, crlf, ascii]))]
  simp

/-- The bytes in the buffer leave the body open, and EOF ends it. -/
theorem parseAll_eof {c : HTTPMessageSequence X S} (h : c.Sound)
    (hdue : c.messageInProgress.Due)
    (hgoes : HTTPMessage.GoesOn (c.messageInProgress.readInBody c.buffer) c.buffer
      c.messageInProgress m)
    (heof : HTTPMessageType.eofInBody m = .ok true) :
    (c.parseAll >>= fun c => c.parse []) = .ok { c with
      buffer := []
      completeMessages := c.completeMessages ++ [{ m with state := .complete }]
      messageInProgress := HTTPMessage.initial } := by
  have hdue' := hgoes.due hdue
  have hrest := Rests.body (S := S) hdue.state hgoes
  have hu : m.expectedBodySize.1 = false := by
    cases hk : m.expectedBodySize.1 with
    | false => rfl
    | true => exact absurd heof (HTTPBodyLaws.eofInBody_plain (hdue'.plain hk))
  have heof' : receiveEof { c with buffer := [], messageInProgress := m }
      = .ok (endMessage { c with buffer := [], messageInProgress := m }) := by
    simp [receiveEof, HTTPMessage.eof, hdue'.state, heof, endMessage]
  have hend := parseAll_endMessage (hrest.sound h).1 hu rfl
  rw [parseAll_of_rests h hrest]
  show (receiveEof { c with buffer := [], messageInProgress := m } >>=
    fun c => (c.feed []).parseAll) = _
  rw [heof', ok_bind, hend]

/-- The message comes back, where none of its values is blank. -/
theorem roundTrips_of_noBlank {byEof : Bool} (hwhole : m.Whole True byEof)
    (hstate : m.state = .complete) (hblank : m.NoBlankValues) :
    RoundTrips (HTTPReparseLaws.expecting m.derived : S) byEof m := by
  obtain ⟨head, m₀, hopens, hread⟩ := hwhole
  have hstr := HTTPMessage.str_eq_ok.mpr ⟨hstate, rfl⟩
  refine ⟨_, hstr, ?_⟩
  rw [parseCalls_str _ _ hstr]
  obtain ⟨d, hd, hparse, hcomplete, hline, hmip⟩ := parseAll_str (S := S) hopens hstr
  -- the headers are the message's own
  have hsame : head.headers.map HTTPHeader.reparsed = head.headers := by
    refine (List.map_congr_left fun h hh => ?_).trans (List.map_id _)
    exact HTTPHeader.reparsed_eq_self.mpr (hblank h (hopens.headers ▸ hh))
  rw [hsame] at hmip
  replace hmip : d.messageInProgress = head := hmip
  have hgo : Goes d { d with buffer := m.body, messageInProgress := m₀ } :=
    .blankLine (by rw [hmip]; exact hopens.isHead.state) hline
      (by rw [hmip]; exact hopens.calculate)
  have hbody := hgo.sound hd
  have hview (m₁ : HTTPMessage X) (hm₁ : m₁ = { m₀ with
      body := m₀.body ++ m.body
      state := m₁.state
      derived := m₁.derived }) : view m₁ = view m := by
    rw [hm₁, hopens.message]
    simp only [view, hopens.firstLine, hopens.headers, hopens.isHead.body, List.nil_append]
  rw [hparse, parseAll_of_goes hd hgo]
  cases byEof with
  | false =>
      have hends : HTTPMessage.Ends (m₀.readInBody m.body) m.body m₀ m.body.length := by
        simpa using hread trivial
      obtain ⟨derived, hwhole⟩ := parseAll_whole hbody hopens.due.state hends
      rw [hwhole]
      refine ⟨_, rfl, ?_⟩
      simp only [hcomplete, List.nil_append, List.map_cons, List.map_nil]
      rw [hview _ rfl]
  | true =>
      obtain ⟨m₁, hgoes, heof⟩ : ∃ m₁, HTTPMessage.GoesOn (m₀.readInBody m.body) m.body m₀ m₁ ∧
          HTTPMessageType.eofInBody m₁ = .ok true := by
        simpa using hread trivial
      have hwhole := parseAll_eof hbody hopens.due hgoes heof
      simp only [if_true, hwhole]
      refine ⟨_, rfl, ?_⟩
      simp only [hcomplete, List.nil_append, List.map_cons, List.map_nil]
      rw [hview _ (by rw [hgoes.rest])]

/-! ### A blank value does not come back -/

/-- The first message that is complete, or will be, has these headers. -/
def FirstHas (hs : List HTTPHeader) (c : HTTPMessageSequence X S) : Prop :=
  (c.completeMessages = [] ∧ c.messageInProgress.headers = hs ∧
    (c.messageInProgress.state = .bodyPending ∨ c.messageInProgress.state = .complete)) ∨
  ∃ m ms, c.completeMessages = m :: ms ∧ m.headers = hs

theorem Goes.firstHas {hs : List HTTPHeader} (hgo : Goes c c') (h : c.FirstHas hs) :
    c'.FirstHas hs := by
  rcases h with ⟨hcomplete, hheaders, hstate⟩ | ⟨m, ms, hms, hm⟩
  · cases hgo with
    | firstLine hs' _ _ | header hs' _ _ _ | blankLine hs' _ _ =>
        rcases hstate with hstate | hstate <;> cases hs'.symm.trans hstate
    | body _ _ _ _ => exact .inl ⟨hcomplete, hheaders, .inr rfl⟩
    | complete _ => exact .inr ⟨c.messageInProgress, [], by simp [hcomplete], hheaders⟩
  · right
    cases hgo with
    | firstLine _ _ _ | header _ _ _ _ | blankLine _ _ _ | body _ _ _ _ => exact ⟨m, ms, hms, hm⟩
    | complete _ => exact ⟨m, ms ++ [c.messageInProgress], by simp [hms], hm⟩

theorem Rests.firstHas {hs : List HTTPHeader} (hc : c.Sound) (hrest : Rests c c')
    (h : c.FirstHas hs) : c'.FirstHas hs := by
  cases hrest with
  | line _ _ => exact h
  | body hstate hgo =>
      rcases h with ⟨hcomplete, hheaders, -⟩ | h
      · refine .inl ⟨hcomplete, ?_, .inl (hgo.due (hc.due hstate)).state⟩
        rw [hgo.rest]
        exact hheaders
      · exact .inr h

theorem parseAll_firstHas {hs : List HTTPHeader} (hc : c.Sound) (h : c.FirstHas hs)
    (hparse : c.parseAll = .ok c') : c'.FirstHas hs := by
  refine Sound.induction (P := fun c => c.FirstHas hs → c.parseAll = .ok c' → c'.FirstHas hs)
    ?_ ?_ ?_ hc h hparse
  · intro c c₁ hc hrest h hparse
    rw [parseAll_of_rests hc hrest] at hparse
    cases hparse
    exact hrest.firstHas hc h
  · intro c e hc hfail _ hparse
    rw [parseAll_of_fails hc hfail] at hparse
    cases hparse
  · intro c c₁ hc hgo ih h hparse
    rw [parseAll_of_goes hc hgo] at hparse
    exact ih (hgo.firstHas h) hparse

theorem parse_eof_firstHas {hs : List HTTPHeader} (hc : c.Sound)
    (hstate : c.messageInProgress.state ≠ .complete) (h : c.FirstHas hs)
    (hparse : c.parse [] = .ok c') : c'.FirstHas hs := by
  replace hparse : (c.receiveEof >>= fun c => (c.feed []).parseAll) = .ok c' := hparse
  rcases receiveEof_cases hc hstate with ⟨e, he, -⟩ | ⟨-, he⟩ | ⟨-, hu, -, he⟩
  · rw [he] at hparse
    cases hparse
  · rw [he, ok_bind] at hparse
    exact parseAll_firstHas (hc.feed []) h hparse
  · rw [he, ok_bind] at hparse
    refine parseAll_firstHas ((hc.endMessage hu).feed []) ?_ hparse
    rcases h with ⟨hcomplete, hheaders, -⟩ | h
    · exact .inl ⟨hcomplete, hheaders, .inr rfl⟩
    · exact .inr h

/-- Where the message comes back, none of its values is blank. -/
theorem noBlank_of_roundTrips {byEof : Bool} (hopens : HTTPMessage.Opens head m₀ m)
    (h : RoundTrips (HTTPReparseLaws.expecting m.derived : S) byEof m) : m.NoBlankValues := by
  obtain ⟨s, hstr, c, hparse, hview⟩ := h
  rw [parseCalls_str _ _ hstr, bind_eq_ok] at hparse
  obtain ⟨c₁, hc₁, heof⟩ := hparse
  obtain ⟨d, hd, hparse, hcomplete, hline, hmip⟩ := parseAll_str (S := S) hopens hstr
  rw [hparse] at hc₁
  have hord := parseAll_orderly hd
  rw [hc₁] at hord
  have hdstate : d.messageInProgress.state = .headersPending := by
    rw [hmip]
    exact hopens.isHead.state
  -- the turn at the blank line keeps the headers
  have hfirst : c₁.FirstHas (head.headers.map HTTPHeader.reparsed) := by
    cases hcalc : HTTPMessageType.calculateExpectedBodySize
        { d.messageInProgress with state := .bodyPending } with
    | error e =>
        rw [parseAll_of_fails hd (.blankLine hdstate hline hcalc)] at hc₁
        cases hc₁
    | ok m₁ =>
        have hgo := Goes.blankLine hdstate hline hcalc
        rw [parseAll_of_goes hd hgo] at hc₁
        refine parseAll_firstHas (hgo.sound hd) (.inl ⟨hcomplete, ?_, .inl ?_⟩) hc₁
        · rw [(HTTPBodyLaws.calculate_ok hcalc).1, hmip]
        · rw [(HTTPBodyLaws.calculate_ok hcalc).1]
  have hlast : c.FirstHas (head.headers.map HTTPHeader.reparsed) := by
    cases byEof with
    | false =>
        cases heof
        exact hfirst
    | true => exact parse_eof_firstHas hord.1 hord.2 hfirst heof
  rcases hlast with ⟨hnone, -, -⟩ | ⟨m₁, ms, hms, hm₁⟩
  · rw [hnone] at hview
    cases hview
  · rw [hms, List.map_cons] at hview
    have hheaders : m₁.headers = m.headers := congrArg (fun v => v.2.1) (List.cons.inj hview).1
    rw [hm₁, hopens.headers] at hheaders
    intro h hh
    rw [hopens.headers] at hh
    have hsame := List.map_inj_left.mp (hheaders.trans (List.map_id _).symm) h hh
    exact HTTPHeader.reparsed_eq_self.mp hsame

end HTTPMessageSequence

end

/-! ## Runs -/

theorem HTTPRequestParser.parseCalls_paused : ∀ {bufs : List Bytes} {c c' : HTTPRequestParser},
    c.Paused True → HTTPMessageSequence.parseCalls bufs c = .ok c' → c'.Paused True
  | [], _, _, h, hparse => by
      cases hparse
      exact h
  | buf :: bufs, c, c', h, hparse => by
      obtain ⟨c₁, hc₁, hparse⟩ := bind_eq_ok.mp hparse
      have hleaves := HTTPMessageSequence.parse_leaves h
        fun _ _ => HTTPRequestParser.smallRun (HTTPMessageSequence.feed c buf)
      exact parseCalls_paused (hleaves.1 c₁ hc₁) hparse

namespace HTTPResponseParser

/-- Every chunk size that comes up in the calls leaves room for the ending of
the chunk. -/
def SmallCalls : List Call → HTTPResponseParser → Prop
  | [], _ => True
  | .parse buf :: calls, c =>
      (buf ≠ [] → HTTPMessageSequence.SmallRun (c.feed buf)) ∧
        ∀ c', c.parse buf = .ok c' → SmallCalls calls c'
  | .newRequestArrived request :: calls, c => SmallCalls calls (newRequestArrived request c)

theorem run_paused {small : Prop} (calls' : List Call) : ∀ {calls : List Call}
    {c c' : HTTPResponseParser}, c.Paused small → (small → SmallCalls (calls ++ calls') c) →
    run calls c = .ok c' → c'.Paused small ∧ (small → SmallCalls calls' c')
  | [], _, _, h, hsmall, hrun => by
      cases hrun
      exact ⟨h, hsmall⟩
  | .newRequestArrived request :: calls, c, c', h, hsmall, hrun =>
      run_paused calls' (c := newRequestArrived request c)
        ⟨⟨h.sound.inProgress, h.sound.completed⟩, h.headers, h.body, h.notComplete, h.noLine,
          h.noBytes⟩ hsmall hrun
  | .parse buf :: calls, c, c', h, hsmall, hrun => by
      obtain ⟨c₁, hc₁, hrun⟩ := bind_eq_ok.mp hrun
      have hleaves := HTTPMessageSequence.parse_leaves h fun hs hne => (hsmall hs).1 hne
      exact run_paused calls' (hleaves.1 c₁ hc₁) (fun hs => (hsmall hs).2 c₁ hc₁) hrun

end HTTPResponseParser

namespace HTTPMessageSequence

variable {X S : Type} [HTTPMessageType X] [HTTPMessageParser X S] [HTTPReparseLaws X S]

theorem mem_drop_complete {c : HTTPMessageSequence X S} {buf : Bytes} {m : HTTPMessage X} {k : Nat}
    (hs : c.Sound) (hstate : c.messageInProgress.state ≠ .complete)
    (hm : m ∈ (extracted (c.parse buf)).drop k) : m.state = .complete := by
  have hord := parse_orderly hs hstate buf
  have hmem := List.mem_of_mem_drop hm
  revert hord hmem
  cases c.parse buf with
  | ok c₁ => exact fun hord hmem => (hord.1.completed m hmem).state
  | error err => exact fun hord hmem => (hord.2 m hmem).state

end HTTPMessageSequence

/-- **What comes back of what has been serialized.** The messages that a call
completes come back just when none of their header values is blank; for a
response this supposes that the chunk sizes on the way are small. -/
theorem roundTrips_iff_noBlankValues (bufs : List Bytes) (requests : List HTTPRequest)
    (calls : List HTTPResponseParser.Call) (buf : Bytes) :
    (∀ c : HTTPRequestParser, HTTPMessageSequence.parseCalls bufs (.initial ()) = .ok c →
      ∀ m ∈ (HTTPMessageSequence.extracted (c.parse buf)).drop c.completeMessages.length,
        HTTPMessageSequence.RoundTrips () buf.isEmpty m ↔ m.NoBlankValues) ∧
    ∀ c : HTTPResponseParser, HTTPResponseParser.run calls (.initial requests) = .ok c →
      ∀ m ∈ (HTTPMessageSequence.extracted (c.parse buf)).drop c.completeMessages.length,
        (HTTPMessageSequence.RoundTrips [HTTPResponse.request m] buf.isEmpty m → m.NoBlankValues) ∧
        (HTTPResponseParser.SmallCalls (calls ++ [.parse buf]) (.initial requests) →
          m.NoBlankValues →
          HTTPMessageSequence.RoundTrips [HTTPResponse.request m] buf.isEmpty m) := by
  constructor
  · intro c hparse m hm
    have hpaused := HTTPRequestParser.parseCalls_paused
      (HTTPMessageSequence.paused_initial ()) hparse
    have hwhole := (HTTPMessageSequence.parse_leaves hpaused
      fun _ _ => HTTPRequestParser.smallRun (c.feed buf)).2 m hm
    have hstate := HTTPMessageSequence.mem_drop_complete hpaused.sound hpaused.notComplete hm
    refine ⟨fun h => ?_, HTTPMessageSequence.roundTrips_of_noBlank hwhole hstate⟩
    obtain ⟨head, m₀, hopens, -⟩ := hwhole
    exact HTTPMessageSequence.noBlank_of_roundTrips hopens h
  · intro c hrun m hm
    constructor
    · intro h
      have hpaused := (HTTPResponseParser.run_paused []
        (HTTPMessageSequence.paused_initial requests) False.elim hrun).1
      obtain ⟨head, m₀, hopens, -⟩ := (HTTPMessageSequence.parse_leaves hpaused False.elim).2 m hm
      exact HTTPMessageSequence.noBlank_of_roundTrips hopens h
    · intro hsmall hblank
      obtain ⟨hpaused, hlast⟩ := HTTPResponseParser.run_paused [.parse buf]
        (HTTPMessageSequence.paused_initial requests) (fun _ : True => hsmall) hrun
      have hwhole := (HTTPMessageSequence.parse_leaves hpaused
        fun hs hne => (hlast hs).1 hne).2 m hm
      have hstate := HTTPMessageSequence.mem_drop_complete hpaused.sound hpaused.notComplete hm
      exact HTTPMessageSequence.roundTrips_of_noBlank hwhole hstate hblank

/-- A chunked response, and the beginning of one that an EOF delimits. -/
def twoResponses : Bytes :=
  ascii "HTTP/1.1 200 OK\r\nTransfer-Encoding: chunked\r\n\r\n1\r\nx\r\n0\r\n\r\n" ++
    ascii "HTTP/1.1 200 OK\r\nA:b\r\n\r\nyz"

def twoGets : List HTTPRequest := [.bare (ascii "GET / HTTP/1.1"), .bare (ascii "GET / HTTP/1.1")]

theorem roundTrips_iff_noBlankValues_responses :
    (∀ m ∈ HTTPMessageSequence.extracted
        (HTTPMessageSequence.parse twoResponses (.initial twoGets : HTTPResponseParser)),
      HTTPMessageSequence.RoundTrips [HTTPResponse.request m] false m) ∧
    ∃ c : HTTPResponseParser,
      HTTPResponseParser.run [.parse twoResponses] (.initial twoGets) = .ok c ∧
      ∀ m ∈ (HTTPMessageSequence.extracted (c.parse [])).drop c.completeMessages.length,
        HTTPMessageSequence.RoundTrips [HTTPResponse.request m] true m := by
  have hsmall := HTTPResponseParser.smallRun_of_visited
    (c := HTTPMessageSequence.feed (.initial twoGets) twoResponses) 30 (by decide +kernel)
  constructor
  · intro m hm
    refine ((roundTrips_iff_noBlankValues [] twoGets [] twoResponses).2 _ rfl m hm).2
      ⟨fun _ => hsmall, fun _ _ => trivial⟩ ?_
    revert m
    decide +kernel
  · refine ⟨_, rfl, fun m hm => ?_⟩
    refine ((roundTrips_iff_noBlankValues [] twoGets [.parse twoResponses] []).2 _ rfl m hm).2
      ⟨fun _ => hsmall, fun _ _ => ⟨fun h => absurd rfl h, fun _ _ => trivial⟩⟩ ?_
    revert m
    decide +kernel

/-- A header without a value. -/
def blankHeader : Bytes := ascii "GET / HTTP/1.1\r\nX:\r\n\r\n"

/-- The empty value comes back as a space. -/
theorem blank_value_grows :
    ∃ m ∈ HTTPMessageSequence.extracted
        (HTTPMessageSequence.parse blankHeader (.initial () : HTTPRequestParser)),
      ¬ HTTPMessageSequence.RoundTrips () false m := by
  decide +kernel

end Mahimahi
