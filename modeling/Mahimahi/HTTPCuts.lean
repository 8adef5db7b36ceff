import Mahimahi.HTTPParser

/-!
# Where the stream is cut

Feeding a stream buffer by buffer comes to the same as feeding it at once.
The comparison is turn by turn: while the parser works on the first bytes
`x`, every turn is a turn of the parser that has `x ++ y` in its buffer
(`Goes.feed`, `Fails.feed`); where it comes to rest, the two parsers meet
again once `y` has been fed to the first (`Rests.feed`). A body parser that
has done its work may be left in another state, so states are compared up to
that (`Alike`).
-/

namespace Mahimahi

/-! ## Alike -/

/-- A complete message without what its body parser was left with. -/
def HTTPMessage.erase {X : Type} [HTTPBodyView X] (m : HTTPMessage X) : HTTPMessage X :=
  if m.state = .complete then { m with derived := HTTPBodyView.forget m.derived } else m

namespace HTTPMessage

variable {X : Type} [HTTPBodyView X] {m m' : HTTPMessage X}

theorem erase_of_ne (h : m.state ≠ .complete) : m.erase = m := if_neg h

theorem erase_state : m.erase.state = m.state := by
  unfold erase
  split <;> rfl

end HTTPMessage

namespace HTTPMessageSequence

section

variable {X S : Type} [HTTPBodyView X]

/-- What is compared of a complete message. -/
def view (m : HTTPMessage X) : Bytes × List HTTPHeader × Bytes := (m.firstLine, m.headers, m.body)

theorem view_of_erase {m n : HTTPMessage X} (h : m.erase = n.erase) : view m = view n := by
  have hview (m : HTTPMessage X) : view m.erase = view m := by
    unfold HTTPMessage.erase
    split <;> rfl
  rw [← hview m, h, hview n]

/-- The same state, up to what is left of body parsers. -/
structure Alike (c d : HTTPMessageSequence X S) : Prop where
  buffer : d.buffer = c.buffer
  derived : d.derived = c.derived
  complete : d.completeMessages.map HTTPMessage.erase = c.completeMessages.map HTTPMessage.erase
  inProgress : d.messageInProgress.erase = c.messageInProgress.erase

variable {c d f : HTTPMessageSequence X S}

theorem Alike.refl (c : HTTPMessageSequence X S) : Alike c c := ⟨rfl, rfl, rfl, rfl⟩

theorem Alike.trans (h : Alike c d) (h' : Alike d f) : Alike c f :=
  ⟨h'.buffer.trans h.buffer, h'.derived.trans h.derived, h'.complete.trans h.complete,
    h'.inProgress.trans h.inProgress⟩

theorem Alike.symm (h : Alike c d) : Alike d c :=
  ⟨h.buffer.symm, h.derived.symm, h.complete.symm, h.inProgress.symm⟩

theorem Alike.state (h : Alike c d) : d.messageInProgress.state = c.messageInProgress.state := by
  rw [← HTTPMessage.erase_state, h.inProgress, HTTPMessage.erase_state]

theorem Alike.eq (h : Alike c d) (hstate : c.messageInProgress.state ≠ .complete) :
    d = { c with completeMessages := d.completeMessages } := by
  have hin := h.inProgress
  rw [HTTPMessage.erase_of_ne hstate, HTTPMessage.erase_of_ne (h.state ▸ hstate)] at hin
  obtain ⟨b, ms, m, s⟩ := d
  obtain ⟨rfl, rfl, -, -⟩ := h
  cases hin
  rfl

/-- Outcomes that are alike. -/
def AlikeOutcome : Except (ParseFault X) (HTTPMessageSequence X S) →
    Except (ParseFault X) (HTTPMessageSequence X S) → Prop
  | .ok c, .ok d => Alike c d
  | .error (_, ms), .error (_, ns) => ns.map HTTPMessage.erase = ms.map HTTPMessage.erase
  | _, _ => False

theorem AlikeOutcome.trans {o p q : Except (ParseFault X) (HTTPMessageSequence X S)}
    (h : AlikeOutcome o p) (h' : AlikeOutcome p q) : AlikeOutcome o q := by
  rcases o with ⟨e, ms⟩ | c <;> rcases p with ⟨e', ms'⟩ | d <;> rcases q with ⟨e'', ms''⟩ | f <;>
    try exact h.elim
  · exact Eq.trans h' h
  · exact h'.elim
  · exact h'.elim
  · exact Alike.trans h h'

end

section

variable {X S : Type} [HTTPMessageType X] [HTTPMessageParser X S] [HTTPParserLaws X S]
variable {c c' d : HTTPMessageSequence X S} {e : Fault} {y : Bytes}

/-! ### Turns of sequences that are alike -/

theorem Goes.alike (hgo : Goes c c') (h : Alike c d) : ∃ d', Goes d d' ∧ Alike c' d' := by
  by_cases hstate : c.messageInProgress.state = .complete
  · cases hgo with
    | complete _ =>
        refine ⟨_, .complete (h.state.trans hstate), h.buffer, h.derived, ?_, rfl⟩
        simp only [List.map_append, h.complete, List.map_cons, h.inProgress, List.map_nil]
    | firstLine hs _ _ | header hs _ _ _ | blankLine hs _ _ | body hs _ _ _ =>
        rw [hs] at hstate
        cases hstate
  · have hcomplete := h.complete
    rw [h.eq hstate]
    cases hgo with
    | firstLine hs hline hinit => exact ⟨_, .firstLine hs hline hinit, rfl, rfl, hcomplete, rfl⟩
    | header hs hline hne hheader => exact ⟨_, .header hs hline hne hheader, rfl, rfl, hcomplete, rfl⟩
    | blankLine hs hline hcalc => exact ⟨_, .blankLine hs hline hcalc, rfl, rfl, hcomplete, rfl⟩
    | body hs hends hread hforget =>
        exact ⟨_, .body hs hends hread hforget, rfl, rfl, hcomplete, rfl⟩
    | complete hs => exact absurd hs hstate

theorem Rests.alike (hrest : Rests c c') (h : Alike c d) :
    ∃ d', Rests d d' ∧ Alike c' d' := by
  have hcomplete := h.complete
  cases hrest with
  | line hstate hnone =>
      rw [h.eq (by rcases hstate with hstate | hstate <;> simp [hstate])]
      exact ⟨_, .line hstate hnone, rfl, rfl, hcomplete, rfl⟩
  | body hstate hgo =>
      rw [h.eq (by simp [hstate])]
      exact ⟨_, .body hstate hgo, rfl, rfl, hcomplete, rfl⟩

theorem Fails.alike (hfail : Fails c e) (h : Alike c d) : Fails d e := by
  have hne : c.messageInProgress.state ≠ .complete := by
    cases hfail with
    | firstLine hs _ _ | header hs _ _ _ | blankLine hs _ _ | body hs _ => simp [hs]
  rw [h.eq hne]
  cases hfail with
  | firstLine hs hline hinit => exact .firstLine hs hline hinit
  | header hs hline hne hheader => exact .header hs hline hne hheader
  | blankLine hs hline hcalc => exact .blankLine hs hline hcalc
  | body hs hread => exact .body hs hread

/-- Sequences that are alike come to outcomes that are alike. -/
theorem parseAll_alike (hs : c.Sound) (hd : d.Sound) (h : Alike c d) :
    AlikeOutcome c.parseAll d.parseAll := by
  refine Sound.induction
    (P := fun c => ∀ d, d.Sound → Alike c d → AlikeOutcome c.parseAll d.parseAll) ?_ ?_ ?_ hs d hd h
  · intro c c' hs hrest d hd h
    obtain ⟨d', hrest', h'⟩ := hrest.alike h
    rw [parseAll_of_rests hs hrest, parseAll_of_rests hd hrest']
    exact h'
  · intro c e hs hfail d hd h
    rw [parseAll_of_fails hs hfail, parseAll_of_fails hd (hfail.alike h)]
    exact h.complete
  · intro c c' hs hgo ih d hd h
    obtain ⟨d', hgo', h'⟩ := hgo.alike h
    rw [parseAll_of_goes hs hgo, parseAll_of_goes hd hgo']
    exact ih d' (hgo'.sound hd) h'

/-! ## More bytes in the buffer -/

/-- Every chunk size that comes up on the way leaves room for the ending of
the chunk. -/
def SmallRun (c : HTTPMessageSequence X S) : Prop :=
  ∀ t, Visits parseTurn c t → t.messageInProgress.state = .bodyPending →
    t.messageInProgress.SmallReads t.buffer

theorem SmallRun.now (h : SmallRun c) (hstate : c.messageInProgress.state = .bodyPending) :
    c.messageInProgress.SmallReads c.buffer := h c (.refl c) hstate

theorem SmallRun.goes (h : SmallRun c) (hgo : Goes c c') : SmallRun c' :=
  fun t ht => h t (.again (parseTurn_of_goes hgo) ht)

theorem SmallRun.alike (hs : c.Sound) (hd : d.Sound) (hsmall : SmallRun c) (h : Alike c d) :
    SmallRun d := by
  intro t ht
  induction ht generalizing c with
  | refl d =>
      intro hstate
      have hc := h.state ▸ hstate
      have := hsmall.now hc
      rw [h.eq (by simp [hc])]
      exact this
  | again hturn _ ih =>
      have hgo := (parseTurn_again hd).mp hturn
      obtain ⟨c', hgo', h'⟩ := hgo.alike h.symm
      exact ih (hgo'.sound hs) (hgo.sound hd) (hsmall.goes hgo') h'.symm

theorem Goes.feed (hs : c.Sound)
    (hsmall : c.messageInProgress.state = .bodyPending →
      c.messageInProgress.SmallReads (c.buffer ++ y)) (hgo : Goes c c') :
    ∃ d, Goes (c.feed y) d ∧ Alike (c'.feed y) d := by
  cases hgo with
  | firstLine hstate hline hinit => exact ⟨_, .firstLine hstate (hline.append y) hinit, .refl _⟩
  | header hstate hline hne hheader =>
      exact ⟨_, .header hstate (hline.append y) hne hheader, .refl _⟩
  | blankLine hstate hline hcalc => exact ⟨_, .blankLine hstate (hline.append y) hcalc, .refl _⟩
  | @body n d hstate hends hread hforget =>
      have hends' := hends.append (hs.due hstate) (hsmall hstate)
      obtain ⟨d', hread', hforget'⟩ := hends'.result
      refine ⟨_, .body (c := c.feed y) hstate hends' hread' hforget', ?_, rfl, rfl, ?_⟩
      · exact List.drop_append_of_le_length hends.le
      · simp only [HTTPMessageSequence.feed, HTTPMessage.erase, if_pos, hforget, hforget',
          List.take_append_of_le_length hends.le]
  | complete hstate => exact ⟨_, .complete hstate, .refl _⟩

theorem Fails.feed (hs : c.Sound) (hsmall : SmallRun (c.feed y)) (hfail : Fails c e) :
    Fails (c.feed y) e := by
  cases hfail with
  | firstLine hstate hline hinit => exact .firstLine hstate (hline.append y) hinit
  | header hstate hline hne hheader => exact .header hstate (hline.append y) hne hheader
  | blankLine hstate hline hcalc => exact .blankLine hstate (hline.append y) hcalc
  | body hstate hread =>
      exact .body (c := c.feed y) hstate
        (HTTPMessage.readInBody_append_error (hs.due hstate) (hsmall.now hstate) hread)

theorem SmallRun.of_goes (hs : c.Sound)
    (hnow : c.messageInProgress.state = .bodyPending → c.messageInProgress.SmallReads c.buffer)
    (hgo : ∀ d, Goes c d → SmallRun d) : SmallRun c := by
  intro t ht
  cases ht with
  | refl => exact hnow
  | again hturn hrest => exact hgo _ ((parseTurn_again hs).mp hturn) t hrest

/-- The next turn of a parser that has rested in a body is a turn of the
parser that has had all the bytes from the start. -/
theorem Goes.unfeed {m₁ : HTTPMessage X} (hs : c.Sound) (hsmall : SmallRun (c.feed y))
    (hstate : c.messageInProgress.state = .bodyPending)
    (hgo : HTTPMessage.GoesOn (c.messageInProgress.readInBody c.buffer) c.buffer
      c.messageInProgress m₁)
    (h : Goes { c with buffer := y, messageInProgress := m₁ } d) :
    ∃ f, Goes (c.feed y) f ∧ Alike d f := by
  obtain ⟨-, -, -, hends⟩ := hgo.append (hs.due hstate) (hsmall.now hstate)
  have hstate₁ := (hgo.due (hs.due hstate)).state
  cases h with
  | @body n d₁ _ hends₁ hread₁ hforget₁ =>
      have hends' := hends n hends₁
      obtain ⟨d', hread', hforget'⟩ := hends'.result
      refine ⟨_, .body (c := c.feed y) hstate hends' hread' hforget', ?_, rfl, rfl, ?_⟩
      · show (c.buffer ++ y).drop (c.buffer.length + n) = y.drop n
        rw [List.drop_append]
        simp
      · have hforget : HTTPBodyView.forget d' = HTTPBodyView.forget d₁ := by
          rw [hforget', hforget₁, hgo.forget]
        have hbody : c.messageInProgress.body ++ (c.buffer ++ y).take (c.buffer.length + n)
            = m₁.body ++ y.take n := by
          rw [hgo.rest, List.take_length_add_append, List.append_assoc]
        simp only [HTTPMessageSequence.feed, HTTPMessage.erase, if_pos, hforget, hbody]
        rw [hgo.rest]
  | firstLine hs' _ _ | header hs' _ _ _ | blankLine hs' _ _ | complete hs' =>
      rw [hstate₁] at hs'
      cases hs'

/-- Where the parser has come to rest, the next bytes bring it to where it
would be with all of them from the start. -/
theorem Rests.feed (hs : c.Sound) (hsmall : SmallRun (c.feed y)) (hrest : Rests c c') :
    SmallRun (c'.feed y) ∧ AlikeOutcome (c'.feed y).parseAll (c.feed y).parseAll := by
  have hfed := hs.feed y
  have hs' := (hrest.sound hs).1.feed y
  cases hrest with
  | line _ _ => exact ⟨hsmall, parseAll_alike hfed hfed (.refl _)⟩
  | @body m₁ hstate hgo =>
      obtain ⟨hnow, herror, hgoesOn, -⟩ := hgo.append (hs.due hstate) (hsmall.now hstate)
      have hstate₁ := (hgo.due (hs.due hstate)).state
      constructor
      · refine SmallRun.of_goes hs' (fun _ => hnow) fun d hd => ?_
        obtain ⟨f, hf, halike⟩ := Goes.unfeed hs hsmall hstate hgo hd
        exact (hsmall.goes hf).alike (hf.sound hfed) (hd.sound hs') halike.symm
      · rcases turn_cases hs' with ⟨d, hd⟩ | ⟨d, hd⟩ | ⟨e, he, -⟩
        · obtain ⟨f, hf, halike⟩ := Goes.unfeed hs hsmall hstate hgo hd
          rw [parseAll_of_goes hs' hd, parseAll_of_goes hfed hf]
          exact parseAll_alike (hd.sound hs') (hf.sound hfed) halike
        · rw [parseAll_of_rests hs' hd]
          cases hd with
          | line hline _ =>
              replace hline : m₁.state = .firstLinePending ∨ m₁.state = .headersPending := hline
              rw [hstate₁] at hline
              simp at hline
          | @body m₂ _ hgo₂ =>
              have hrest₂ := Rests.body (c := c.feed y) hstate (hgoesOn m₂ hgo₂)
              rw [parseAll_of_rests hfed hrest₂]
              exact .refl _
        · rw [parseAll_of_fails hs' he]
          cases he with
          | body _ hread =>
              rw [parseAll_of_fails hfed (.body (c := c.feed y) hstate (herror _ hread))]
              exact rfl
          | firstLine hline _ _ | header hline _ _ _ | blankLine hline _ _ =>
              replace hline : m₁.state = _ := hline
              rw [hstate₁] at hline
              cases hline

/-- Feeding `x` and then `y` comes to what feeding `x ++ y` comes to. -/
theorem parseAll_feed (hs : c.Sound) (hsmall : SmallRun (c.feed y)) :
    match c.parseAll with
    | .ok c₁ => SmallRun (c₁.feed y) ∧ AlikeOutcome (c₁.feed y).parseAll (c.feed y).parseAll
    | .error err => AlikeOutcome (.error err) (c.feed y).parseAll := by
  refine Sound.induction (P := fun c => SmallRun (c.feed y) → match c.parseAll with
    | .ok c₁ => SmallRun (c₁.feed y) ∧ AlikeOutcome (c₁.feed y).parseAll (c.feed y).parseAll
    | .error err => AlikeOutcome (.error err) (c.feed y).parseAll) ?_ ?_ ?_ hs hsmall
  · intro c c' hs hrest hsmall
    rw [parseAll_of_rests hs hrest]
    exact hrest.feed hs hsmall
  · intro c e hs hfail hsmall
    rw [parseAll_of_fails hs hfail, parseAll_of_fails (hs.feed y) (hfail.feed hs hsmall)]
    exact rfl
  · intro c c' hs hgo ih hsmall
    obtain ⟨d, hd, halike⟩ := hgo.feed hs hsmall.now
    have hd' := hd.sound (hs.feed y)
    have hsmall' := (hsmall.goes hd).alike hd' ((hgo.sound hs).feed y) halike.symm
    have hout := parseAll_alike ((hgo.sound hs).feed y) hd' halike
    have := ih hsmall'
    rw [parseAll_of_goes hs hgo, parseAll_of_goes (hs.feed y) hd]
    revert this
    cases c'.parseAll with
    | ok c₁ => exact fun h => ⟨h.1, h.2.trans hout⟩
    | error err => exact fun h => h.trans hout

theorem parseCalls_alike : ∀ {bufs : List Bytes} {buf : Bytes} {c : HTTPMessageSequence X S},
    c.Sound → (∀ b ∈ buf :: bufs, b ≠ []) → SmallRun (c.feed (buf :: bufs).flatten) →
    AlikeOutcome (c.parseCalls (buf :: bufs)) (c.feed (buf :: bufs).flatten).parseAll
  | [], buf, c, hs, hne, _ => by
      have hbuf := hne buf (by simp)
      simp only [parseCalls, parse_of_ne_nil hbuf, List.flatten_cons, List.flatten_nil, List.append_nil]
      have := parseAll_alike (hs.feed buf) (hs.feed buf) (.refl _)
      revert this
      cases (c.feed buf).parseAll <;> exact id
  | next :: bufs, buf, c, hs, hne, hsmall => by
      have hbuf := hne buf (by simp)
      have hfeed : c.feed (buf :: next :: bufs).flatten
          = (c.feed buf).feed (next :: bufs).flatten := by
        simp [HTTPMessageSequence.feed]
      rw [hfeed] at hsmall ⊢
      have hmeet := parseAll_feed (hs.feed buf) hsmall
      have hord := parseAll_orderly (hs.feed buf)
      rw [parseCalls, parse_of_ne_nil hbuf]
      revert hmeet hord
      cases (c.feed buf).parseAll with
      | error err => exact fun hmeet _ => hmeet
      | ok c₁ =>
          intro hmeet hord
          exact (parseCalls_alike hord.1 (fun b hb => hne b (by simp [hb])) hmeet.1).trans hmeet.2

/-! ## Any cut -/

/-- The same complete messages, the same message in progress and the same
buffer, or an exception after the same complete messages. -/
def SameOutcome : Except (ParseFault X) (HTTPMessageSequence X S) →
    Except (ParseFault X) (HTTPMessageSequence X S) → Prop
  | .ok c, .ok d => c.completeMessages.map view = d.completeMessages.map view ∧
      c.messageInProgress = d.messageInProgress ∧ c.buffer = d.buffer
  | .error (_, ms), .error (_, ns) => ms.map view = ns.map view
  | _, _ => False

theorem map_view_of_erase : ∀ {ms ns : List (HTTPMessage X)},
    ms.map HTTPMessage.erase = ns.map HTTPMessage.erase → ms.map view = ns.map view
  | [], [], _ => rfl
  | m :: ms, n :: ns, h => by
      obtain ⟨hhead, htail⟩ := List.cons.inj h
      rw [List.map_cons, List.map_cons, view_of_erase hhead, map_view_of_erase htail]

theorem AlikeOutcome.same {o p : Except (ParseFault X) (HTTPMessageSequence X S)}
    (ho : Orderly o) (h : AlikeOutcome o p) : SameOutcome o p := by
  rcases o with ⟨e, ms⟩ | c <;> rcases p with ⟨e', ns⟩ | d
  · exact map_view_of_erase (Eq.symm h)
  · exact h.elim
  · exact h.elim
  · refine ⟨map_view_of_erase h.complete.symm, ?_, h.buffer.symm⟩
    have := h.eq ho.2
    rw [this]

theorem parseCalls_same {derived : S} {bufs : List Bytes} (hne : ∀ buf ∈ bufs, buf ≠ [])
    (hsmall : SmallRun ((initial derived : HTTPMessageSequence X S).feed bufs.flatten)) :
    SameOutcome ((initial derived : HTTPMessageSequence X S).parseCalls bufs)
      ((initial derived : HTTPMessageSequence X S).parse bufs.flatten) := by
  have hs := sound_initial (X := X) derived
  cases bufs with
  | nil =>
      -- a fresh parser is at rest, and EOF is nothing to it
      have hrest : Rests (initial derived : HTTPMessageSequence X S) (initial derived) :=
        .line (.inl rfl) rfl
      have hparse : (initial derived : HTTPMessageSequence X S).parse [] = .ok (initial derived) := by
        rw [← parseAll_of_rests hs hrest]
        rfl
      rw [List.flatten_nil, hparse]
      exact ⟨rfl, rfl, rfl⟩
  | cons buf bufs =>
      have hflat : (buf :: bufs).flatten ≠ [] := by
        have := hne buf (by simp)
        simp [this]
      rw [parse_of_ne_nil hflat]
      exact (parseCalls_alike hs hne hsmall).same (parseCalls_orderly hs initial_state_ne _)

end

end HTTPMessageSequence

theorem HTTPRequestParser.smallRun (c : HTTPRequestParser) : HTTPMessageSequence.SmallRun c :=
  fun _ _ _ _ => trivial

namespace HTTPResponseParser

/-- A test for chunk sizes that are small, where neither loop takes `n` turns. -/
def smallWithin (n : Nat) (c : HTTPResponseParser) : Bool :=
  let states := visited HTTPMessageSequence.parseTurn n c
  decide (states.length < n) && states.all fun t =>
    match t.messageInProgress.derived.bodyParser with
    | some (.chunked p) =>
        let turns := visited (ChunkedBodyParser.readTurn t.buffer.length) n (p.feed t.buffer)
        decide (turns.length < n) && turns.all fun q => decide q.SmallSize
    | _ => true

theorem smallRun_of_visited {c : HTTPResponseParser} (n : Nat) (h : smallWithin n c = true) :
    HTTPMessageSequence.SmallRun c := by
  rw [smallWithin, Bool.and_eq_true, decide_eq_true_iff, List.all_eq_true] at h
  intro t ht hstate hu b hb
  have := h.2 t (ht.mem_visited h.1)
  cases b with
  | rule5 => trivial
  | chunked p =>
      simp only [hb, Bool.and_eq_true, decide_eq_true_iff, List.all_eq_true] at this
      exact ChunkedBodyParser.smallSizes_of_visited n this.1 this.2

end HTTPResponseParser

/-- **The parsers do not depend on how the stream is cut.** -/
theorem parsers_take_any_cut :
    (∀ bufs : List Bytes, (∀ buf ∈ bufs, buf ≠ []) →
      HTTPMessageSequence.SameOutcome
        (HTTPMessageSequence.parseCalls bufs (.initial () : HTTPRequestParser))
        (HTTPMessageSequence.parse bufs.flatten (.initial () : HTTPRequestParser))) ∧
    ∀ (requests : List HTTPRequest) (bufs : List Bytes), (∀ buf ∈ bufs, buf ≠ []) →
      HTTPMessageSequence.SmallRun (HTTPMessageSequence.feed (.initial requests) bufs.flatten :
        HTTPResponseParser) →
      HTTPMessageSequence.SameOutcome
        (HTTPMessageSequence.parseCalls bufs (.initial requests : HTTPResponseParser))
        (HTTPMessageSequence.parse bufs.flatten (.initial requests : HTTPResponseParser)) := by
  refine ⟨fun bufs hne => ?_, fun requests bufs hne hsmall => ?_⟩
  · exact HTTPMessageSequence.parseCalls_same hne (HTTPRequestParser.smallRun _)
  · exact HTTPMessageSequence.parseCalls_same hne hsmall

/-- Three buffers, cut inside the line endings. -/
theorem parsers_take_any_cut_chunked :
    HTTPMessageSequence.SameOutcome
      (HTTPMessageSequence.parseCalls
        [ascii "HTTP/1.1 200 OK\r", ascii "\nTransfer-Encoding: chunked\r\n\r\n1\r\nx\r",
          ascii "\n0\r\n\r\n"] (.initial [.bare (ascii "GET / HTTP/1.1")] : HTTPResponseParser))
      (HTTPMessageSequence.parse
        [ascii "HTTP/1.1 200 OK\r", ascii "\nTransfer-Encoding: chunked\r\n\r\n1\r\nx\r",
          ascii "\n0\r\n\r\n"].flatten (.initial [.bare (ascii "GET / HTTP/1.1")] : HTTPResponseParser)) :=
  parsers_take_any_cut.2 _ _ (by decide)
    (HTTPResponseParser.smallRun_of_visited 20 (by decide +kernel))

end Mahimahi
