import Mathlib.Data.List.Forall2
import Mahimahi.HTTPParser

/-!
# The bytes of the stream

What a sequence of messages spells: its complete messages one after the
other, the message in progress as far as it has got, and the buffer. A
header may stand in the stream with any run of spaces in front of its value.

Every turn of the parser and every call keep what the sequence spells, but
for the bytes that a call brings (`Goes.spells`, `Rests.spells`,
`parse_spells`). So nothing that came over the connection is lost, doubled
or moved.
-/

namespace Mahimahi

/-! ## Spelling -/

/-- One after the other, each of `xs` spelled in a way that `R` allows. -/
def SpellAll {α : Type} (R : α → Bytes → Prop) (xs : List α) (s : Bytes) : Prop :=
  ∃ parts, List.Forall₂ R xs parts ∧ s = parts.flatten

theorem spellAll_nil {α : Type} (R : α → Bytes → Prop) : SpellAll R [] [] := ⟨[], .nil, rfl⟩

theorem SpellAll.snoc {α : Type} {R : α → Bytes → Prop} {xs : List α} {x : α} {s t : Bytes}
    (h : SpellAll R xs s) (hx : R x t) : SpellAll R (xs ++ [x]) (s ++ t) := by
  obtain ⟨parts, hparts, rfl⟩ := h
  exact ⟨parts ++ [t], List.rel_append hparts (.cons hx .nil), by simp⟩

/-- The key, a colon, a run of spaces and the value. -/
def HTTPHeader.Spells (h : HTTPHeader) (s : Bytes) : Prop :=
  ∃ k, s = h.key ++ ascii ":" ++ List.replicate k 32 ++ h.value ++ crlf

/-- What has come of a message: nothing, its first line and headers, or its
head and what there is of the body. -/
def HTTPMessage.Spells {X : Type} (m : HTTPMessage X) (s : Bytes) : Prop :=
  match m.state with
  | .firstLinePending => s = []
  | .headersPending => ∃ t, SpellAll HTTPHeader.Spells m.headers t ∧ s = m.firstLine ++ crlf ++ t
  | _ => ∃ t, SpellAll HTTPHeader.Spells m.headers t ∧
      s = m.firstLine ++ crlf ++ t ++ crlf ++ m.body

/-- The complete messages, the message in progress and the buffer. -/
def HTTPMessageSequence.Spells {X S : Type} (c : HTTPMessageSequence X S) (s : Bytes) : Prop :=
  ∃ t u, SpellAll HTTPMessage.Spells c.completeMessages t ∧ c.messageInProgress.Spells u ∧
    s = t ++ u ++ c.buffer

theorem HTTPHeader.spells_of_ofLine {line : Bytes} {h : HTTPHeader} (hh : ofLine line = .ok h) :
    h.Spells (line ++ crlf) := by
  rw [ofLine] at hh
  split at hh
  · cases hh
  · next i hfind =>
      obtain ⟨rest, hrest⟩ := find_prefix hfind
      have hline : line.take i ++ ascii ":" ++ rest = line := by
        rw [List.append_assoc, hrest, List.take_append_drop]
      have hdrop : line.drop (i + 1) = rest := by
        have := congrArg (List.drop 1) hrest
        rw [List.drop_drop] at this
        exact this.symm
      dsimp only at hh
      rw [hdrop] at hh
      split at hh
      · -- only spaces
        cases hh
        exact ⟨0, by simp only [List.replicate_zero, List.append_nil, hline]⟩
      · next k hk =>
          cases hh
          obtain ⟨d, t, -, hrest'⟩ := (findFirstNotOf_eq_some (c := 32)).mp hk
          have hvalue : rest = List.replicate k 32 ++ rest.drop k := by
            rw [hrest', List.drop_left' (by simp)]
          refine ⟨k, ?_⟩
          dsimp only
          rw [List.append_assoc _ _ (rest.drop k), ← hvalue, hline]

namespace HTTPMessageSequence

variable {X S : Type} {c c' : HTTPMessageSequence X S} {s buf : Bytes}

/-! ## Turns and calls -/

theorem spells_initial [HTTPMessageType X] (derived : S) :
    (initial derived : HTTPMessageSequence X S).Spells [] :=
  ⟨[], [], spellAll_nil _, rfl, rfl⟩

theorem Spells.feed (h : c.Spells s) (buf : Bytes) : (c.feed buf).Spells (s ++ buf) := by
  obtain ⟨t, u, ht, hu, rfl⟩ := h
  exact ⟨t, u, ht, hu, by simp [HTTPMessageSequence.feed]⟩

variable [HTTPMessageType X] [HTTPMessageParser X S] [HTTPParserLaws X S]

/-- A turn moves bytes from the buffer to the message in progress, or the
message to the complete ones. -/
theorem Goes.spells (hs : c.Sound) (hgo : Goes c c') (h : c.Spells s) : c'.Spells s := by
  have hin := hs.inProgress
  rw [HTTPMessage.InOrder] at hin
  obtain ⟨t, u, ht, hu, rfl⟩ := h
  rw [HTTPMessage.Spells] at hu
  cases hgo with
  | @firstLine m _ line _ hstate hline hinit =>
      rw [hstate] at hu hin
      have hm : m.headers = [] := by
        rw [(HTTPParserLaws.initialize_ok hinit).1,
          show c.messageInProgress = HTTPMessage.initial from hin]
        rfl
      refine ⟨t, line ++ crlf, ht, ⟨[], ?_, by simp⟩, ?_⟩
      · show SpellAll _ m.headers []
        rw [hm]
        exact spellAll_nil _
      · rw [hu, hline.bytes]
        simp
  | @header line _ _ hstate hline _ hheader =>
      rw [hstate] at hu
      obtain ⟨v, hv, rfl⟩ := hu
      refine ⟨t, c.messageInProgress.firstLine ++ crlf ++ (v ++ (line ++ crlf)), ht, ?_, ?_⟩
      · rw [HTTPMessage.Spells]
        simp only [hstate]
        exact ⟨_, hv.snoc (HTTPHeader.spells_of_ofLine hheader), rfl⟩
      · rw [hline.bytes]
        simp
  | blankLine hstate hline hcalc =>
      rw [hstate] at hu hin
      obtain ⟨v, hv, rfl⟩ := hu
      have hm := (HTTPBodyLaws.calculate_ok hcalc).1
      refine ⟨t, c.messageInProgress.firstLine ++ crlf ++ v ++ crlf ++ [], ht, ?_, ?_⟩
      · rw [hm]
        exact ⟨v, hv, by rw [← hin.1]⟩
      · rw [hline.bytes]
        simp
  | @body n _ hstate hends _ _ =>
      rw [hstate] at hu
      obtain ⟨v, hv, rfl⟩ := hu
      refine ⟨t, c.messageInProgress.firstLine ++ crlf ++ v ++ crlf ++
        (c.messageInProgress.body ++ c.buffer.take n), ht, ⟨v, hv, rfl⟩, ?_⟩
      simp only [List.append_assoc, List.take_append_drop]
  | complete hstate =>
      rw [hstate] at hu
      refine ⟨t ++ u, [], ht.snoc (x := c.messageInProgress) (t := u) ?_, rfl, by simp⟩
      rw [HTTPMessage.Spells, hstate]
      exact hu

theorem Rests.spells (hrest : Rests c c') (h : c.Spells s) : c'.Spells s := by
  cases hrest with
  | line _ _ => exact h
  | body hstate hgo =>
      obtain ⟨t, u, ht, hu, rfl⟩ := h
      rw [HTTPMessage.Spells, hstate] at hu
      obtain ⟨v, hv, rfl⟩ := hu
      refine ⟨t, c.messageInProgress.firstLine ++ crlf ++ v ++ crlf ++
        (c.messageInProgress.body ++ c.buffer), ht, ?_, by simp⟩
      rw [hgo.rest, HTTPMessage.Spells]
      simp only [hstate]
      exact ⟨v, hv, rfl⟩

theorem parseAll_spells (hs : c.Sound) (h : c.Spells s) (hparse : c.parseAll = .ok c') :
    c'.Spells s := by
  refine Sound.induction (P := fun c => c.Spells s → c.parseAll = .ok c' → c'.Spells s)
    ?_ ?_ ?_ hs h hparse
  · intro c c₁ hs hrest h hparse
    rw [parseAll_of_rests hs hrest] at hparse
    cases hparse
    exact hrest.spells h
  · intro c e hs hfail _ hparse
    rw [parseAll_of_fails hs hfail] at hparse
    cases hparse
  · intro c c₁ hs hgo ih h hparse
    rw [parseAll_of_goes hs hgo] at hparse
    exact ih (hgo.spells hs h) hparse

/-- A call adds what it brings. -/
theorem parse_spells (hs : c.Sound) (hstate : c.messageInProgress.state ≠ .complete)
    (h : c.Spells s) (hparse : c.parse buf = .ok c') : c'.Spells (s ++ buf) := by
  rw [parse] at hparse
  split at hparse
  · rcases receiveEof_cases hs hstate with ⟨e, he, -⟩ | ⟨-, he⟩ | ⟨hbody, hu, -, he⟩
    · rw [he] at hparse
      cases hparse
    · rw [he] at hparse
      exact parseAll_spells (hs.feed buf) (h.feed buf) hparse
    · rw [he] at hparse
      refine parseAll_spells ((hs.endMessage hu).feed buf) (Spells.feed ?_ buf) hparse
      obtain ⟨t, u, ht, hu, rfl⟩ := h
      rw [HTTPMessage.Spells, hbody] at hu
      exact ⟨t, u, ht, hu, rfl⟩
  · exact parseAll_spells (hs.feed buf) (h.feed buf) hparse

theorem parseCalls_spells {bufs : List Bytes} (hs : c.Sound)
    (hstate : c.messageInProgress.state ≠ .complete) (h : c.Spells s)
    (hparse : c.parseCalls bufs = .ok c') : c'.Spells (s ++ bufs.flatten) := by
  induction bufs generalizing c s with
  | nil =>
      cases hparse
      simpa using h
  | cons buf bufs ih =>
      obtain ⟨c₁, hc₁, hrest⟩ := bind_eq_ok.mp hparse
      have hord := parse_orderly hs hstate buf
      rw [hc₁] at hord
      have := ih hord.1 hord.2 (parse_spells hs hstate h hc₁) hrest
      simpa using this

end HTTPMessageSequence

namespace HTTPResponseParser

/-- The bytes that the calls bring. -/
def received : List Call → Bytes
  | [] => []
  | .parse buf :: calls => buf ++ received calls
  | .newRequestArrived _ :: calls => received calls

theorem run_spells {c c' : HTTPResponseParser} {calls : List Call} {s : Bytes} (hs : c.Sound)
    (hstate : c.messageInProgress.state ≠ .complete) (h : c.Spells s)
    (hrun : run calls c = .ok c') : c'.Spells (s ++ received calls) := by
  induction calls generalizing c s with
  | nil =>
      cases hrun
      simpa [received] using h
  | cons call calls ih =>
      cases call with
      | newRequestArrived request =>
          exact ih (c := newRequestArrived request c) ⟨hs.inProgress, hs.completed⟩ hstate h hrun
      | parse buf =>
          obtain ⟨c₁, hc₁, hrest⟩ := bind_eq_ok.mp hrun
          have hord := HTTPMessageSequence.parse_orderly hs hstate buf
          rw [hc₁] at hord
          have := ih hord.1 hord.2 (HTTPMessageSequence.parse_spells hs hstate h hc₁) hrest
          simpa [received] using this

end HTTPResponseParser

/-- **The parsers lose, double and move no byte.** -/
theorem parsers_keep_bytes :
    (∀ (bufs : List Bytes) (c : HTTPRequestParser),
      HTTPMessageSequence.parseCalls bufs (.initial ()) = .ok c → c.Spells bufs.flatten) ∧
    ∀ (requests : List HTTPRequest) (calls : List HTTPResponseParser.Call) (c : HTTPResponseParser),
      HTTPResponseParser.run calls (.initial requests) = .ok c →
        c.Spells (HTTPResponseParser.received calls) := by
  refine ⟨fun bufs c hparse => ?_, fun requests calls c hrun => ?_⟩
  · exact HTTPMessageSequence.parseCalls_spells (HTTPMessageSequence.sound_initial ())
      HTTPMessageSequence.initial_state_ne (HTTPMessageSequence.spells_initial ()) hparse
  · exact HTTPResponseParser.run_spells (HTTPMessageSequence.sound_initial requests)
      HTTPMessageSequence.initial_state_ne (HTTPMessageSequence.spells_initial requests) hrun

theorem parsers_keep_bytes_cut :
    ∃ c : HTTPRequestParser,
      HTTPMessageSequence.parseCalls [ascii "GET / H\r\nA", ascii ": b\r\n\r\nG"] (.initial ()) = .ok c ∧
        c.Spells [ascii "GET / H\r\nA", ascii ": b\r\n\r\nG"].flatten :=
  ⟨_, rfl, parsers_keep_bytes.1 _ _ rfl⟩

end Mahimahi
