import Mahimahi.ByteString
import Mahimahi.Loop

/-!
# The parsers for bodies of unknown length

`ChunkedBodyParser::read` is given the bytes of a body as they come and says
how many of the last ones belong to it: all (`none`, for `npos`), or so many
that the body is complete. It keeps what it could not parse yet in a buffer
of its own, and goes round a loop (`readTurn`) until that is used up or more
bytes are needed.

The bytes can be cut anywhere: reading `x` and then `y` is reading `x ++ y`
(`read_append_of_none`, and `read_append_of_some`, `read_append_of_error`
for an `x` that decides the matter). The turns of the three loops are the
same turns, seen through a change of the buffer or of `acked_so_far_`; what
makes the counters agree is that between two reads the parser has
acknowledged just what it has parsed and buffered (`Quiet`).
-/

namespace Mahimahi

/-- The states of `ChunkedBodyParser`. -/
inductive ChunkState where
  | chunkHdr
  | chunk
  | trailer
  deriving DecidableEq, Repr

/-- `ChunkedBodyParser`. -/
structure ChunkedBodyParser where
  parserBuffer : Bytes
  currentChunkSize : Nat
  ackedSoFar : Nat
  parsedSoFar : Nat
  state : ChunkState
  trailersEnabled : Bool
  deriving DecidableEq, Repr

namespace ChunkedBodyParser

def initial (trailersEnabled : Bool) : ChunkedBodyParser where
  parserBuffer := []
  currentChunkSize := 0
  ackedSoFar := 0
  parsedSoFar := 0
  state := .chunkHdr
  trailersEnabled := trailersEnabled

/-- Take a chunk header and parse it assuming no folding. -/
def getChunkSize (chunkHdr : Bytes) : Except Fault Nat := do
  let ending ← substr chunkHdr (sub64 chunkHdr.length 2) 2
  assertThat (ending == crlf) "chunk_hdr.substr( chunk_hdr.length() - 2, 2 ) == CRLF"
  -- a chunk extension or the line's end terminates the chunk size
  match (find (ascii ";") chunkHdr).or (find crlf chunkHdr) with
  | none => throw (.assertion "pos != string::npos")
  | some pos =>
      let hexString ← substr chunkHdr 0 pos
      let hexString := match find (ascii " ") hexString with
        | some spaceLoc => hexString.take spaceLoc
        | none => hexString
      let size ← myatoi hexString 16
      return (size % 2 ^ 32).toNat

/-- Acknowledge `n` more bytes. -/
def ack (p : ChunkedBodyParser) (n : Nat) : ChunkedBodyParser :=
  { p with ackedSoFar := p.ackedSoFar + n }

/-- What ends the trailer. -/
def needle (p : ChunkedBodyParser) : Bytes :=
  if p.trailersEnabled then ascii "\r\n\r\n" else crlf

def computeAckSize (p : ChunkedBodyParser) (haystack needle : Bytes) (inputSize : Nat) :
    Except Fault (Option Nat × ChunkedBodyParser) :=
  match find needle haystack with
  | some loc => do
      let p := { p with parsedSoFar := p.parsedSoFar + (loc + needle.length) }
      assertThat (p.ackedSoFar < p.parsedSoFar) "parsed_so_far_ > acked_so_far_"
      return (some (p.parsedSoFar - p.ackedSoFar), p)
  | none => .ok (none, p.ack inputSize)

/-- One turn of the loop in `read`, for an input of `inputSize` bytes. -/
def readTurn (inputSize : Nat) (p : ChunkedBodyParser) :
    Except Fault (ChunkedBodyParser ⊕ (Option Nat × ChunkedBodyParser)) :=
  if p.parserBuffer.isEmpty then .ok (.inr (none, p.ack inputSize))
  else
    match p.state with
    | .chunkHdr =>
        match find crlf p.parserBuffer with
        | some it => do
            let size ← getChunkSize (p.parserBuffer.take (it + 2))
            return .inl { p with
              currentChunkSize := size
              state := if size = 0 then .trailer else .chunk
              parsedSoFar := p.parsedSoFar + (it + 2)
              parserBuffer := p.parserBuffer.drop (it + 2) }
        | none => .ok (.inr (none, p.ack inputSize))
    | .chunk =>
        -- the sum is one of 32-bit numbers
        if u32 (p.currentChunkSize + 2) ≤ p.parserBuffer.length then do
          let ending ← substr p.parserBuffer p.currentChunkSize 2
          assertThat (ending == crlf) "parser_buffer_.substr( current_chunk_size_, 2 ) == CRLF"
          return .inl { p with
            state := .chunkHdr
            parsedSoFar := p.parsedSoFar + u32 (p.currentChunkSize + 2)
            parserBuffer := p.parserBuffer.drop (u32 (p.currentChunkSize + 2)) }
        else .ok (.inr (none, p.ack inputSize))
    | .trailer => do
        let r ← p.computeAckSize p.parserBuffer p.needle inputSize
        return .inr r

/-- `parser_buffer_ += input_buffer`. -/
def feed (p : ChunkedBodyParser) (input : Bytes) : ChunkedBodyParser :=
  { p with parserBuffer := p.parserBuffer ++ input }

/-- A chunk header takes two bytes off the buffer at least, and two turns
that take nothing off do not follow on each other. -/
def read (input : Bytes) (p : ChunkedBodyParser) :
    Except Fault (Option Nat × ChunkedBodyParser) :=
  loop .diverges (readTurn input.length) (2 * (p.feed input).parserBuffer.length + 2) (p.feed input)

/-! ## What a turn does -/

/-- More bytes are needed. -/
def Stuck (p : ChunkedBodyParser) : Prop :=
  p.parserBuffer = [] ∨
    match p.state with
    | .chunkHdr => find crlf p.parserBuffer = none
    | .chunk => p.parserBuffer.length < u32 (p.currentChunkSize + 2)
    | .trailer => find p.needle p.parserBuffer = none

/-- A turn that goes round again. -/
inductive Advances : ChunkedBodyParser → ChunkedBodyParser → Prop where
  | header {p it size} : p.state = .chunkHdr → find crlf p.parserBuffer = some it →
      getChunkSize (p.parserBuffer.take (it + 2)) = .ok size →
      Advances p { p with
        currentChunkSize := size
        state := if size = 0 then .trailer else .chunk
        parsedSoFar := p.parsedSoFar + (it + 2)
        parserBuffer := p.parserBuffer.drop (it + 2) }
  | chunk {p} : p.state = .chunk → p.parserBuffer ≠ [] →
      u32 (p.currentChunkSize + 2) ≤ p.parserBuffer.length →
      substr p.parserBuffer p.currentChunkSize 2 = .ok crlf →
      Advances p { p with
        state := .chunkHdr
        parsedSoFar := p.parsedSoFar + u32 (p.currentChunkSize + 2)
        parserBuffer := p.parserBuffer.drop (u32 (p.currentChunkSize + 2)) }

/-- A turn in which the bytes of the body are at fault. -/
inductive Malformed : ChunkedBodyParser → Fault → Prop where
  | header {p it e} : p.state = .chunkHdr → find crlf p.parserBuffer = some it →
      getChunkSize (p.parserBuffer.take (it + 2)) = .error e → Malformed p e
  | outOfRange {p e} : p.state = .chunk → p.parserBuffer ≠ [] →
      u32 (p.currentChunkSize + 2) ≤ p.parserBuffer.length →
      substr p.parserBuffer p.currentChunkSize 2 = .error e → Malformed p e
  | ending {p ending} : p.state = .chunk → p.parserBuffer ≠ [] →
      u32 (p.currentChunkSize + 2) ≤ p.parserBuffer.length →
      substr p.parserBuffer p.currentChunkSize 2 = .ok ending → ending ≠ crlf →
      Malformed p (.assertion "parser_buffer_.substr( current_chunk_size_, 2 ) == CRLF")

/-- The body is complete `loc` bytes and a needle into the buffer. -/
structure EndsAt (p : ChunkedBodyParser) (loc : Nat) : Prop where
  state : p.state = .trailer
  find : find p.needle p.parserBuffer = some loc

/-- The assertion about the two counters holds there. -/
def Ahead (p : ChunkedBodyParser) (loc : Nat) : Prop :=
  p.ackedSoFar < p.parsedSoFar + (loc + p.needle.length)

instance (p : ChunkedBodyParser) (loc : Nat) : Decidable (p.Ahead loc) :=
  inferInstanceAs (Decidable (_ < _))

/-- What a turn returns where the body is complete. -/
def finish (p : ChunkedBodyParser) (loc : Nat) : Option Nat × ChunkedBodyParser :=
  (some (p.parsedSoFar + (loc + p.needle.length) - p.ackedSoFar),
    { p with parsedSoFar := p.parsedSoFar + (loc + p.needle.length) })

section

variable {n : Nat} {p p' : ChunkedBodyParser}

theorem crlf_length : crlf.length = 2 := rfl

theorem needle_length_pos (p : ChunkedBodyParser) : 0 < p.needle.length := by
  unfold needle
  split <;> decide

theorem ne_nil_of_find {needle buffer : Bytes} {i : Nat} (hpos : 0 < needle.length)
    (h : find needle buffer = some i) : buffer ≠ [] := by
  rintro rfl
  have := add_length_le_of_find h
  simp only [List.length_nil] at this
  omega

theorem readTurn_of_stuck (h : p.Stuck) : readTurn n p = .ok (.inr (none, p.ack n)) := by
  rcases h with hnil | h
  · simp [readTurn, hnil]
  · unfold readTurn
    split
    · rfl
    · cases hs : p.state with
      | chunkHdr =>
          rw [hs] at h
          replace h : find crlf p.parserBuffer = none := h
          simp only [h]
      | chunk =>
          rw [hs] at h
          replace h : p.parserBuffer.length < u32 (p.currentChunkSize + 2) := h
          simp only [if_neg (Nat.not_le.mpr h)]
      | trailer =>
          rw [hs] at h
          replace h : find p.needle p.parserBuffer = none := h
          simp only [computeAckSize, h, ok_bind, pure_eq_ok]

theorem readTurn_of_advances (h : Advances p p') : readTurn n p = .ok (.inl p') := by
  cases h with
  | header hs hfind hsize =>
      have hne := ne_nil_of_find (by decide) hfind
      simp [readTurn, hne, hs, hfind, hsize]
  | chunk hs hne hle hend => simp [readTurn, hne, hs, hle, hend]

theorem readTurn_of_malformed {e : Fault} (h : Malformed p e) : readTurn n p = .error e := by
  cases h with
  | header hs hfind hsize =>
      have hne := ne_nil_of_find (by decide) hfind
      simp [readTurn, hne, hs, hfind, hsize]
  | outOfRange hs hne hle hsub => simp [readTurn, hne, hs, hle, hsub]
  | ending hs hne hle hsub hend => simp [readTurn, hne, hs, hle, hsub, hend, assertThat]

theorem readTurn_of_endsAt {loc : Nat} (h : p.EndsAt loc) :
    readTurn n p = if p.Ahead loc then .ok (.inr (p.finish loc))
      else .error (.assertion "parsed_so_far_ > acked_so_far_") := by
  have hne := ne_nil_of_find p.needle_length_pos h.find
  by_cases hahead : p.Ahead loc
  · have hlt : p.ackedSoFar < p.parsedSoFar + (loc + p.needle.length) := hahead
    rw [if_pos hahead]
    simp [readTurn, hne, h.state, computeAckSize, h.find, hlt, finish]
  · have hge : ¬ p.ackedSoFar < p.parsedSoFar + (loc + p.needle.length) := hahead
    rw [if_neg hahead]
    simp [readTurn, hne, h.state, computeAckSize, h.find, hge, assertThat]

theorem stuck_or (p : ChunkedBodyParser) :
    p.Stuck ∨ (∃ p', Advances p p') ∨ (∃ e, Malformed p e) ∨ ∃ loc, p.EndsAt loc := by
  by_cases hnil : p.parserBuffer = []
  · exact .inl (.inl hnil)
  · cases hs : p.state with
    | chunkHdr =>
        cases hfind : find crlf p.parserBuffer with
        | none => exact .inl (.inr (by rw [hs]; exact hfind))
        | some it =>
            cases hsize : getChunkSize (p.parserBuffer.take (it + 2)) with
            | ok size => exact .inr (.inl ⟨_, .header hs hfind hsize⟩)
            | error e => exact .inr (.inr (.inl ⟨e, .header hs hfind hsize⟩))
    | chunk =>
        by_cases hle : u32 (p.currentChunkSize + 2) ≤ p.parserBuffer.length
        · cases hsub : substr p.parserBuffer p.currentChunkSize 2 with
          | error e => exact .inr (.inr (.inl ⟨e, .outOfRange hs hnil hle hsub⟩))
          | ok ending =>
              by_cases hend : ending = crlf
              · exact .inr (.inl ⟨_, .chunk hs hnil hle (by rw [hsub, hend])⟩)
              · exact .inr (.inr (.inl ⟨_, .ending hs hnil hle hsub hend⟩))
        · exact .inl (.inr (by rw [hs]; exact Nat.lt_of_not_le hle))
    | trailer =>
        cases hfind : find p.needle p.parserBuffer with
        | none => exact .inl (.inr (by rw [hs]; exact hfind))
        | some loc => exact .inr (.inr (.inr ⟨loc, hs, hfind⟩))

theorem readTurn_again : readTurn n p = .ok (.inl p') ↔ Advances p p' := by
  refine ⟨fun h => ?_, readTurn_of_advances⟩
  rcases stuck_or p with hs | ⟨q, hq⟩ | ⟨e, he⟩ | ⟨loc, hl⟩
  · rw [readTurn_of_stuck hs] at h
    cases h
  · rw [readTurn_of_advances hq] at h
    cases h
    exact hq
  · rw [readTurn_of_malformed he] at h
    cases h
  · rw [readTurn_of_endsAt hl] at h
    split at h <;> cases h

theorem last_turn {o : Except Fault (Option Nat × ChunkedBodyParser)} {input : Bytes}
    (h : Exits (readTurn input.length) (p.feed input) o) :
    ∃ t, Visits (readTurn input.length) (p.feed input) t ∧
      ((t.Stuck ∧ o = .ok (none, t.ack input.length)) ∨ (∃ e, Malformed t e ∧ o = .error e) ∨
        ∃ loc, t.EndsAt loc ∧ o = if t.Ahead loc then .ok (t.finish loc)
          else .error (.assertion "parsed_so_far_ > acked_so_far_")) := by
  obtain ⟨t, hvisits, hlast⟩ := h.last
  refine ⟨t, hvisits, ?_⟩
  rcases stuck_or t with hs | ⟨q, hq⟩ | ⟨e, he⟩ | ⟨loc, hl⟩
  · rcases hlast with ⟨e, hb, -⟩ | ⟨r, hb, ho⟩
    · rw [readTurn_of_stuck hs] at hb
      cases hb
    · rw [readTurn_of_stuck hs] at hb
      cases hb
      exact .inl ⟨hs, ho⟩
  · rcases hlast with ⟨e, hb, -⟩ | ⟨r, hb, -⟩
    · rw [readTurn_of_advances hq] at hb
      cases hb
    · rw [readTurn_of_advances hq] at hb
      cases hb
  · rcases hlast with ⟨e', hb, ho⟩ | ⟨r, hb, -⟩
    · rw [readTurn_of_malformed he] at hb
      cases hb
      exact .inr (.inl ⟨e, he, ho⟩)
    · rw [readTurn_of_malformed he] at hb
      cases hb
  · refine .inr (.inr ⟨loc, hl, ?_⟩)
    by_cases hahead : t.Ahead loc
    · rcases hlast with ⟨e', hb, -⟩ | ⟨r, hb, ho⟩
      · rw [readTurn_of_endsAt hl, if_pos hahead] at hb
        cases hb
      · rw [readTurn_of_endsAt hl, if_pos hahead] at hb
        cases hb
        rw [if_pos hahead, ho]
    · rcases hlast with ⟨e', hb, ho⟩ | ⟨r, hb, -⟩
      · rw [readTurn_of_endsAt hl, if_neg hahead] at hb
        cases hb
        rw [if_neg hahead, ho]
      · rw [readTurn_of_endsAt hl, if_neg hahead] at hb
        cases hb

end

/-! ## Turns seen through a change of the state -/

section

variable {p p' : ChunkedBodyParser} {e : Fault}

@[simp] theorem feed_feed (p : ChunkedBodyParser) (x y : Bytes) :
    (p.feed x).feed y = p.feed (x ++ y) := by
  simp [feed]

/-- The same parser with another count of acknowledged bytes. -/
def withAcked (a : Nat) (p : ChunkedBodyParser) : ChunkedBodyParser := { p with ackedSoFar := a }

/-- What a turn advances to does not depend on what has been acknowledged. -/
theorem Advances.withAcked (a : Nat) (h : Advances p p') :
    Advances (p.withAcked a) (p'.withAcked a) := by
  cases h with
  | header hs hfind hsize => exact .header hs hfind hsize
  | chunk hs hne hle hend => exact .chunk hs hne hle hend

theorem Malformed.withAcked (a : Nat) (h : Malformed p e) : Malformed (p.withAcked a) e := by
  cases h with
  | header hs hfind hsize => exact .header hs hfind hsize
  | outOfRange hs hne hle hsub => exact .outOfRange hs hne hle hsub
  | ending hs hne hle hsub hend => exact .ending hs hne hle hsub hend

/-- The converted chunk size leaves room for the two bytes that end the chunk. -/
def SmallSize (p : ChunkedBodyParser) : Prop := p.currentChunkSize + 2 < 2 ^ 32

theorem SmallSize.u32 (h : p.SmallSize) : u32 (p.currentChunkSize + 2) = p.currentChunkSize + 2 :=
  u32_of_lt h

theorem substr_append {s t : Bytes} {pos len : Nat} (h : pos + len ≤ s.length) :
    substr (s ++ t) pos len = substr s pos len := by
  have hpos : pos ≤ (s ++ t).length := by
    rw [List.length_append]
    omega
  rw [substr_of_le hpos, substr_of_le (by omega), List.drop_append_of_le_length (by omega),
    List.take_append_of_le_length (by rw [List.length_drop]; omega)]

theorem take_append_of_find {x y : Bytes} {it : Nat} (h : find crlf x = some it) :
    (x ++ y).take (it + 2) = x.take (it + 2) :=
  List.take_append_of_le_length (add_length_le_of_find h)

theorem add_two_le_of_substr {s : Bytes} {pos : Nat} (h : substr s pos 2 = .ok crlf) :
    pos + 2 ≤ s.length := by
  unfold substr at h
  split at h
  · cases h
  · have hlen := congrArg List.length (Except.ok.inj h)
    rw [List.length_take, List.length_drop, crlf_length] at hlen
    omega

/-- More bytes at the end of the buffer do not change a turn that goes on. -/
theorem Advances.feed (y : Bytes) (h : Advances p p') :
    Advances (p.feed y) (p'.feed y) := by
  cases h with
  | @header it size hs hfind hsize =>
      have hle : it + 2 ≤ p.parserBuffer.length := add_length_le_of_find hfind
      have h := Advances.header (p := p.feed y) hs (find_append hfind)
        (by rw [← hsize]; exact congrArg getChunkSize (take_append_of_find hfind))
      have hdrop : (p.parserBuffer ++ y).drop (it + 2) = p.parserBuffer.drop (it + 2) ++ y :=
        List.drop_append_of_le_length hle
      simpa [ChunkedBodyParser.feed, hdrop] using h
  | chunk hs hne hle hend =>
      have hdrop : (p.parserBuffer ++ y).drop (Mahimahi.u32 (p.currentChunkSize + 2))
          = p.parserBuffer.drop (Mahimahi.u32 (p.currentChunkSize + 2)) ++ y :=
        List.drop_append_of_le_length hle
      have h := Advances.chunk (p := p.feed y) hs (by simp [ChunkedBodyParser.feed, hne])
        (by simp only [ChunkedBodyParser.feed, List.length_append]; omega)
        ((substr_append (add_two_le_of_substr hend)).trans hend)
      simpa [ChunkedBodyParser.feed, hdrop] using h

theorem Malformed.feed (y : Bytes) (hsmall : p.SmallSize) (h : Malformed p e) :
    Malformed (p.feed y) e := by
  cases h with
  | header hs hfind hsize =>
      exact .header (p := p.feed y) hs (find_append hfind)
        (by rw [← hsize]; exact congrArg getChunkSize (take_append_of_find hfind))
  | outOfRange hs hne hle hsub =>
      -- there are enough bytes for the chunk and its ending
      rw [hsmall.u32] at hle
      rw [substr_of_le (by omega)] at hsub
      cases hsub
  | ending hs hne hle hsub hend =>
      have hle' := hle
      rw [hsmall.u32] at hle'
      exact .ending (p := p.feed y) hs (by simp [ChunkedBodyParser.feed, hne])
        (by simp only [ChunkedBodyParser.feed, List.length_append]; omega)
        ((substr_append hle').trans hsub) hend

theorem EndsAt.feed (y : Bytes) {loc : Nat} (h : p.EndsAt loc) : (p.feed y).EndsAt loc :=
  ⟨h.state, find_append h.find⟩

end

/-! ## The counters -/

section

variable {n : Nat} {p p' : ChunkedBodyParser}

/-- What a turn that goes on leaves alone, and that it parses what it takes
off the buffer. -/
structure Progress (p p' : ChunkedBodyParser) : Prop where
  acked : p'.ackedSoFar = p.ackedSoFar
  trailers : p'.trailersEnabled = p.trailersEnabled
  parsed : p.parsedSoFar ≤ p'.parsedSoFar
  total : p'.parsedSoFar + p'.parserBuffer.length = p.parsedSoFar + p.parserBuffer.length

theorem Progress.refl (p : ChunkedBodyParser) : Progress p p := ⟨rfl, rfl, Nat.le_refl _, rfl⟩

theorem Progress.trans {q : ChunkedBodyParser} (h : Progress p q) (h' : Progress q p') :
    Progress p p' :=
  ⟨h'.acked.trans h.acked, h'.trailers.trans h.trailers, Nat.le_trans h.parsed h'.parsed,
    h'.total.trans h.total⟩

theorem Advances.progress (h : Advances p p') : Progress p p' := by
  cases h with
  | header hs hfind hsize =>
      have hle := add_length_le_of_find hfind
      rw [crlf_length] at hle
      exact ⟨rfl, rfl, Nat.le_add_right _ _, by simp only [List.length_drop]; omega⟩
  | chunk hs hne hle hend =>
      exact ⟨rfl, rfl, Nat.le_add_right _ _, by simp only [List.length_drop]; omega⟩

theorem Visits.progress (h : Visits (readTurn n) p p') : Progress p p' := by
  induction h with
  | refl => exact .refl _
  | again hb _ ih => exact (readTurn_again.mp hb).progress.trans ih

/-- The loop in `read` comes to its end within the turns allowed for. -/
theorem read_exits (input : Bytes) (p : ChunkedBodyParser) :
    Exits (readTurn input.length) (p.feed input) (read input p) := by
  refine exits_loop (I := fun _ => True)
    (μ := fun q => 2 * q.parserBuffer.length + if q.state = .chunk then 1 else 0) ?_ trivial ?_
  · intro s s' _ hb
    refine ⟨trivial, ?_⟩
    cases readTurn_again.mp hb with
    | header hs hfind hsize =>
        have hle := add_length_le_of_find hfind
        rw [crlf_length] at hle
        simp only [List.length_drop, hs]
        split <;> split <;> simp_all <;> omega
    | chunk hs hne hle hend =>
        simp only [List.length_drop, hs, if_true, reduceCtorEq, if_false]
        omega
  · show 2 * (p.feed input).parserBuffer.length + _ < 2 * (p.feed input).parserBuffer.length + 2
    split <;> omega

/-- What holds of the parser between two reads: it has acknowledged what it
has parsed and what it has buffered, and can do nothing with the latter. -/
structure Quiet (p : ChunkedBodyParser) : Prop where
  acked : p.ackedSoFar = p.parsedSoFar + p.parserBuffer.length
  stuck : p.Stuck

theorem quiet_initial (trailersEnabled : Bool) : (initial trailersEnabled).Quiet :=
  ⟨rfl, .inl rfl⟩

/-- The first turn of a read parses all that was buffered before. -/
theorem Quiet.le_of_advances {y : Bytes} (hq : p.Quiet) (h : Advances (p.feed y) p') :
    p.ackedSoFar ≤ p'.parsedSoFar := by
  have hacked := hq.acked
  cases h with
  | @header it size hs hfind hsize =>
      simp only [feed]
      rcases hq.stuck with hnil | hstuck
      · rw [hnil, List.length_nil] at hacked
        omega
      · rw [show p.state = .chunkHdr from hs] at hstuck
        have := find_append_of_none hstuck hfind
        rw [crlf_length] at this
        omega
  | chunk hs hne hle hend =>
      simp only [feed]
      rcases hq.stuck with hnil | hstuck
      · rw [hnil, List.length_nil] at hacked
        omega
      · rw [show p.state = .chunk from hs] at hstuck
        replace hstuck : p.parserBuffer.length < Mahimahi.u32 (p.currentChunkSize + 2) := hstuck
        omega

/-- Where the body ends, more has been parsed than acknowledged: the bytes
that end it were not all there before. -/
theorem Quiet.ahead {y : Bytes} {t : ChunkedBodyParser} (hq : p.Quiet)
    (h : Visits (readTurn n) (p.feed y) t) {loc : Nat} (hl : t.EndsAt loc) : t.Ahead loc := by
  have hpos := t.needle_length_pos
  unfold Ahead
  cases h with
  | refl =>
      have hacked := hq.acked
      show p.ackedSoFar < p.parsedSoFar + (loc + p.needle.length)
      rcases hq.stuck with hnil | hstuck
      · rw [hnil, List.length_nil] at hacked
        replace hpos : 0 < p.needle.length := hpos
        omega
      · rw [show p.state = .trailer from hl.state] at hstuck
        have := find_append_of_none hstuck hl.find
        have hn : (p.feed y).needle.length = p.needle.length := rfl
        omega
  | again hb hv =>
      have hadv := readTurn_again.mp hb
      have hle := hq.le_of_advances hadv
      have hacked := hadv.progress.acked
      have hprogress := Visits.progress hv
      have hparsed := hprogress.parsed
      rw [hprogress.acked, hacked]
      show p.ackedSoFar < _
      omega

end

/-! ## Reading in pieces -/

/-- Every chunk size that the parser works with while it reads `input` leaves
room for the ending of the chunk. -/
def SmallSizes (p : ChunkedBodyParser) (input : Bytes) : Prop :=
  ∀ t, Visits (readTurn input.length) (p.feed input) t → t.SmallSize

instance (p : ChunkedBodyParser) : Decidable p.SmallSize :=
  inferInstanceAs (Decidable (p.currentChunkSize + 2 < 2 ^ 32))

theorem smallSizes_of_visited {p : ChunkedBodyParser} {input : Bytes} (n : Nat)
    (hn : (visited (readTurn input.length) n (p.feed input)).length < n)
    (h : ∀ t ∈ visited (readTurn input.length) n (p.feed input), t.SmallSize) :
    p.SmallSizes input :=
  fun t ht => h t (ht.mem_visited hn)

section

variable {x y : Bytes} {p p₁ : ChunkedBodyParser}

/-- The turns of reading `x` are turns of reading `x ++ y`. -/
theorem visits_feed {t : ChunkedBodyParser} (h : Visits (readTurn x.length) (p.feed x) t) :
    Visits (readTurn (x ++ y).length) (p.feed (x ++ y)) (t.feed y) := by
  have hmap := Visits.map (f := fun q : ChunkedBodyParser => q.feed y)
    (b := readTurn (x ++ y).length) (G := fun _ => True)
    (fun s s' _ hb => readTurn_of_advances ((readTurn_again.mp hb).feed y)) h
  simp only [feed_feed] at hmap
  exact hmap fun _ _ => trivial

theorem visits_withAcked {m n a : Nat} {s t : ChunkedBodyParser}
    (h : Visits (readTurn m) s t) : Visits (readTurn n) (s.withAcked a) (t.withAcked a) :=
  Visits.map (f := withAcked a) (G := fun _ => True)
    (fun _ _ _ hb => readTurn_of_advances ((readTurn_again.mp hb).withAcked a)) h
    fun _ _ => trivial

theorem read_eq {input : Bytes} {t : ChunkedBodyParser}
    {o : Except Fault (Option Nat × ChunkedBodyParser)}
    (hvisits : Visits (readTurn input.length) (p.feed input) t)
    (ho : Exits (readTurn input.length) t o) : p.read input = o :=
  (read_exits input p).unique (hvisits.exits ho)

/-- A read that does not complete the body leaves the parser quiet, with the
input acknowledged. -/
theorem read_none_iff (hq : p.Quiet) :
    p.read x = .ok (none, p₁) ↔ ∃ t, Visits (readTurn x.length) (p.feed x) t ∧ t.Stuck ∧
      p₁ = t.ack x.length := by
  constructor
  · intro h
    have hexits := read_exits x p
    rw [h] at hexits
    obtain ⟨t, hvisits, hlast⟩ := last_turn hexits
    rcases hlast with ⟨hs, ho⟩ | ⟨e, -, ho⟩ | ⟨loc, hl, ho⟩
    · cases ho
      exact ⟨t, hvisits, hs, rfl⟩
    · cases ho
    · rw [if_pos (hq.ahead hvisits hl)] at ho
      cases ho
  · rintro ⟨t, hvisits, hs, rfl⟩
    exact read_eq hvisits (.leave (readTurn_of_stuck hs))

theorem stuck_ack {t : ChunkedBodyParser} (n : Nat) (h : t.Stuck) : (t.ack n).Stuck := h

theorem Quiet.of_read (hq : p.Quiet) (h : p.read x = .ok (none, p₁)) : p₁.Quiet := by
  obtain ⟨t, hvisits, hs, rfl⟩ := (read_none_iff hq).mp h
  have hprogress := Visits.progress hvisits
  have hacked := hq.acked
  have htotal := hprogress.total
  refine ⟨?_, stuck_ack _ hs⟩
  simp only [ack, hprogress.acked]
  simp only [feed, List.length_append] at htotal ⊢
  omega

/-- What a read says counts from the end of what was acknowledged before it:
for a read that takes up `k` bytes more, it is `k` more. -/
def rebase (a k : Nat) : Option Nat × ChunkedBodyParser → Option Nat × ChunkedBodyParser
  | (none, q) => (none, q)
  | (some n, q) => (some (k + n), q.withAcked a)

theorem visits_next {u : ChunkedBodyParser} (hq : p.Quiet) (h : p.read x = .ok (none, p₁))
    (hu : Visits (readTurn y.length) (p₁.feed y) u) :
    Visits (readTurn (x ++ y).length) (p.feed (x ++ y)) (u.withAcked p.ackedSoFar) := by
  obtain ⟨t, hvisits, hs, hp₁⟩ := (read_none_iff hq).mp h
  have hacked : t.ackedSoFar = p.ackedSoFar := (Visits.progress hvisits).acked
  have heq : (p₁.feed y).withAcked p.ackedSoFar = t.feed y := by
    rw [hp₁, ← hacked]
    rfl
  have hrest := visits_withAcked (n := (x ++ y).length) (a := p.ackedSoFar) hu
  rw [heq] at hrest
  exact (visits_feed hvisits).trans hrest

/-- **Cutting the input of a body.** Where `x` does not complete the body,
reading `x` and then `y` is reading `x ++ y`. -/
theorem read_append_of_none (hq : p.Quiet) (h : p.read x = .ok (none, p₁)) :
    p.read (x ++ y) = (p₁.read y).map (rebase p.ackedSoFar x.length) := by
  obtain ⟨t, hvisits, hs, hp₁⟩ := (read_none_iff hq).mp h
  have hq₁ := hq.of_read h
  have hacked : t.ackedSoFar = p.ackedSoFar := (Visits.progress hvisits).acked
  obtain ⟨u, hu, hlast⟩ := last_turn (read_exits y p₁)
  have hu' := visits_next hq h hu
  have huacked : u.ackedSoFar = p.ackedSoFar + x.length := by
    rw [(Visits.progress hu).acked, hp₁, ← hacked]
    rfl
  rcases hlast with ⟨hus, ho⟩ | ⟨e, he, ho⟩ | ⟨loc, hl, ho⟩
  · have hend : (u.withAcked p.ackedSoFar).ack (x ++ y).length = u.ack y.length := by
      simp only [ack, withAcked, huacked, List.length_append, Nat.add_assoc]
    rw [ho, read_eq hu' (.leave (readTurn_of_stuck (p := u.withAcked p.ackedSoFar) hus)), hend]
    rfl
  · rw [ho, read_eq hu' (.error (readTurn_of_malformed (he.withAcked p.ackedSoFar)))]
    rfl
  · have hahead := hq₁.ahead hu hl
    have hl' : (u.withAcked p.ackedSoFar).EndsAt loc := ⟨hl.state, hl.find⟩
    have hahead' := hq.ahead hu' hl'
    have hfinish : (u.withAcked p.ackedSoFar).finish loc
        = rebase p.ackedSoFar x.length (u.finish loc) := by
      unfold Ahead at hahead
      rw [huacked] at hahead
      refine Prod.ext (congrArg some ?_) rfl
      show u.parsedSoFar + (loc + u.needle.length) - p.ackedSoFar
        = x.length + (u.parsedSoFar + (loc + u.needle.length) - u.ackedSoFar)
      omega
    have hturn := readTurn_of_endsAt (n := (x ++ y).length) hl'
    rw [if_pos hahead'] at hturn
    rw [ho, if_pos hahead, read_eq hu' (.leave hturn), hfinish]
    rfl

theorem SmallSizes.right (hq : p.Quiet) (hsmall : p.SmallSizes (x ++ y))
    (h : p.read x = .ok (none, p₁)) : p₁.SmallSizes y :=
  fun u hu => hsmall (u.withAcked p.ackedSoFar) (visits_next hq h hu)

theorem SmallSizes.left (h : p.SmallSizes (x ++ y)) : p.SmallSizes x :=
  fun t ht => show (t.feed y).SmallSize from h _ (visits_feed ht)

/-- The sizes that come up beyond a state on the way, and those up to it. -/
theorem small_of_visits {n : Nat} {s t : ChunkedBodyParser} (hst : Visits (readTurn x.length) s t)
    (hx : ∀ u, Visits (readTurn x.length) s u → u.SmallSize)
    (hy : ∀ u, Visits (readTurn n) (t.feed y) u → u.SmallSize) :
    ∀ u, Visits (readTurn n) (s.feed y) u → u.SmallSize := by
  induction hst with
  | refl => exact hy
  | again hb _ ih =>
      intro u hu
      have hsmall := hx _ (.refl _)
      cases hu with
      | refl => exact hsmall
      | again hb' hrest =>
          rw [readTurn_of_advances ((readTurn_again.mp hb).feed y)] at hb'
          cases hb'
          exact ih (fun u hu => hx u (.again hb hu)) hy u hrest

theorem SmallSizes.append (hq : p.Quiet) (hx : p.SmallSizes x) (h : p.read x = .ok (none, p₁))
    (hy : p₁.SmallSizes y) : p.SmallSizes (x ++ y) := by
  obtain ⟨t, hvisits, -, hp₁⟩ := (read_none_iff hq).mp h
  have heq : (t.feed y).withAcked p₁.ackedSoFar = p₁.feed y := by
    rw [hp₁]
    rfl
  intro u hu
  rw [← feed_feed] at hu
  refine small_of_visits hvisits hx (fun v hv => ?_) u hu
  have := visits_withAcked (n := y.length) (a := p₁.ackedSoFar) hv
  rw [heq] at this
  exact hy (v.withAcked p₁.ackedSoFar) this

theorem SmallSizes.extend {n : Nat} (hq : p.Quiet) (hx : p.SmallSizes x)
    (h : p.read x = .ok (some n, p₁)) : p.SmallSizes (x ++ y) := by
  have hexits := read_exits x p
  rw [h] at hexits
  obtain ⟨t, hvisits, hlast⟩ := last_turn hexits
  rcases hlast with ⟨-, ho⟩ | ⟨e, -, ho⟩ | ⟨loc, hl, ho⟩
  · cases ho
  · cases ho
  · have hsmall := hx t hvisits
    have hahead := hq.ahead hvisits hl
    intro u hu
    rw [← feed_feed] at hu
    refine small_of_visits hvisits hx (fun v hv => ?_) u hu
    have hturn := readTurn_of_endsAt (n := (x ++ y).length) (hl.feed y)
    rw [if_pos (show (t.feed y).Ahead loc from hahead)] at hturn
    cases hv with
    | refl => exact hsmall
    | again hb _ =>
        rw [hturn] at hb
        cases hb

/-- Where `x` completes the body, `y` does not matter. -/
theorem read_append_of_some {n : Nat} (hq : p.Quiet) (h : p.read x = .ok (some n, p₁)) :
    p.read (x ++ y) = .ok (some n, p₁.feed y) := by
  have hexits := read_exits x p
  rw [h] at hexits
  obtain ⟨t, hvisits, hlast⟩ := last_turn hexits
  rcases hlast with ⟨-, ho⟩ | ⟨e, -, ho⟩ | ⟨loc, hl, ho⟩
  · cases ho
  · cases ho
  · rw [if_pos (hq.ahead hvisits hl)] at ho
    have hfinish : (t.feed y).finish loc = (some n, p₁.feed y) := by
      have := Except.ok.inj ho
      rw [finish, Prod.mk.injEq] at this
      obtain ⟨hn, rfl⟩ := this
      rw [hn]
      rfl
    have hl' := hl.feed y
    have hvisits' := visits_feed (y := y) hvisits
    have hturn := readTurn_of_endsAt (n := (x ++ y).length) hl'
    rw [if_pos (hq.ahead hvisits' hl'), hfinish] at hturn
    exact read_eq hvisits' (.leave hturn)

theorem read_append_of_error {e : Fault} (hq : p.Quiet) (hsmall : p.SmallSizes (x ++ y))
    (h : p.read x = .error e) : p.read (x ++ y) = .error e := by
  have hexits := read_exits x p
  rw [h] at hexits
  obtain ⟨t, hvisits, hlast⟩ := last_turn hexits
  have hvisits' := visits_feed (y := y) hvisits
  rcases hlast with ⟨-, ho⟩ | ⟨e', he, ho⟩ | ⟨loc, hl, ho⟩
  · cases ho
  · cases ho
    exact read_eq hvisits'
      (.error (readTurn_of_malformed (he.feed y (hsmall (t.feed y) hvisits'))))
  · rw [if_pos (hq.ahead hvisits hl)] at ho
    cases ho

/-- How many bytes complete the body: at least one, and no more than came. -/
theorem read_some_bounds {n : Nat} (hq : p.Quiet) (h : p.read x = .ok (some n, p₁)) :
    0 < n ∧ n ≤ x.length := by
  have hexits := read_exits x p
  rw [h] at hexits
  obtain ⟨t, hvisits, hlast⟩ := last_turn hexits
  rcases hlast with ⟨-, ho⟩ | ⟨e, -, ho⟩ | ⟨loc, hl, ho⟩
  · cases ho
  · cases ho
  · have hahead := hq.ahead hvisits hl
    have hle := add_length_le_of_find hl.find
    have hprogress := Visits.progress hvisits
    have htotal := hprogress.total
    have hacked := hprogress.acked
    have hqacked := hq.acked
    rw [if_pos hahead] at ho
    obtain ⟨rfl, -⟩ : n = t.parsedSoFar + (loc + t.needle.length) - t.ackedSoFar ∧ _ := by
      simpa [finish] using ho
    unfold Ahead at hahead
    simp only [feed, List.length_append] at htotal hacked
    omega

theorem read_take {n : Nat} (hq : p.Quiet) (hsmall : p.SmallSizes x)
    (h : p.read x = .ok (some n, p₁)) : ∃ p₂, p.read (x.take n) = .ok (some n, p₂) := by
  obtain ⟨-, hn⟩ := read_some_bounds hq h
  have hsplit : x.take n ++ x.drop n = x := List.take_append_drop n x
  have hlen : (x.take n).length = n := by
    rw [List.length_take]
    omega
  rw [← hsplit] at hsmall h
  cases htake : p.read (x.take n) with
  | error e =>
      rw [read_append_of_error hq hsmall htake] at h
      cases h
  | ok r =>
      obtain ⟨o, p₂⟩ := r
      cases o with
      | some m =>
          rw [read_append_of_some hq htake] at h
          simp only [Except.ok.injEq, Prod.mk.injEq, Option.some.injEq] at h
          exact ⟨p₂, by rw [h.1]⟩
      | none =>
          -- what is left would have to complete it without a byte
          rw [read_append_of_none hq htake] at h
          cases hdrop : p₂.read (x.drop n) with
          | error e =>
              rw [hdrop] at h
              cases h
          | ok r =>
              obtain ⟨o, p₃⟩ := r
              rw [hdrop] at h
              cases o with
              | none => cases h
              | some m =>
                  have hm := (read_some_bounds (hq.of_read htake) hdrop).1
                  simp only [Except.map, rebase, Except.ok.injEq, Prod.mk.injEq,
                    Option.some.injEq] at h
                  omega

end

end ChunkedBodyParser

/-! ## BodyParser -/

/-- The subclasses of `BodyParser`. -/
inductive BodyParser where
  | rule5
  | chunked (p : ChunkedBodyParser)
  deriving DecidableEq, Repr

namespace BodyParser

def read (str : Bytes) : BodyParser → Except Fault (Option Nat × BodyParser)
  -- all of buffer always belongs to body
  | rule5 => .ok (none, rule5)
  | chunked p => (p.read str).map (.map id chunked)

/-- Does message become complete upon EOF in body? -/
def eof : BodyParser → Bool
  | rule5 => true
  | chunked _ => true

/-- What holds of a body parser between two reads. -/
def Quiet : BodyParser → Prop
  | rule5 => True
  | chunked p => p.Quiet

/-- Every chunk size that comes up in reading `input` leaves room for the
ending of the chunk. -/
def SmallSizes (input : Bytes) : BodyParser → Prop
  | rule5 => True
  | chunked p => p.SmallSizes input

section

variable {x y : Bytes} {b b₁ : BodyParser}

theorem read_chunked {p : ChunkedBodyParser} {o : Option Nat}
    (h : (chunked p).read x = .ok (o, b)) : ∃ p₁, b = chunked p₁ ∧ p.read x = .ok (o, p₁) := by
  cases hread : p.read x with
  | error e =>
      rw [read, hread] at h
      cases h
  | ok r =>
      rw [read, hread] at h
      cases h
      exact ⟨r.2, rfl, rfl⟩

theorem read_chunked_error {p : ChunkedBodyParser} {e : Fault}
    (h : (chunked p).read x = .error e) : p.read x = .error e := by
  cases hread : p.read x with
  | error e' =>
      rw [read, hread] at h
      cases h
      rfl
  | ok r =>
      rw [read, hread] at h
      cases h

theorem Quiet.of_read (hq : b.Quiet) (h : b.read x = .ok (none, b₁)) : b₁.Quiet := by
  cases b with
  | rule5 =>
      cases h
      trivial
  | chunked p =>
      obtain ⟨p₁, rfl, hread⟩ := read_chunked h
      exact ChunkedBodyParser.Quiet.of_read hq hread

/-- Reading `x` and then `y`, as far as a caller sees it, up to the parser
that is left behind when the body is complete. -/
theorem read_append_of_none (hq : b.Quiet) (hsmall : b.SmallSizes (x ++ y))
    (h : b.read x = .ok (none, b₁)) :
    (∀ e, b₁.read y = .error e → b.read (x ++ y) = .error e) ∧
      (∀ b₂, b₁.read y = .ok (none, b₂) → b.read (x ++ y) = .ok (none, b₂)) ∧
      (∀ n b₂, b₁.read y = .ok (some n, b₂) →
        ∃ b₃, b.read (x ++ y) = .ok (some (x.length + n), b₃)) ∧
      b₁.SmallSizes y := by
  cases b with
  | rule5 =>
      cases h
      refine ⟨fun e he => ?_, fun b₂ hb => hb, fun n b₂ hb => ?_, trivial⟩
      · cases he
      · cases hb
  | chunked p =>
      obtain ⟨p₁, rfl, hread⟩ := read_chunked h
      have happend := ChunkedBodyParser.read_append_of_none (y := y) hq hread
      have hsmall₁ := ChunkedBodyParser.SmallSizes.right hq hsmall hread
      refine ⟨fun e he => ?_, fun b₂ hb => ?_, fun n b₂ hb => ?_, hsmall₁⟩
      · rw [read_chunked_error he] at happend
        rw [read, happend]
        rfl
      · obtain ⟨p₂, rfl, hread₂⟩ := read_chunked hb
        rw [hread₂] at happend
        rw [read, happend]
        rfl
      · obtain ⟨p₂, rfl, hread₂⟩ := read_chunked hb
        rw [hread₂] at happend
        rw [read, happend]
        exact ⟨_, rfl⟩

theorem SmallSizes.left (h : b.SmallSizes (x ++ y)) : b.SmallSizes x := by
  cases b with
  | rule5 => trivial
  | chunked p => exact ChunkedBodyParser.SmallSizes.left h

theorem SmallSizes.append (hq : b.Quiet) (hx : b.SmallSizes x) (h : b.read x = .ok (none, b₁))
    (hy : b₁.SmallSizes y) : b.SmallSizes (x ++ y) := by
  cases b with
  | rule5 => trivial
  | chunked p =>
      obtain ⟨p₁, rfl, hread⟩ := read_chunked h
      exact ChunkedBodyParser.SmallSizes.append hq hx hread hy

theorem SmallSizes.extend {n : Nat} (hq : b.Quiet) (hx : b.SmallSizes x)
    (h : b.read x = .ok (some n, b₁)) : b.SmallSizes (x ++ y) := by
  cases b with
  | rule5 => trivial
  | chunked p =>
      obtain ⟨p₁, rfl, hread⟩ := read_chunked h
      exact ChunkedBodyParser.SmallSizes.extend hq hx hread

theorem read_append_of_some {n : Nat} (hq : b.Quiet) (h : b.read x = .ok (some n, b₁)) :
    ∃ b₂, b.read (x ++ y) = .ok (some n, b₂) := by
  cases b with
  | rule5 => cases h
  | chunked p =>
      obtain ⟨p₁, rfl, hread⟩ := read_chunked h
      rw [read, ChunkedBodyParser.read_append_of_some hq hread]
      exact ⟨_, rfl⟩

theorem read_append_of_error {e : Fault} (hq : b.Quiet) (hsmall : b.SmallSizes (x ++ y))
    (h : b.read x = .error e) : b.read (x ++ y) = .error e := by
  cases b with
  | rule5 => cases h
  | chunked p =>
      rw [read, ChunkedBodyParser.read_append_of_error hq hsmall (read_chunked_error h)]
      rfl

theorem read_some_bounds {n : Nat} (hq : b.Quiet) (h : b.read x = .ok (some n, b₁)) :
    0 < n ∧ n ≤ x.length := by
  cases b with
  | rule5 => cases h
  | chunked p =>
      obtain ⟨p₁, rfl, hread⟩ := read_chunked h
      exact ChunkedBodyParser.read_some_bounds hq hread

theorem read_take {n : Nat} (hq : b.Quiet) (hsmall : b.SmallSizes x)
    (h : b.read x = .ok (some n, b₁)) : ∃ b₂, b.read (x.take n) = .ok (some n, b₂) := by
  cases b with
  | rule5 => cases h
  | chunked p =>
      obtain ⟨p₁, rfl, hread⟩ := read_chunked h
      obtain ⟨p₂, htake⟩ := ChunkedBodyParser.read_take hq hsmall hread
      rw [read, htake]
      exact ⟨_, rfl⟩

end

end BodyParser

end Mahimahi
