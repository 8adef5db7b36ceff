import Mahimahi.Run
import Mahimahi.ChunkSize

/-!
# Bodies that come in pieces

The calls of `ChunkedBodyParser::read` for one body: each input is read while
the parser asks for more, up to the call that completes the body or does not
return.

- The counters are those of the stream (`acknowledgements_add_up`): what is
  buffered is what has been received and not been parsed.
- A call is the call that would read all of the stream at once
  (`Follows`). So the first call that fails an assertion is the one in which
  the bytes received show a chunk that is not followed by a line ending
  (`errors_not_aborts_iff`).
- For the same reason a chunked body ends in the same place however it is cut
  (`chunked_body_ends_iff`), if the parser looks for the ending that the body has.
-/

namespace Mahimahi

namespace ChunkedBodyParser

/-! ## The calls -/

/-- What the last call came to, and the inputs so far. -/
structure BodyRun where
  outcome : Except Fault (Option Nat × ChunkedBodyParser)
  inputs : List Bytes

namespace BodyRun

/-- The bytes so far. -/
def stream (s : BodyRun) : Bytes := s.inputs.flatten

def start (trailersEnabled : Bool) : BodyRun := ⟨.ok (none, .initial trailersEnabled), []⟩

/-- The next call, while the parser asks for more. -/
def step (s : BodyRun) (input : Bytes) : Option BodyRun :=
  match s.outcome with
  | .ok (none, p) => some ⟨p.read input, s.inputs ++ [input]⟩
  | _ => none

variable {s s' : BodyRun} {x : Bytes}

theorem step_eq_some : s.step x = some s' ↔
    ∃ p, s.outcome = .ok (none, p) ∧ s' = ⟨p.read x, s.inputs ++ [x]⟩ := by
  unfold step
  split
  · next p h => simp [h, eq_comm]
  · next h => simpa using fun p hp => absurd hp (h p)

theorem stream_append (o : Except Fault (Option Nat × ChunkedBodyParser)) :
    stream ⟨o, s.inputs ++ [x]⟩ = s.stream ++ x := by
  simp [stream]

end BodyRun

/-! ## The counters -/

/-- The buffer is what the stream has behind the bytes that have been parsed. -/
structure Tracks (stream : Bytes) (p : ChunkedBodyParser) : Prop where
  parsed : p.parsedSoFar ≤ stream.length
  buffer : p.parserBuffer = stream.drop p.parsedSoFar

section

variable {stream x : Bytes} {p p' t : ChunkedBodyParser} {n : Nat}

theorem Tracks.total (h : Tracks stream p) :
    p.parsedSoFar + p.parserBuffer.length = stream.length := by
  have hparsed := h.parsed
  rw [h.buffer, List.length_drop]
  omega

theorem Tracks.feed (h : Tracks stream p) (x : Bytes) : Tracks (stream ++ x) (p.feed x) := by
  refine ⟨?_, ?_⟩
  · rw [List.length_append]
    exact Nat.le_add_right_of_le h.parsed
  · show p.parserBuffer ++ x = _
    rw [h.buffer]
    exact (List.drop_append_of_le_length h.parsed).symm

theorem Tracks.advances (h : Tracks stream p) (hadv : Advances p p') : Tracks stream p' := by
  have htotal := hadv.progress.total
  have hp := h.total
  cases hadv with
  | header hs hfind hsize =>
      refine ⟨by simp only at htotal ⊢; omega, ?_⟩
      show p.parserBuffer.drop _ = _
      rw [h.buffer, List.drop_drop]
  | chunk hs hne hle hend =>
      refine ⟨by simp only at htotal ⊢; omega, ?_⟩
      show p.parserBuffer.drop _ = _
      rw [h.buffer, List.drop_drop]

theorem Tracks.visits (h : Tracks stream p) (hv : Visits (readTurn n) p t) : Tracks stream t := by
  induction hv with
  | refl => exact h
  | again hb _ ih => exact ih (h.advances (readTurn_again.mp hb))

end

/-- What a failed call throws: a C++ exception, not an abort. -/
def isException : Fault → Bool
  | .runtimeError _ | .runtimeErrorWith _ _ | .systemError _ | .outOfRange => true
  | .assertion _ | .outOfBounds | .diverges => false

theorem isException_of_myatoi {s : Bytes} {base : Nat} {e : Fault} (h : myatoi s base = .error e) :
    isException e = true := by
  unfold myatoi at h
  split at h
  · cases h
    rfl
  · simp only at h
    split at h
    · cases h
      rfl
    · split at h <;> cases h
      rfl

theorem exists_hdr {buffer : Bytes} {it : Nat} (h : find crlf buffer = some it) :
    ∃ hdr rest, buffer = hdr ++ crlf ++ rest ∧ NoCrlf hdr ∧ it = hdr.length := by
  have hle := add_length_le_of_find h
  obtain ⟨rest, hrest⟩ := find_prefix h
  have hlen : (buffer.take it).length = it := by
    rw [List.length_take]
    omega
  have hsplit : buffer = buffer.take it ++ crlf ++ rest := by
    rw [List.append_assoc, hrest, List.take_append_drop]
  refine ⟨buffer.take it, rest, hsplit, ?_, hlen.symm⟩
  rw [← find_crlf_eq_length (buffer.take it) rest, ← hsplit, hlen, h]

theorem take_hdr (hdr rest : Bytes) : (hdr ++ crlf ++ rest).take (hdr.length + 2) = hdr ++ crlf :=
  List.take_left' (by rw [List.length_append, crlf_length])

theorem drop_hdr (hdr rest : Bytes) : (hdr ++ crlf ++ rest).drop (hdr.length + 2) = rest :=
  List.drop_left' (by rw [List.length_append, crlf_length])

theorem isException_of_getChunkSize {hdr : Bytes} {e : Fault} (h : NoCrlf hdr)
    (he : getChunkSize (hdr ++ crlf) = .error e) : isException e = true := by
  rw [getChunkSize_line h] at he
  cases hm : myatoi (sizeText hdr) 16 with
  | ok v =>
      rw [hm] at he
      cases he
  | error e' =>
      rw [hm] at he
      cases he
      exact isException_of_myatoi hm

/-- The one fault that is no exception. -/
theorem Malformed.isException_or {p : ChunkedBodyParser} {e : Fault} (h : Malformed p e) :
    isException e = true ∨
      e = .assertion "parser_buffer_.substr( current_chunk_size_, 2 ) == CRLF" := by
  cases h with
  | header hs hfind hsize =>
      obtain ⟨hdr, rest, hbuffer, hline, rfl⟩ := exists_hdr hfind
      rw [hbuffer, take_hdr] at hsize
      exact .inl (isException_of_getChunkSize hline hsize)
  | outOfRange hs hne hle hsub =>
      unfold substr at hsub
      split at hsub <;> cases hsub
      exact .inl rfl
  | ending hs hne hle hsub hend => exact .inr rfl

/-- How a read of a quiet parser ends. -/
inductive Reads (p : ChunkedBodyParser) (x : Bytes) :
    Except Fault (Option Nat × ChunkedBodyParser) → Prop where
  | more {t} : Visits (readTurn x.length) (p.feed x) t → t.Stuck →
      Reads p x (.ok (none, t.ack x.length))
  | malformed {t e} : Visits (readTurn x.length) (p.feed x) t → Malformed t e →
      Reads p x (.error e)
  | complete {t loc} : Visits (readTurn x.length) (p.feed x) t → t.EndsAt loc → t.Ahead loc →
      Reads p x (.ok (t.finish loc))

theorem Quiet.reads {p : ChunkedBodyParser} (hq : p.Quiet) (x : Bytes) :
    Reads p x (p.read x) := by
  obtain ⟨t, hvisits, hlast⟩ := last_turn (read_exits x p)
  rcases hlast with ⟨hs, ho⟩ | ⟨e, he, ho⟩ | ⟨loc, hl, ho⟩
  · rw [ho]
    exact .more hvisits hs
  · rw [ho]
    exact .malformed hvisits he
  · have hahead := hq.ahead hvisits hl
    rw [ho, if_pos hahead]
    exact .complete hvisits hl hahead

/-- What a call has to say about the stream. -/
inductive Accounted (trailersEnabled : Bool) (s : BodyRun) : Prop where
  | more {p} : s.outcome = .ok (none, p) → p.ackedSoFar = s.stream.length →
      p.parsedSoFar + p.parserBuffer.length = s.stream.length →
      p.parserBuffer = s.stream.drop p.parsedSoFar → Accounted trailersEnabled s
  | complete {n p earlier last start loc} : s.outcome = .ok (some n, p) →
      s.inputs = earlier ++ [last] → p.ackedSoFar = earlier.flatten.length →
      1 ≤ n → n ≤ last.length → start ≤ s.stream.length →
      p.parserBuffer = s.stream.drop start →
      find (initial trailersEnabled).needle (s.stream.drop start) = some loc →
      p.parsedSoFar = start + loc + (initial trailersEnabled).needle.length →
      n = p.parsedSoFar - p.ackedSoFar → Accounted trailersEnabled s
  | failed {e} : s.outcome = .error e → e ≠ .assertion "parsed_so_far_ > acked_so_far_" →
      Accounted trailersEnabled s

/-- What the calls keep up. -/
structure BodyRun.Inv (trailersEnabled : Bool) (s : BodyRun) : Prop where
  accounted : Accounted trailersEnabled s
  quiet : ∀ p, s.outcome = .ok (none, p) → p.Quiet ∧ p.trailersEnabled = trailersEnabled

theorem BodyRun.inv_start (trailersEnabled : Bool) : (start trailersEnabled).Inv trailersEnabled := by
  refine ⟨.more rfl rfl rfl rfl, fun p hp => ?_⟩
  obtain rfl : initial trailersEnabled = p := by simpa [start] using hp
  exact ⟨quiet_initial trailersEnabled, rfl⟩

theorem BodyRun.Inv.step {trailersEnabled : Bool} {s s' : BodyRun} {x : Bytes}
    (h : s.Inv trailersEnabled) (hs : s.step x = some s') : s'.Inv trailersEnabled := by
  obtain ⟨p, hp, rfl⟩ := step_eq_some.mp hs
  obtain ⟨hquiet, henabled⟩ := h.quiet p hp
  obtain ⟨hacked, htracks⟩ : p.ackedSoFar = s.stream.length ∧ Tracks s.stream p := by
    cases h.accounted with
    | more ho hacked htotal hbuffer =>
        rw [hp] at ho
        cases ho
        exact ⟨hacked, by omega, hbuffer⟩
    | complete ho => rw [hp] at ho; cases ho
    | failed ho => rw [hp] at ho; cases ho
  have hreads := hquiet.reads x
  generalize hr : p.read x = o at hreads
  cases hreads with
  | @more t hvisits hstuck =>
      have htracks' := (htracks.feed x).visits hvisits
      have hprogress := Visits.progress hvisits
      refine ⟨.more rfl ?_ ?_ ?_, fun p₁ hp₁ => ?_⟩
      · rw [stream_append, List.length_append, ← hacked]
        show t.ackedSoFar + x.length = _
        rw [hprogress.acked]
        rfl
      · rw [stream_append]
        exact htracks'.total
      · rw [stream_append]
        exact htracks'.buffer
      · obtain rfl : t.ack x.length = p₁ := by simpa using hp₁
        refine ⟨hquiet.of_read hr, ?_⟩
        show t.trailersEnabled = _
        rw [hprogress.trailers]
        exact henabled
  | @malformed t e hvisits he =>
      refine ⟨.failed rfl ?_, fun p₁ hp₁ => by simp at hp₁⟩
      rintro rfl
      rcases he.isException_or with h | h <;> simp [isException] at h
  | @complete t loc hvisits hl hahead =>
      have htracks' := (htracks.feed x).visits hvisits
      have hprogress := Visits.progress hvisits
      have hbounds := read_some_bounds hquiet hr
      have hneedle : t.needle = (initial trailersEnabled).needle := by
        rw [needle, needle, hprogress.trailers]
        show (if p.trailersEnabled then _ else _) = (if trailersEnabled then _ else _)
        rw [henabled]
      have hstart : t.parsedSoFar ≤ (s.stream ++ x).length := htracks'.parsed
      have hbuffer : (t.finish loc).2.parserBuffer = (s.stream ++ x).drop t.parsedSoFar :=
        htracks'.buffer
      have hfind : find (initial trailersEnabled).needle ((s.stream ++ x).drop t.parsedSoFar)
          = some loc := by
        rw [← hneedle, ← htracks'.buffer]
        exact hl.find
      have hparsed : (t.finish loc).2.parsedSoFar
          = t.parsedSoFar + loc + (initial trailersEnabled).needle.length := by
        rw [← hneedle]
        exact (Nat.add_assoc _ _ _).symm
      rw [← stream_append (.ok (t.finish loc))] at hstart hbuffer hfind
      refine ⟨.complete rfl rfl ?_ hbounds.1 hbounds.2 hstart hbuffer hfind hparsed rfl,
        fun p₁ hp₁ => by simp [finish] at hp₁⟩
      rw [← stream, ← hacked]
      exact hprogress.acked

/-- **The acknowledgements add up.** -/
theorem acknowledgements_add_up (trailersEnabled : Bool) (inputs : List Bytes) :
    Always BodyRun.step (Accounted trailersEnabled) (.start trailersEnabled) inputs :=
  always_of_eachStep (fun _ h => h.accounted) (fun _ _ _ h hs _ => h.step hs)
    (BodyRun.inv_start trailersEnabled) (eachStep_true _ _ _)

/-! ## The calls and the stream -/

/-- A call is the call that would read the whole stream at once. -/
def BodyRun.Follows (trailersEnabled : Bool) (s : BodyRun) : Prop :=
  ∀ p, s.outcome = .ok (none, p) → p.Quiet ∧ (initial trailersEnabled).read s.stream = .ok (none, p)

theorem BodyRun.follows_start (trailersEnabled : Bool) :
    (start trailersEnabled).Follows trailersEnabled := by
  intro p hp
  obtain rfl : initial trailersEnabled = p := by simpa [start] using hp
  exact ⟨quiet_initial trailersEnabled, rfl⟩

theorem BodyRun.Follows.read {trailersEnabled : Bool} {s : BodyRun} {p : ChunkedBodyParser}
    (h : s.Follows trailersEnabled) (hp : s.outcome = .ok (none, p)) (x : Bytes) :
    (initial trailersEnabled).read (s.stream ++ x)
      = (p.read x).map (rebase 0 s.stream.length) :=
  read_append_of_none (quiet_initial trailersEnabled) (h p hp).2

theorem BodyRun.Follows.step {trailersEnabled : Bool} {s s' : BodyRun} {x : Bytes}
    (h : s.Follows trailersEnabled) (hs : s.step x = some s') : s'.Follows trailersEnabled := by
  obtain ⟨p, hp, rfl⟩ := step_eq_some.mp hs
  intro p₁ hp₁
  have hread : p.read x = .ok (none, p₁) := hp₁
  refine ⟨(h p hp).1.of_read hread, ?_⟩
  rw [stream_append, h.read hp, hread]
  rfl

/-! ## Malformed streams -/

/-- The bytes show a chunk that is not followed by a line ending: `none` in
front of a header line, `some n` in front of the data of a chunk of `n`
bytes. The two bytes behind the data are looked at when
`current_chunk_size_ + 2` bytes are there, in 32 bits. -/
inductive Spoiled : Option Nat → Bytes → Prop where
  | header {hdr n s} : NoCrlf hdr → HasSize hdr n → n ≠ 0 → Spoiled (some n) s →
      Spoiled none (hdr ++ crlf ++ s)
  | chunk {n s} : (s.drop n).take 2 = crlf → Spoiled none (s.drop (u32 (n + 2))) →
      Spoiled (some n) s
  | ending {n s} : s ≠ [] → u32 (n + 2) ≤ s.length → n ≤ s.length → (s.drop n).take 2 ≠ crlf →
      Spoiled (some n) s

theorem spoiled_none_inv {buffer : Bytes} (h : Spoiled none buffer) :
    ∃ hdr n s, buffer = hdr ++ crlf ++ s ∧ NoCrlf hdr ∧ getChunkSize (hdr ++ crlf) = .ok n ∧
      n ≠ 0 ∧ Spoiled (some n) s := by
  cases h with
  | header hline hsize hn hs =>
      exact ⟨_, _, _, rfl, hline, (getChunkSize_eq_ok hline).mpr hsize, hn, hs⟩

theorem spoiled_header {hdr s : Bytes} (hline : NoCrlf hdr) :
    Spoiled none (hdr ++ crlf ++ s) ↔
      ∃ n, getChunkSize (hdr ++ crlf) = .ok n ∧ n ≠ 0 ∧ Spoiled (some n) s := by
  constructor
  · intro h
    obtain ⟨hdr', n, s', heq, hline', hsize, hn, hs⟩ := spoiled_none_inv h
    have hfind := (find_crlf_eq_length hdr s).mpr hline
    rw [heq, (find_crlf_eq_length hdr' s').mpr hline'] at hfind
    rw [List.append_assoc, List.append_assoc] at heq
    obtain ⟨rfl, hrest⟩ := List.append_inj heq (Option.some.inj hfind).symm
    obtain rfl := List.append_cancel_left hrest
    exact ⟨n, hsize, hn, hs⟩
  · rintro ⟨n, hsize, hn, hs⟩
    exact .header hline ((getChunkSize_eq_ok hline).mp hsize) hn hs

theorem spoiled_chunk {n : Nat} {s : Bytes} (h : (s.drop n).take 2 = crlf) :
    Spoiled (some n) s ↔ Spoiled none (s.drop (u32 (n + 2))) := by
  refine ⟨fun hs => ?_, .chunk h⟩
  cases hs with
  | chunk _ hrest => exact hrest
  | ending _ _ _ hne => exact absurd h hne

theorem spoiled_ending {n : Nat} {s : Bytes} (h : (s.drop n).take 2 ≠ crlf) :
    Spoiled (some n) s ↔ s ≠ [] ∧ u32 (n + 2) ≤ s.length ∧ n ≤ s.length := by
  refine ⟨fun hs => ?_, fun ⟨hne, hle, hn⟩ => .ending hne hle hn h⟩
  cases hs with
  | chunk hend _ => exact absurd hend h
  | ending hne hle hn _ => exact ⟨hne, hle, hn⟩

/-- The bytes that a parser has in front of it do. -/
def SpoiledAt (p : ChunkedBodyParser) : Prop :=
  match p.state with
  | .chunkHdr => Spoiled none p.parserBuffer
  | .chunk => Spoiled (some p.currentChunkSize) p.parserBuffer
  | .trailer => False

section

variable {p p' t : ChunkedBodyParser} {n : Nat}

theorem spoiledAt_chunkHdr (h : p.state = .chunkHdr) :
    SpoiledAt p ↔ Spoiled none p.parserBuffer := by
  rw [SpoiledAt, h]

theorem spoiledAt_chunk (h : p.state = .chunk) :
    SpoiledAt p ↔ Spoiled (some p.currentChunkSize) p.parserBuffer := by
  rw [SpoiledAt, h]

theorem substr_eq_ok {s r : Bytes} {pos len : Nat} :
    substr s pos len = .ok r ↔ pos ≤ s.length ∧ (s.drop pos).take len = r := by
  unfold substr
  split
  · next h => simp [Nat.not_le.mpr h]
  · next h => simp [Nat.le_of_not_lt h]

theorem Advances.spoiledAt (h : Advances p p') : SpoiledAt p ↔ SpoiledAt p' := by
  cases h with
  | @header it size hs hfind hsize =>
      obtain ⟨hdr, rest, hbuffer, hline, rfl⟩ := exists_hdr hfind
      rw [hbuffer, take_hdr] at hsize
      rw [spoiledAt_chunkHdr hs, hbuffer, drop_hdr, spoiled_header hline]
      have hsame : (∃ n, getChunkSize (hdr ++ crlf) = .ok n ∧ n ≠ 0 ∧ Spoiled (some n) rest) ↔
          size ≠ 0 ∧ Spoiled (some size) rest := by
        simp [hsize]
      rw [hsame]
      by_cases hzero : size = 0
      · simp [hzero, SpoiledAt]
      · simp [hzero, SpoiledAt]
  | chunk hs hne hle hend =>
      rw [spoiledAt_chunk hs, spoiled_chunk (substr_eq_ok.mp hend).2]
      rfl

theorem not_spoiled_nil (o : Option Nat) : ¬ Spoiled o [] := by
  intro h
  cases o with
  | none =>
      obtain ⟨hdr, n, s, hnil, -⟩ := spoiled_none_inv h
      simp [crlf, ascii] at hnil
  | some n =>
      rw [spoiled_ending (by simp [crlf, ascii])] at h
      exact h.1 rfl

theorem Stuck.not_spoiledAt (h : p.Stuck) : ¬ SpoiledAt p := by
  rcases h with hnil | h
  · unfold SpoiledAt
    rw [hnil]
    split
    · exact not_spoiled_nil _
    · exact not_spoiled_nil _
    · exact id
  · cases hs : p.state with
    | chunkHdr =>
        rw [hs] at h
        replace h : find crlf p.parserBuffer = none := h
        rw [spoiledAt_chunkHdr hs]
        intro hspoiled
        obtain ⟨hdr, n, s, hbuffer, hline, -⟩ := spoiled_none_inv hspoiled
        rw [hbuffer, (find_crlf_eq_length hdr s).mpr hline] at h
        cases h
    | chunk =>
        rw [hs] at h
        replace h : p.parserBuffer.length < u32 (p.currentChunkSize + 2) := h
        rw [spoiledAt_chunk hs]
        intro hspoiled
        by_cases hend : (p.parserBuffer.drop p.currentChunkSize).take 2 = crlf
        · -- the ending is there, so all of the chunk is
          have hlen := congrArg List.length hend
          rw [List.length_take, List.length_drop, crlf_length] at hlen
          have hle : u32 (p.currentChunkSize + 2) ≤ p.currentChunkSize + 2 := Nat.mod_le _ _
          omega
        · rw [spoiled_ending hend] at hspoiled
          omega
    | trailer =>
        rw [SpoiledAt, hs]
        exact id

theorem EndsAt.not_spoiledAt {loc : Nat} (h : p.EndsAt loc) : ¬ SpoiledAt p := by
  rw [SpoiledAt, h.state]
  exact id

/-- Of the faults, the aborts are those of a spoiled stream. -/
theorem Malformed.isException_iff {e : Fault} (h : Malformed p e) :
    isException e = true ↔ ¬ SpoiledAt p := by
  cases h with
  | header hs hfind hsize =>
      obtain ⟨hdr, rest, hbuffer, hline, rfl⟩ := exists_hdr hfind
      rw [hbuffer, take_hdr] at hsize
      refine iff_of_true (isException_of_getChunkSize hline hsize) ?_
      rw [spoiledAt_chunkHdr hs, hbuffer, spoiled_header hline]
      rintro ⟨n, hn, -⟩
      rw [hsize] at hn
      cases hn
  | outOfRange hs hne hle hsub =>
      unfold substr at hsub
      split at hsub
      · next hlt =>
          cases hsub
          refine iff_of_true rfl ?_
          have hend : (p.parserBuffer.drop p.currentChunkSize).take 2 ≠ crlf := by
            rw [List.drop_eq_nil_of_le (Nat.le_of_lt hlt)]
            decide
          rw [spoiledAt_chunk hs, spoiled_ending hend]
          exact fun h => absurd h.2.2 (Nat.not_le.mpr hlt)
      · cases hsub
  | ending hs hne hle hsub hend =>
      obtain ⟨hn, rfl⟩ := substr_eq_ok.mp hsub
      refine iff_of_false (by simp [isException]) (not_not.mpr ?_)
      rw [spoiledAt_chunk hs, spoiled_ending hend]
      exact ⟨hne, hle, hn⟩

theorem spoiledAt_of_visits (h : Visits (readTurn n) p t) : SpoiledAt p ↔ SpoiledAt t := by
  induction h with
  | refl => exact .rfl
  | again hb _ ih => exact (readTurn_again.mp hb).spoiledAt.trans ih

/-- The call returns, or throws a C++ exception. -/
def ReturnsOrThrows {α : Type} (o : Except Fault α) : Prop := ∀ e, o = .error e → isException e = true

/-- A call that fails an assertion has come to a spoiled chunk. -/
theorem Quiet.returnsOrThrows_iff (hq : p.Quiet) (x : Bytes) :
    ReturnsOrThrows (p.read x) ↔ ¬ SpoiledAt (p.feed x) := by
  have hreads := hq.reads x
  generalize p.read x = o at hreads
  cases hreads with
  | more hvisits hstuck =>
      refine iff_of_true (fun e he => by cases he) ?_
      rw [spoiledAt_of_visits hvisits]
      exact hstuck.not_spoiledAt
  | malformed hvisits he =>
      rw [spoiledAt_of_visits hvisits, ← he.isException_iff]
      exact ⟨fun h => h _ rfl, fun h e' he' => by cases he'; exact h⟩
  | complete hvisits hl _ =>
      refine iff_of_true (fun e he => by cases he) ?_
      rw [spoiledAt_of_visits hvisits]
      exact hl.not_spoiledAt

end

theorem returnsOrThrows_map {α β : Type} (f : α → β) (o : Except Fault α) :
    ReturnsOrThrows (o.map f) ↔ ReturnsOrThrows o := by
  cases o <;> simp [ReturnsOrThrows, Except.map]

theorem BodyRun.Follows.returnsOrThrows_iff {trailersEnabled : Bool} {s s' : BodyRun} {x : Bytes}
    (h : s.Follows trailersEnabled) (hs : s.step x = some s') :
    ReturnsOrThrows s'.outcome ↔ ¬ Spoiled none (s.stream ++ x) := by
  obtain ⟨p, hp, rfl⟩ := step_eq_some.mp hs
  have hwhole := (quiet_initial trailersEnabled).returnsOrThrows_iff (s.stream ++ x)
  rw [h.read hp, returnsOrThrows_map] at hwhole
  exact hwhole

/-- **Errors and aborts.** For every list of inputs: each call returns or
throws an exception exactly when no call is given bytes that, with those
before them, show a chunk without a line ending behind it. -/
theorem errors_not_aborts_iff (trailersEnabled : Bool) (inputs : List Bytes) :
    Always BodyRun.step (fun s => ReturnsOrThrows s.outcome) (.start trailersEnabled) inputs ↔
      EachStep BodyRun.step (fun s x => ¬ Spoiled none (s.stream ++ x)) (.start trailersEnabled)
        inputs :=
  always_iff_eachStep
    (I := fun s : BodyRun => ReturnsOrThrows s.outcome ∧ s.Follows trailersEnabled)
    (fun _ h => h.1)
    (fun _ _ _ h hs hG => ⟨(h.2.returnsOrThrows_iff hs).mpr hG, h.2.step hs⟩)
    (fun _ _ _ h hs hP => (h.2.returnsOrThrows_iff hs).mp hP)
    ⟨fun _ he => (by cases he), BodyRun.follows_start trailersEnabled⟩

/-- A server that sends a chunk that is longer than it says aborts the proxy. -/
theorem longer_chunk_aborts :
    (initial false).read (ascii "1\r\nabc\r\n")
      = .error (.assertion "parser_buffer_.substr( current_chunk_size_, 2 ) == CRLF") ∧
    ¬ Always BodyRun.step (fun s => ReturnsOrThrows s.outcome) (.start false)
      [ascii "1\r\nabc\r\n"] := by
  have hread : (initial false).read (ascii "1\r\nabc\r\n")
      = .error (.assertion "parser_buffer_.substr( current_chunk_size_, 2 ) == CRLF") := by
    decide +kernel
  refine ⟨hread, fun h => ?_⟩
  have hcall : ReturnsOrThrows ((initial false).read (ascii "1\r\nabc\r\n")) := h.2 _ rfl
  exact absurd (hcall _ hread) (by decide)

/-! ## Where a body ends -/

/-- Every input is taken, and more is asked for. -/
inductive Takes : ChunkedBodyParser → List Bytes → ChunkedBodyParser → Prop where
  | nil {p} : Takes p [] p
  | cons {p p₁ p₂ x xs} : p.read x = .ok (none, p₁) → Takes p₁ xs p₂ → Takes p (x :: xs) p₂

/-- The read that is given the last byte of `body`, and no other, completes
the body, and what is acknowledged are the bytes of `body`. -/
def EndsWith (trailersEnabled : Bool) (inputs : List Bytes) (body : Bytes) : Prop :=
  ∃ earlier last later p p' n, inputs = earlier ++ last :: later ∧
    Takes (initial trailersEnabled) earlier p ∧ p.read last = .ok (some n, p') ∧
    earlier.flatten.length < body.length ∧ body.length ≤ earlier.flatten.length + last.length ∧
    earlier.flatten.length + n = body.length

section

variable {p q : ChunkedBodyParser} {xs : List Bytes}

theorem Takes.quiet (h : Takes p xs q) (hq : p.Quiet) : q.Quiet := by
  induction h with
  | nil => exact hq
  | cons hread _ ih => exact ih (hq.of_read hread)

/-- A completion after some inputs is one of all the bytes at once. -/
theorem Takes.read_flatten {x : Bytes} {n : Nat} {q' : ChunkedBodyParser} (h : Takes p xs q)
    (hq : p.Quiet) (hread : q.read x = .ok (some n, q')) :
    ∃ p', p.read (xs.flatten ++ x) = .ok (some (xs.flatten.length + n), p') := by
  induction h with
  | nil => exact ⟨q', by simpa using hread⟩
  | @cons p p₁ p₂ x₀ xs hfirst _ ih =>
      obtain ⟨p', hrest⟩ := ih (hq.of_read hfirst) hread
      have happend := read_append_of_none (y := xs.flatten ++ x) hq hfirst
      rw [hrest] at happend
      refine ⟨p'.withAcked p.ackedSoFar, ?_⟩
      rw [List.flatten_cons, List.append_assoc, happend, List.length_append, Nat.add_assoc]
      rfl

/-- A completion of all the bytes at once is one after some inputs. -/
theorem exists_takes {p' : ChunkedBodyParser} {n : Nat} (hq : p.Quiet)
    (hsmall : p.SmallSizes xs.flatten) (h : p.read xs.flatten = .ok (some n, p')) :
    ∃ earlier last later q q' k, xs = earlier ++ last :: later ∧ Takes p earlier q ∧
      q.read last = .ok (some k, q') ∧ earlier.flatten.length + k = n := by
  induction xs generalizing p p' n with
  | nil =>
      have := read_some_bounds hq h
      simp only [List.flatten_nil, List.length_nil] at this
      omega
  | cons x xs ih =>
      rw [List.flatten_cons] at hsmall h
      cases hx : p.read x with
      | error e =>
          rw [read_append_of_error hq hsmall hx] at h
          cases h
      | ok r =>
          obtain ⟨o, p₁⟩ := r
          cases o with
          | some k =>
              rw [read_append_of_some hq hx] at h
              simp only [Except.ok.injEq, Prod.mk.injEq, Option.some.injEq] at h
              exact ⟨[], x, xs, p, p₁, k, rfl, .nil, hx, by simpa using h.1⟩
          | none =>
              rw [read_append_of_none hq hx] at h
              cases hrest : p₁.read xs.flatten with
              | error e => rw [hrest] at h; cases h
              | ok r =>
                  obtain ⟨o, p₂⟩ := r
                  rw [hrest] at h
                  cases o with
                  | none => cases h
                  | some m =>
                      simp only [Except.map, rebase, Except.ok.injEq, Prod.mk.injEq,
                        Option.some.injEq] at h
                      obtain ⟨earlier, last, later, q, q', k, rfl, htakes, hread, hk⟩ :=
                        ih (hq.of_read hx) (hsmall.right hq hx) hrest
                      refine ⟨x :: earlier, last, later, q, q', k, rfl, .cons hx htakes, hread, ?_⟩
                      rw [List.flatten_cons, List.length_append]
                      omega

end

/-- Where header lines are waited for, a trailer without any does not end the
body: what ends it comes later, if at all. -/
theorem ChunkedBody.read_empty_trailer {sizes : List Nat} {s rest : Bytes} {n : Nat}
    {p : ChunkedBodyParser} (h : ChunkedBody false sizes s)
    (hsizes : ∀ size ∈ sizes, size + 2 < 2 ^ 32)
    (hread : (initial true).read (s ++ rest) = .ok (some n, p)) : s.length < n := by
  obtain ⟨t, trailer, htrailer, hvisits, hstate, hbuffer, hparsed, -, -⟩ :=
    h.visits_trailer (n := (s ++ rest).length) (q := (initial true).feed (s ++ rest)) hsizes rfl
      (show 0 + 2 < 2 ^ 32 by decide) rfl
  have hprogress := Visits.progress hvisits
  have hneedle : t.needle.length = 4 := by
    rw [needle, hprogress.trailers]
    rfl
  have htlen : trailer.length = 2 := by
    obtain ⟨lines, hlines, -, rfl⟩ := htrailer.lines
    have hnil : lines = [] := by
      by_contra hne
      cases hlines.mpr hne
    simp [hnil, crlf_length]
  replace hparsed : t.parsedSoFar + trailer.length = s.length := by
    rw [hparsed]
    exact Nat.zero_add _
  cases hfind : find t.needle t.parserBuffer with
  | none =>
      have hstuck : t.Stuck := .inr (by rw [hstate]; exact hfind)
      rw [read_eq hvisits (.leave (readTurn_of_stuck hstuck))] at hread
      cases hread
  | some loc =>
      have hl : t.EndsAt loc := ⟨hstate, hfind⟩
      have hturn := readTurn_of_endsAt (n := (s ++ rest).length) hl
      rw [if_pos ((quiet_initial true).ahead hvisits hl)] at hturn
      rw [read_eq hvisits (.leave hturn)] at hread
      have hacked : t.ackedSoFar = 0 := hprogress.acked
      simp only [finish, Except.ok.injEq, Prod.mk.injEq, Option.some.injEq] at hread
      omega

/-- **Where a body ends.** For every body of the grammar, every sequence of
bytes behind it and every way to cut them: the parser ends the body where it
ends exactly when it does not wait for header lines in a trailer that has
none. -/
theorem chunked_body_ends_iff {enabled hasLines : Bool} {sizes : List Nat} {body : Bytes}
    (h : ChunkedBody hasLines sizes body) (hsizes : ∀ size ∈ sizes, size < 2 ^ 31)
    (hlines : hasLines = true → enabled = true) (rest : Bytes) (inputs : List Bytes)
    (hcut : inputs.flatten = body ++ rest) :
    EndsWith enabled inputs body ↔ (enabled = true → hasLines = true) := by
  have hsmall : ∀ size ∈ sizes, size + 2 < 2 ^ 32 := fun size hsize => by
    have := hsizes size hsize
    omega
  constructor
  · rintro ⟨earlier, last, later, p, p', n, hinputs, htakes, hread, -, -, hn⟩ henabled
    obtain ⟨p'', hwhole⟩ := htakes.read_flatten (quiet_initial enabled) hread
    have hsplit : earlier.flatten ++ last ++ later.flatten = body ++ rest := by
      rw [← hcut, hinputs]
      simp
    have hall := read_append_of_some (y := later.flatten) (quiet_initial enabled) hwhole
    rw [hsplit, hn] at hall
    by_contra hnone
    rw [Bool.not_eq_true] at hnone
    subst henabled hnone
    exact Nat.lt_irrefl _ (h.read_empty_trailer hsmall hall)
  · intro heq
    have henabled : enabled = hasLines := by
      cases enabled <;> cases hasLines <;> simp_all
    subst henabled
    obtain ⟨⟨p, hread⟩, hreads⟩ := h.read rest hsmall
    rw [← hcut] at hread hreads
    obtain ⟨earlier, last, later, q, q', k, hinputs, htakes, hlast, hk⟩ :=
      exists_takes (quiet_initial enabled) hreads hread
    have hbounds := read_some_bounds (htakes.quiet (quiet_initial enabled)) hlast
    exact ⟨earlier, last, later, q, q', k, hinputs, htakes, hlast, by omega, by omega, hk⟩

theorem isChunkHdr_zero : IsChunkHdr 0 (ascii "0") :=
  ⟨by decide, ascii "0", [], rfl, ⟨by decide, by decide +kernel⟩, by decide, .inl rfl⟩

theorem isTrailer_crlf : IsTrailer false crlf := ⟨[], by simp, by simp, rfl⟩

/-- One chunk, whose data are a line ending, in three pieces. -/
theorem chunked_body_ends_iff_pieces : EndsWith false
    [ascii "2;x\r\n\r", ascii "\n\r\n0\r", ascii "\n\r\nHTTP"] (ascii "2;x\r\n\r\n\r\n0\r\n\r\n") := by
  have hhdr : IsChunkHdr crlf.length (ascii "2;x") :=
    ⟨by decide, ascii "2", ascii ";x", rfl, ⟨by decide, by decide +kernel⟩, by decide,
      .inr ⟨59, ascii "x", rfl, .inl rfl⟩⟩
  have hbody : ChunkedBody false [2] (ascii "2;x\r\n\r\n\r\n0\r\n\r\n") :=
    .chunk hhdr (by decide) (.last isChunkHdr_zero isTrailer_crlf)
  exact (chunked_body_ends_iff hbody (by decide) (fun h => h) (ascii "HTTP") _ (by decide)).mpr
    fun h => h

/-- With trailers the shortest body is not taken for complete. -/
theorem empty_trailer_does_not_end : ChunkedBody false [] (ascii "0\r\n\r\n") ∧
    ¬ EndsWith true [ascii "0\r\n\r\n"] (ascii "0\r\n\r\n") := by
  refine ⟨.last isChunkHdr_zero isTrailer_crlf, ?_⟩
  rintro ⟨earlier, last, later, p, p', n, hinputs, htakes, hread, -, -, -⟩
  cases htakes with
  | nil =>
      obtain ⟨rfl, -⟩ := List.cons.inj hinputs
      have hnone : ((initial true).read (ascii "0\r\n\r\n")).map Prod.fst = .ok none := by
        decide +kernel
      rw [hread] at hnone
      cases hnone
  | cons => simp at hinputs

end ChunkedBodyParser

end Mahimahi
